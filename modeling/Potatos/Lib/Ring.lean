import Mathlib.Data.List.Induction
import Mathlib.Logic.Function.Basic

/-!
# Ring buffers

A buffer of `cap` places that is written at a position, which then moves on to the next place, and
from the last one to the first. After any items the position is known, and the last `cap` of them
are where they were written (`ringPushes_spec`).
-/

namespace Lib

variable {α : Type*}

/-- An item is written, and the position moves on. -/
def ringPush (cap : ℕ) (s : (ℕ → α) × ℕ) (x : α) : (ℕ → α) × ℕ :=
  (Function.update s.1 s.2 x, (s.2 + 1) % cap)

variable {cap p : ℕ} {buf : ℕ → α} {xs : List α}

theorem ringPush_position (xs : List α) (hp : p < cap) :
    (xs.foldl (ringPush cap) (buf, p)).2 = (p + xs.length) % cap := by
  induction xs using List.reverseRecOn with
  | nil => exact (Nat.mod_eq_of_lt hp).symm
  | append_singleton xs x ih =>
    rw [List.foldl_append, List.foldl_cons, List.foldl_nil, List.length_append,
      List.length_singleton]
    show ((xs.foldl (ringPush cap) (buf, p)).2 + 1) % cap = _
    rw [ih, Nat.mod_add_mod, Nat.add_assoc]

/-- Two of `cap` consecutive places are different. -/
theorem add_mod_ne {i j : ℕ} (hij : i < j) (hlt : j < i + cap) :
    (p + i) % cap ≠ (p + j) % cap := by
  intro heq
  have hdvd : cap ∣ p + j - (p + i) :=
    Nat.dvd_of_mod_eq_zero (Nat.sub_mod_eq_zero_of_mod_eq heq.symm)
  have hle := Nat.le_of_dvd (by omega) hdvd
  omega

/-- The last `cap` items are in the buffer, and each place that was not written is as it was. -/
theorem ringPushes_spec (buf : ℕ → α) (xs : List α) (hp : p < cap) :
    (∀ j x, xs[j]? = some x → xs.length ≤ j + cap →
      (xs.foldl (ringPush cap) (buf, p)).1 ((p + j) % cap) = x) ∧
    ∀ k, (∀ j < xs.length, (p + j) % cap ≠ k) →
      (xs.foldl (ringPush cap) (buf, p)).1 k = buf k := by
  induction xs using List.reverseRecOn with
  | nil => exact ⟨fun j x hx => absurd hx (by simp), fun k _ => rfl⟩
  | append_singleton xs x ih =>
    have hpush : ((xs ++ [x]).foldl (ringPush cap) (buf, p)).1 =
        Function.update (xs.foldl (ringPush cap) (buf, p)).1 ((p + xs.length) % cap) x := by
      rw [List.foldl_append, List.foldl_cons, List.foldl_nil, ← ringPush_position xs hp]
      rfl
    rw [hpush, List.length_append, List.length_singleton]
    constructor
    · intro j y hy hlast
      rcases Nat.lt_or_ge j xs.length with hj | hj
      · rw [List.getElem?_append_left hj] at hy
        rw [Function.update_of_ne (add_mod_ne hj (by omega))]
        exact ih.1 j y hy (by omega)
      · rw [List.getElem?_append_right hj] at hy
        have hj' : j = xs.length := by
          have hlt := (List.getElem?_eq_some_iff.mp hy).1
          rw [List.length_singleton] at hlt
          omega
        subst hj'
        rw [Nat.sub_self] at hy
        rw [Function.update_self]
        exact Option.some.inj hy
    · intro k hk
      rw [Function.update_of_ne (hk xs.length (by omega)).symm]
      exact ih.2 k (fun j hj => hk j (by omega))

end Lib
