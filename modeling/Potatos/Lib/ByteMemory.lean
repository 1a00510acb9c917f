import Mathlib.Logic.Function.Basic
import Mathlib.Algebra.Order.Ring.Nat
import Mathlib.Tactic.Ring
import Mathlib.Tactic.NormNum

/-!
# Little-endian words in byte memory

A memory is a function from addresses to bytes. `load n m a` reads the `n` bytes from `a` on as a
little-endian number, and `store n m a v` writes the low `n` bytes of `v` there. A load sees a store
to the same place, and does not see one to a place that is apart.
-/

namespace Lib

/-- Memory, by address. -/
abbrev ByteMemory := ℕ → BitVec 8

/-- The number in the `n` bytes from `a` on, the low byte first. -/
def load : ℕ → ByteMemory → ℕ → ℕ
  | 0, _, _ => 0
  | n + 1, m, a => (m a).toNat + 256 * load n m (a + 1)

/-- Write the low `n` bytes of `v` from `a` on, the low byte first. -/
def store : ℕ → ByteMemory → ℕ → ℕ → ByteMemory
  | 0, m, _, _ => m
  | n + 1, m, a, v => Function.update (store n m (a + 1) (v / 256)) a (BitVec.ofNat 8 v)

variable {m m' : ByteMemory} {n k a b v x : ℕ}

/-- A load depends only on the bytes that it reads. -/
theorem load_congr (h : ∀ x, a ≤ x → x < a + n → m x = m' x) : load n m a = load n m' a := by
  induction n generalizing a with
  | zero => rfl
  | succ n ih =>
    have hrest : load n m (a + 1) = load n m' (a + 1) :=
      ih (fun x h1 h2 => h x (by omega) (by omega))
    rw [load, load, h a (le_refl a) (by omega), hrest]

theorem load_of_zero (h : ∀ x, a ≤ x → x < a + n → m x = 0) : load n m a = 0 := by
  induction n generalizing a with
  | zero => rfl
  | succ n ih =>
    rw [load, h a (le_refl a) (by omega), ih (fun x h1 h2 => h x (by omega) (by omega))]
    rfl

/-- A load is a number of `n` bytes. -/
theorem load_lt : load n m a < 256^n := by
  induction n generalizing a with
  | zero => exact Nat.one_pos
  | succ n ih =>
    have hbyte := (m a).isLt
    have hrest : load n m (a + 1) < 256^n := ih
    rw [load, pow_succ']
    omega

/-- A number by its low bytes and the ones behind them. -/
theorem load_add : load (n + k) m a = load n m a + 256^n * load k m (a + n) := by
  induction n generalizing a with
  | zero => rw [Nat.zero_add, load, pow_zero, Nat.one_mul, Nat.zero_add, Nat.add_zero]
  | succ n ih =>
    have haddr : a + 1 + n = a + (n + 1) := by omega
    rw [Nat.add_right_comm, load, ih, load, haddr]
    ring

/-- A store leaves the bytes outside its place. -/
theorem store_of_out (h : x < a ∨ a + n ≤ x) : store n m a v x = m x := by
  induction n generalizing a v with
  | zero => rfl
  | succ n ih =>
    rw [store, Function.update_of_ne (by omega), ih (by omega)]

/-- A load sees a store to the same place. -/
theorem load_store_self : load n (store n m a v) a = v % 256^n := by
  induction n generalizing a v with
  | zero => simp [load, Nat.mod_one]
  | succ n ih =>
    have hrest : load n (store (n + 1) m a v) (a + 1) =
        load n (store n m (a + 1) (v / 256)) (a + 1) := by
      apply load_congr
      intro x h1 _
      rw [store, Function.update_of_ne (by omega)]
    have hlow : (store (n + 1) m a v a).toNat = v % 256 := by
      rw [store, Function.update_self, BitVec.toNat_ofNat]
    rw [load, hrest, ih, hlow, pow_succ', Nat.mod_mul]

/-- A load does not see a store to a place that is apart. -/
theorem load_store_of_apart (h : b + k ≤ a ∨ a + n ≤ b) :
    load k (store n m a v) b = load k m b := by
  apply load_congr
  intro x h1 h2
  exact store_of_out (by omega)

end Lib
