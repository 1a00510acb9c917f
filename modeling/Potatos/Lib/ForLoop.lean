import Mathlib.Data.List.Basic
import Mathlib.Data.Nat.Notation
import Mathlib.Tactic.Basic

/-!
# Counting loops

A loop for `i` from 0 to `n - 1` whose body may fail. What holds at the start and is carried by each
round to the next holds at the end (`forRange_spec`).
-/

namespace Lib

variable {σ : Type*}

/-- The body for each number below `n`, one after the other. -/
def forRange (n : ℕ) (body : σ → ℕ → Option σ) (s : σ) : Option σ := (List.range n).foldlM body s

variable {n : ℕ} {body : σ → ℕ → Option σ} {s : σ}

theorem forRange_succ :
    forRange (n + 1) body s = (forRange n body s).bind (fun s => body s n) := by
  unfold forRange
  rw [List.range_succ, List.foldlM_append]
  refine congrArg (Option.bind _) (funext fun s => ?_)
  show (body s n).bind some = body s n
  exact Option.bind_fun_some _

/-- An invariant that says how many rounds were made. -/
theorem forRange_spec {P : ℕ → σ → Prop} (h0 : P 0 s)
    (hstep : ∀ k < n, ∀ s, P k s → ∃ s', body s k = some s' ∧ P (k + 1) s') :
    ∃ s', forRange n body s = some s' ∧ P n s' := by
  induction n with
  | zero => exact ⟨s, rfl, h0⟩
  | succ n ih =>
    obtain ⟨t, ht, hPt⟩ := ih (fun k hk => hstep k (by omega))
    obtain ⟨s', hs', hPs'⟩ := hstep n (by omega) t hPt
    exact ⟨s', by rw [forRange_succ, ht, Option.bind_some, hs'], hPs'⟩

end Lib
