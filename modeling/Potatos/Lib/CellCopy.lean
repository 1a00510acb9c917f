import Mathlib.Data.List.Basic
import Mathlib.Logic.Function.Basic
import Mathlib.Tactic.Basic

/-!
# Copying cells one after the other

A memory is a function, and `copyCells dst src n` copies the cells `src 0`, `src 1`, … to `dst 0`,
`dst 1`, … in this order. A cell that is not written keeps what it has. Where no cell is both read
and written, every cell gets what its source had. A copy by way of other cells (`copyCells_through`)
does not ask how the two ends lie to one another.
-/

namespace Lib

variable {α β : Type*} [DecidableEq α]

/-- Copy `n` cells, one after the other. -/
def copyCells (dst src : ℕ → α) (n : ℕ) (m : α → β) : α → β :=
  (List.range n).foldl (fun m i => Function.update m (dst i) (m (src i))) m

variable {dst src tmp : ℕ → α} {n : ℕ} {m : α → β} {x : α}

theorem copyCells_succ : copyCells dst src (n + 1) m =
    Function.update (copyCells dst src n m) (dst n) (copyCells dst src n m (src n)) := by
  unfold copyCells
  rw [List.range_succ, List.foldl_append]
  rfl

/-- What is not written is left. -/
theorem copyCells_of_out (h : ∀ i < n, x ≠ dst i) : copyCells dst src n m x = m x := by
  induction n with
  | zero => rfl
  | succ n ih =>
    rw [copyCells_succ, Function.update_of_ne (h n (by omega))]
    exact ih (fun i hi => h i (by omega))

/-- Between cells that are apart, each one gets what its source had. -/
theorem copyCells_apart (hinj : ∀ i < n, ∀ j < n, dst i = dst j → i = j)
    (hapart : ∀ i < n, ∀ j < n, src i ≠ dst j) :
    ∀ i < n, copyCells dst src n m (dst i) = m (src i) := by
  induction n with
  | zero =>
    intro i hi
    omega
  | succ n ih =>
    intro i hi
    rw [copyCells_succ]
    rcases Nat.eq_or_lt_of_le (Nat.le_of_lt_succ hi) with rfl | hlt
    · -- The last cell: nothing has been written to its source.
      rw [Function.update_self]
      exact copyCells_of_out (fun j hj => hapart i hi j (by omega))
    · have hne : dst i ≠ dst n := fun heq => Nat.ne_of_lt hlt (hinj i hi n (by omega) heq)
      rw [Function.update_of_ne hne]
      exact ih (fun j hj k hk => hinj j (by omega) k (by omega))
        (fun j hj k hk => hapart j (by omega) k (by omega)) i hlt

/-- A copy by way of cells that are apart from both ends moves what was there at first, also where
the ends overlap. -/
theorem copyCells_through (htmp : ∀ i < n, ∀ j < n, tmp i = tmp j → i = j)
    (hdst : ∀ i < n, ∀ j < n, dst i = dst j → i = j)
    (hsrc : ∀ i < n, ∀ j < n, src i ≠ tmp j) (hapart : ∀ i < n, ∀ j < n, tmp i ≠ dst j) :
    ∀ i < n, copyCells dst tmp n (copyCells tmp src n m) (dst i) = m (src i) := by
  intro i hi
  calc copyCells dst tmp n (copyCells tmp src n m) (dst i)
      = copyCells tmp src n m (tmp i) := copyCells_apart hdst hapart i hi
    _ = m (src i) := copyCells_apart htmp hsrc i hi

end Lib
