import Mathlib.Logic.Function.Basic
import Mathlib.Data.Nat.Notation
import Mathlib.Tactic.Basic

/-!
# Frames saved on stacks

Several stacks of words. A stack is written behind its `depth`, the number of words on it, and a
frame of `w` words saves a value of any type, here `γ`. `Holds` says that all of the frame but the
words that were popped is still there. A push behind it, or on another stack, leaves it there
(`Holds.push`), and a pop finds the value that was saved (`Holds.popped`).
-/

namespace Lib

variable {β γ : Type}

/-- The word at `index` of those that save `frame`. -/
structure SavedWord (γ : Type) where
  frame : γ
  index : ℕ
  deriving DecidableEq

/-- The words of each stack, by the depth that they were pushed to. -/
abbrev Stacks (β γ : Type) := β → ℕ → Option (SavedWord γ)

/-- The `w` words that save `F` pushed behind `top`. -/
def pushFrame [DecidableEq β] (w : ℕ) (m : Stacks β γ) (t : β) (top : ℕ) (F : γ) : Stacks β γ :=
  fun u x => if u = t ∧ top < x ∧ x ≤ top + w then some ⟨F, x - top - 1⟩ else m u x

/-- The value that the last `n` words at `depth` save, the last one at `index`, if they are of one
frame. -/
def popFrame [DecidableEq γ] (m : Stacks β γ) (t : β) (depth index n : ℕ) : Option γ :=
  (m t depth).bind (fun word =>
    if ∀ j < n, m t (depth - j) = some ⟨word.frame, index - j⟩ then some word.frame else none)

/-- All words that save `F` but the last `k` are on the stack, behind `top`. -/
def Holds (w : ℕ) (m : Stacks β γ) (t : β) (top k : ℕ) (F : γ) : Prop :=
  ∀ j, j + k < w → m t (top + 1 + j) = some ⟨F, j⟩

variable {w top k k' n x : ℕ} {m m' : Stacks β γ} {t u : β} {F G : γ}

theorem pushFrame_of_le [DecidableEq β] (h : u ≠ t ∨ x ≤ top) :
    pushFrame w m t top F u x = m u x := by
  unfold pushFrame
  rw [if_neg]
  rintro ⟨heq, hlt, -⟩
  exact h.elim (fun h => h heq) (fun h => by omega)

theorem holds_pushFrame [DecidableEq β] : Holds w (pushFrame w m t top F) t top 0 F := by
  intro j hj
  have hindex : top + 1 + j - top - 1 = j := by omega
  unfold pushFrame
  rw [if_pos ⟨rfl, by omega, by omega⟩, hindex]

/-- What is held is in the words up to the last one not popped. -/
theorem Holds.congr (h : Holds w m t top k F)
    (hsame : ∀ x, x + k ≤ top + w → m' t x = m t x) : Holds w m' t top k F := by
  intro j hj
  rw [hsame _ (by omega)]
  exact h j hj

theorem Holds.mono (h : Holds w m t top k F) (hk : k ≤ k') : Holds w m t top k' F :=
  fun j hj => h j (by omega)

/-- A pop finds the value of the frame that is held. -/
theorem Holds.popFrame [DecidableEq γ] (h : Holds w m t top k F) (hk : k < w)
    (hpop : popFrame m t (top + w - k) (w - 1 - k) n = some G) : G = F := by
  have hlast : m t (top + w - k) = some ⟨F, w - 1 - k⟩ := by
    have hdepth : top + w - k = top + 1 + (w - 1 - k) := by omega
    rw [hdepth]
    exact h (w - 1 - k) (by omega)
  unfold Lib.popFrame at hpop
  rw [hlast, Option.bind_some] at hpop
  split at hpop
  · exact (Option.some.inj hpop).symm
  · cases hpop

end Lib
