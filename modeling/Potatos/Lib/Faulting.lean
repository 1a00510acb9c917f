import Mathlib.Data.List.Basic
import Mathlib.Tactic.Basic

/-!
# Computations that may fault

A computation over a state of type `σ` returns a value or faults, and leaves a state in both cases,
so that what it did before a fault can be told. `step` makes one from a partial function.

`Keeps I` says that a computation keeps `I`, also where it faults. It has a rule for each way in
which computations are put together, so that for a program only its steps have to be looked at.
-/

namespace Lib

/-- Computations over `σ` that may fault. -/
def Faulting (σ α : Type) := σ → Option α × σ

namespace Faulting

variable {σ α β : Type} {I : σ → Prop}

/-- The value, if any, and the state that is left. -/
def exec (x : Faulting σ α) (s : σ) : Option α × σ := x s

instance : Monad (Faulting σ) where
  pure a := fun s => (some a, s)
  bind x f := fun s =>
    match exec x s with
    | (some a, t) => exec (f a) t
    | (none, t) => (none, t)

/-- A fault. -/
def fault : Faulting σ α := fun s => (none, s)

/-- One step, which leaves the state as it is where it faults. -/
def step (f : σ → Option (α × σ)) : Faulting σ α := fun s =>
  match f s with
  | some (a, t) => (some a, t)
  | none => (none, s)

theorem exec_step_some {f : σ → Option (α × σ)} {s t : σ} {a : α} (h : f s = some (a, t)) :
    exec (step f) s = (some a, t) := by
  unfold exec step
  rw [h]

theorem exec_step_none {f : σ → Option (α × σ)} {s : σ} (h : f s = none) :
    exec (step f) s = (none, s) := by
  unfold exec step
  rw [h]

theorem exec_bind (x : Faulting σ α) (f : α → Faulting σ β) (s : σ) :
    exec (x >>= f) s =
      match exec x s with
      | (some a, t) => exec (f a) t
      | (none, t) => (none, t) := rfl

/-- The computation keeps `I`, also where it faults. -/
def Keeps (I : σ → Prop) (x : Faulting σ α) : Prop := ∀ s, I s → I (exec x s).2

theorem Keeps.pure (a : α) : Keeps I (Pure.pure a : Faulting σ α) := fun _ h => h

theorem Keeps.fault : Keeps I (fault : Faulting σ α) := fun _ h => h

theorem Keeps.step {f : σ → Option (α × σ)} (h : ∀ s a t, I s → f s = some (a, t) → I t) :
    Keeps I (step f) := by
  intro s hs
  cases hf : f s with
  | none => rwa [exec_step_none hf]
  | some p =>
    rw [exec_step_some hf]
    exact h s p.1 p.2 hs hf

/-- What holds behind the first part holds in the end. -/
theorem exec_bind_keeps {x : Faulting σ α} {f : α → Faulting σ β} {s : σ} (hx : I (exec x s).2)
    (hf : ∀ a, Keeps I (f a)) : I (exec (x >>= f) s).2 := by
  rw [exec_bind]
  generalize exec x s = p at hx ⊢
  obtain ⟨o, t⟩ := p
  cases o with
  | none => exact hx
  | some a => exact hf a t hx

theorem Keeps.bind {x : Faulting σ α} {f : α → Faulting σ β} (hx : Keeps I x)
    (hf : ∀ a, Keeps I (f a)) : Keeps I (x >>= f) :=
  fun s hs => exec_bind_keeps (hx s hs) hf

/-- A loop over a list. -/
theorem Keeps.forM {f : α → Faulting σ PUnit} (hf : ∀ a, Keeps I (f a)) (l : List α) :
    Keeps I (l.forM f) := by
  induction l with
  | nil => exact Keeps.pure _
  | cons a l ih => exact (hf a).bind (fun _ => ih)

end Faulting

end Lib
