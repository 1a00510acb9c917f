import Mathlib.Logic.Function.Basic
import Mathlib.Data.Nat.Notation
import Mathlib.Tactic.Basic

/-!
# The process table

The globals of `src/scheluding/scheluder.c` and its function `schelude`. `snapshots` is a table of
pointers to `process_t`, and what is behind a pointer is in `process`, also where the pointer is not
one that `create_process` returned. The type of the pointers to a `cpu_status` is left open. The
names of the processes are only printed, and are left out.
-/

namespace Potatos

/-- `status_t`, with the values that it may have in memory that was not written. -/
inductive Status where
  | READY
  | RUNNING
  | DEAD
  | unwritten (value : ℕ)
  deriving DecidableEq

/-- `process_t`. -/
structure Process (κ : Type) where
  process_status : Status
  context : κ

/-- The globals, and the memory that the pointers of the table lead to. -/
@[ext]
structure Scheluder (κ : Type) where
  snapshots : ℕ → ℕ
  process : ℕ → Process κ
  currentTask : ℕ
  numTasks : ℕ

namespace Scheluder

variable {κ : Type} (s : Scheluder κ)

/-- `snapshots[currentTask]`. -/
def current : ℕ := s.snapshots s.currentTask

/-- `snapshots[i]->context`. -/
def context (i : ℕ) : κ := (s.process (s.snapshots i)).context

/-- `p->context = c`. -/
def setContext (p : ℕ) (c : κ) : Scheluder κ :=
  { s with process := Function.update s.process p { s.process p with context := c } }

/-- `p->process_status = v`. -/
def setStatus (p : ℕ) (v : Status) : Scheluder κ :=
  { s with process := Function.update s.process p { s.process p with process_status := v } }

/-- `currentTask++`. -/
def nextTask : Scheluder κ := { s with currentTask := s.currentTask + 1 }

/-- `currentTask %= numTasks`, which faults without tasks. -/
def wrapTask : Option (Scheluder κ) :=
  if s.numTasks = 0 then none else some { s with currentTask := s.currentTask % s.numTasks }

/-- `schelude`: the context that it returns, and the globals. -/
def schelude (cur_status : κ) : Option (κ × Scheluder κ) := do
  let s := s.setContext s.current cur_status
  let s := s.setStatus s.current .READY
  let s ← s.nextTask.wrapTask
  let s := s.setStatus s.current .RUNNING
  some (s.context s.currentTask, s)

variable {s} {p i : ℕ} {c : κ} {v : Status} {s' : Scheluder κ}

/-- The status of a process is apart from its context. -/
@[simp] theorem context_setStatus : (s.setStatus p v).context i = s.context i := by
  unfold context setStatus
  by_cases h : s.snapshots i = p
  · subst h
    simp only [Function.update_self]
  · simp only [Function.update_of_ne h]

theorem context_setContext_self (h : s.snapshots i = p) : (s.setContext p c).context i = c := by
  unfold context setContext
  simp only [h, Function.update_self]

theorem context_setContext_of_ne (h : s.snapshots i ≠ p) :
    (s.setContext p c).context i = s.context i := by
  unfold context setContext
  simp only [Function.update_of_ne h]

theorem wrapTask_eq_some : s.wrapTask = some s' ↔
    s.numTasks ≠ 0 ∧ s' = { s with currentTask := s.currentTask % s.numTasks } := by
  unfold wrapTask
  constructor
  · intro h
    by_cases h0 : s.numTasks = 0
    · rw [if_pos h0] at h
      cases h
    · rw [if_neg h0] at h
      exact ⟨h0, (Option.some.inj h).symm⟩
  · intro h
    rw [if_neg h.1, h.2]

/-- `schelude` stores the context that it is given for the current task, and returns the one that
the next task has then. -/
theorem schelude_spec (h : s.numTasks ≠ 0) :
    ∃ s', s.schelude c = some (s'.context s'.currentTask, s') ∧ s'.snapshots = s.snapshots ∧
      s'.numTasks = s.numTasks ∧ s'.currentTask = (s.currentTask + 1) % s.numTasks ∧
      ∀ p, (s'.process p).context = if p = s.current then c else (s.process p).context := by
  let stored := (s.setContext s.current c).setStatus s.current .READY
  let next : Scheluder κ := { stored with currentTask := (s.currentTask + 1) % s.numTasks }
  have hwrap : stored.nextTask.wrapTask = some next := wrapTask_eq_some.mpr ⟨h, rfl⟩
  -- a status is apart from every context
  have hstatus : ∀ (t : Scheluder κ) (q : ℕ) (v : Status) (p : ℕ),
      ((t.setStatus q v).process p).context = (t.process p).context := by
    intro t q v p
    unfold setStatus
    dsimp only
    rw [Function.update_apply]
    by_cases hp : p = q
    · rw [if_pos hp, hp]
    · rw [if_neg hp]
  refine ⟨next.setStatus next.current .RUNNING,
    Option.bind_eq_some_iff.mpr ⟨next, hwrap, rfl⟩, rfl, rfl, rfl, fun p => ?_⟩
  calc ((next.setStatus next.current .RUNNING).process p).context
      = (stored.process p).context := hstatus next _ _ p
    _ = ((s.setContext s.current c).process p).context := hstatus _ _ _ p
    _ = if p = s.current then c else (s.process p).context := by
        unfold setContext
        dsimp only
        rw [Function.update_apply, apply_ite Process.context]

end Scheluder

end Potatos
