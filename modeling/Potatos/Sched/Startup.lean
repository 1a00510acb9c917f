import Potatos.Lib.Runs
import Potatos.Sched.Process

/-!
# Timer interrupts during `init_scheluder`

`init_scheluder` one statement at a time, its four calls of `create_process` included, with timer
interrupts wherever the interrupt flag is set. An interrupt runs `schelude` as a whole on the
context of what it interrupts, and the processor goes on with the context that `schelude` returns.

`create_process` counts its process and sets the interrupt flag before its result is stored. An
interrupt in between that has the turn come to this process goes through a slot that was not stored,
and every other one behind `idt_deactivate` is sound (`safe_iff_settled`). C leaves open whether the
slot of `snapshots[numTasks] = create_process(...)` is taken before or behind the call, which
increments `numTasks`. The kernel is built with gcc, which takes it before, so that the results come
to `snapshots[0]` to `snapshots[3]`.
-/

namespace Potatos

open Lib

/-- `PROCESS_MAX`. -/
def PROCESS_MAX : ℕ := 32

/-- A pointer to a `cpu_status`: `NULL`, the one that the `i`-th call of `create_process` made, the
frame of the `n`-th interrupt, or what was in memory before. -/
inductive Context where
  | null
  | initial (i : ℕ)
  | saved (n : ℕ)
  | stale (v : ℕ)
  deriving DecidableEq

/-- Where `init_scheluder` is. The points of `create_process` have the number of the call, from 0 to
3: the address of the slot, the `cli`, the context of the new process, `numTasks++`, the `sti`, and
the store behind the return. -/
inductive InitPoint where
  | deactivate
  | allocate
  | clear
  | reset
  | address (i : ℕ)
  | cli (i : ℕ)
  | context (i : ℕ)
  | count (i : ℕ)
  | sti (i : ℕ)
  | store (i : ℕ)
  | first
  | done
  deriving DecidableEq

/-- The point behind. -/
def InitPoint.next : InitPoint → InitPoint
  | .deactivate => .allocate
  | .allocate => .clear
  | .clear => .reset
  | .reset => .address 0
  | .address i => .cli i
  | .cli i => .context i
  | .context i => .count i
  | .count i => .sti i
  | .sti i => .store i
  | .store i => if i < 3 then .address (i + 1) else .first
  | .first => .done
  | .done => .done

namespace InitPoint

/-- How many slots were stored. -/
def stored : InitPoint → ℕ
  | .address i | .cli i | .context i | .count i | .sti i | .store i => i
  | .first | .done => 4
  | _ => 0

/-- `numTasks`. -/
def counted : InitPoint → ℕ
  | .address i | .cli i | .context i | .count i => i
  | .sti i | .store i => i + 1
  | .first | .done => 4
  | _ => 0

/-- There are four calls of `create_process`. -/
def Valid : InitPoint → Prop
  | .address i | .cli i | .context i | .count i | .sti i | .store i => i < 4
  | _ => True

/-- The points at which the interrupt flag may be set. -/
def Open : InitPoint → Prop
  | .deactivate | .store _ | .first | .done => True
  | .address i | .cli i => 0 < i
  | _ => False

/-- The address of the slot is taken, and the slot not stored. -/
def InCall : InitPoint → Prop
  | .cli _ | .context _ | .count _ | .sti _ | .store _ => True
  | _ => False

/-- The process of call `i` has its context, and is not stored. -/
def Made (i : ℕ) : InitPoint → Prop
  | .count j | .sti j | .store j => i = j
  | _ => False

theorem stored_le {pc : InitPoint} (h : pc.Valid) : pc.stored ≤ 4 := by
  cases pc <;> simp only [Valid] at h <;> simp only [stored] <;> omega

theorem stored_le_counted (pc : InitPoint) : pc.stored ≤ pc.counted := by
  cases pc <;> simp only [stored, counted] <;> omega

theorem made_eq {pc : InitPoint} {i : ℕ} (h : pc.Valid) (hmade : pc.Made i) :
    i = pc.stored ∧ i < 4 := by
  cases pc with
  | count j => exact ⟨hmade, hmade ▸ h⟩
  | sti j => exact ⟨hmade, hmade ▸ h⟩
  | store j => exact ⟨hmade, hmade ▸ h⟩
  | _ => exact hmade.elim

/-- All that are counted are stored, but for the last one right behind a `sti`. -/
theorem counted_eq {pc : InitPoint} (h : pc.Open) (hstore : ∀ i, pc ≠ .store i) :
    pc.counted = pc.stored := by
  cases pc with
  | store i => exact absurd rfl (hstore i)
  | sti i => exact False.elim h
  | _ => rfl

end InitPoint

/-- What the processor runs: the kernel's own thread, a process, or what a pointer that is not to a
`cpu_status` happens to lead to. -/
inductive Thread where
  | init (pc : InitPoint)
  | process (i : ℕ)
  | lost
  deriving DecidableEq

/-- What `kmalloc` returns: the contents of the table when it is allocated, and the pointers of the
processes, which are different objects. -/
structure Memory where
  table : ℕ → ℕ
  pointer : ℕ → ℕ
  distinct : ∀ i < 4, ∀ j < 4, pointer i = pointer j → i = j

/-- The processor, the process table and the frames of the interrupts so far. `slot` is the slot
whose address was taken last, and `stored` the call of `create_process` whose result was stored in a
slot, if any. -/
structure Startup where
  thread : Thread
  interruptFlag : Bool
  tasks : Scheluder Context
  frames : ℕ → Thread
  ticks : ℕ
  slot : ℕ
  stored : ℕ → Option ℕ

namespace Startup

/-- One round of the loop that clears the table, which writes through pointers that it has not
set. -/
def clearSlot (s : Scheluder Context) (i : ℕ) : Scheluder Context :=
  (s.setContext (s.snapshots i) .null).setStatus (s.snapshots i) .DEAD

/-- What a statement does. -/
def effect (M : Memory) (s : Startup) : InitPoint → Startup
  | .deactivate => { s with interruptFlag := false }
  | .allocate => { s with tasks := { s.tasks with snapshots := M.table } }
  | .clear => { s with tasks := (List.range PROCESS_MAX).foldl clearSlot s.tasks }
  | .reset => { s with tasks := { s.tasks with numTasks := 0 } }
  | .address _ => { s with slot := s.tasks.numTasks }
  | .cli _ => { s with interruptFlag := false }
  | .context i => { s with tasks := s.tasks.setContext (M.pointer i) (.initial i) }
  | .count _ => { s with tasks := { s.tasks with numTasks := s.tasks.numTasks + 1 } }
  | .sti _ => { s with interruptFlag := true }
  | .store i =>
    { s with
      tasks :=
        { s.tasks with snapshots := Function.update s.tasks.snapshots s.slot (M.pointer i) }
      stored := Function.update s.stored s.slot (some i) }
  | .first => { s with tasks := { s.tasks with currentTask := 0 } }
  | .done => s

/-- One statement. -/
def initStep (M : Memory) (s : Startup) (pc : InitPoint) : Startup :=
  { s.effect M pc with thread := .init pc.next }

/-- What runs from a context. -/
def resume (frames : ℕ → Thread) : Context → Thread
  | .initial i => .process i
  | .saved n => frames n
  | _ => .lost

/-- A timer interrupt. Without tasks `schelude` faults on its remainder. -/
def tick (s : Startup) : Startup :=
  match s.tasks.schelude (.saved s.ticks) with
  | none => { s with thread := .lost, interruptFlag := false }
  | some (context, tasks) =>
    let frames := Function.update s.frames s.ticks s.thread
    let thread := resume frames context
    { s with
      thread := thread
      interruptFlag := thread ≠ .lost
      tasks := tasks
      frames := frames
      ticks := s.ticks + 1 }

/-- What may happen. -/
inductive Event where
  | init
  | tick
  deriving DecidableEq

/-- One step. -/
inductive Step (M : Memory) : Startup → Event → Startup → Prop where
  | init {s : Startup} {pc : InitPoint} : s.thread = .init pc → Step M s .init (initStep M s pc)
  | tick {s : Startup} : s.interruptFlag = true → Step M s .tick s.tick

/-- When `init_scheluder` is called. -/
structure Started (s : Startup) : Prop where
  thread : s.thread = .init .deactivate
  currentTask : s.tasks.currentTask = 0
  numTasks : s.tasks.numTasks = 0
  ticks : s.ticks = 0
  stored : ∀ slot, s.stored slot = none

/-- An interrupt is sound when both pointers that `schelude` goes through were stored, and the
context that it returns is the one that one of these processes starts from, or was saved by an
interrupt. -/
structure Sound (s : Startup) : Prop where
  current : ∃ i, s.stored s.tasks.currentTask = some i
  next : ∃ i, s.stored ((s.tasks.currentTask + 1) % s.tasks.numTasks) = some i
  returned : ∃ context tasks, s.tasks.schelude (.saved s.ticks) = some (context, tasks) ∧
    ((∃ slot i, s.stored slot = some i ∧ context = .initial i) ∨
      ∃ n ≤ s.ticks, context = .saved n)

/-- Every interrupt of the run is sound. -/
def Safe (ts : List (Transition Startup Event)) : Prop :=
  ∀ x ∈ ts, x.label = .tick → x.pre.Sound

/-- Where `init_scheluder` is, or was interrupted: the context of what was interrupted first is that
of the first task. -/
def point (s : Startup) : Option InitPoint :=
  match s.thread, s.tasks.context 0 with
  | .init pc, _ => some pc
  | .process _, .saved n =>
    match s.frames n with
    | .init pc => some pc
    | _ => none
  | _, _ => none

/-- `init_scheluder` has called `idt_deactivate`, and where it is between a `sti` and the store
behind it, the turn is not that of the task whose slot it stores. -/
def Settled (s : Startup) : Prop :=
  match s.point with
  | some .deactivate => False
  | some (.store i) => (s.tasks.currentTask + 1) % s.tasks.numTasks ≠ i
  | _ => True

instance (s : Startup) : Decidable s.Settled := by
  unfold Settled
  split <;> infer_instance

/-! ## The invariant -/

/-- The thread that has slot `j`: the one of `init_scheluder` takes that of the process created
first. -/
def owner (pc : InitPoint) (j : ℕ) : Thread := if j = 0 then .init pc else .process j

/-- The context of slot `j` is the one that its thread goes on from. -/
structure Waiting (s : Startup) (pc : InitPoint) (j : ℕ) : Prop where
  resume : resume s.frames (s.tasks.context j) = owner pc j
  context : s.tasks.context j = .initial j ∨ ∃ n < s.ticks, s.tasks.context j = .saved n

/-- `init_scheluder` is at `pc`, or was interrupted there, and the table has what it stored. -/
structure Inv (M : Memory) (s : Startup) (pc : InitPoint) : Prop where
  valid : pc.Valid
  thread : s.thread = owner pc s.tasks.currentTask
  flag : s.interruptFlag = true → pc.Open
  switched : s.tasks.currentTask ≠ 0 → s.interruptFlag = true ∧ s.tasks.currentTask < pc.stored
  numTasks : s.tasks.numTasks = pc.counted
  stored : ∀ j, s.stored j = if j < pc.stored then some j else none
  snapshots : ∀ j < pc.stored, s.tasks.snapshots j = M.pointer j
  slot : pc.InCall → s.slot = pc.stored
  made : ∀ i, pc.Made i → (s.tasks.process (M.pointer i)).context = .initial i
  waiting : ∀ j < pc.stored, j ≠ s.tasks.currentTask → s.Waiting pc j

variable {M : Memory} {s s' : Startup} {pc : InitPoint} {ts : List (Transition Startup Event)}

theorem Started.inv (h : s.Started) : Inv M s .deactivate where
  valid := trivial
  thread := by rw [h.thread, h.currentTask]; rfl
  flag _ := trivial
  switched hne := absurd h.currentTask hne
  numTasks := h.numTasks
  stored j := (h.stored j).trans (if_neg (Nat.not_lt_zero j)).symm
  snapshots j hj := absurd hj (Nat.not_lt_zero j)
  slot hcall := False.elim hcall
  made i hmade := False.elim hmade
  waiting j hj := absurd hj (Nat.not_lt_zero j)

/-- The loop that clears the table leaves the counters. -/
theorem clear_tasks (is : List ℕ) (t : Scheluder Context) :
    (is.foldl clearSlot t).currentTask = t.currentTask ∧
      (is.foldl clearSlot t).numTasks = t.numTasks := by
  induction is generalizing t with
  | nil => exact ⟨rfl, rfl⟩
  | cons i is ih => exact ih (clearSlot t i)

/-- The thread of `init_scheluder` runs exactly in its turn. -/
theorem Inv.current (h : Inv M s pc) {pc' : InitPoint} (hpc : s.thread = .init pc') :
    s.tasks.currentTask = 0 ∧ pc' = pc := by
  have hthread := h.thread.symm.trans hpc
  unfold owner at hthread
  split_ifs at hthread with h0
  exact ⟨h0, (Thread.init.inj hthread).symm⟩

theorem effect_frames : (effect M s pc).frames = s.frames := by
  cases pc <;> simp only [effect]

theorem effect_ticks : (effect M s pc).ticks = s.ticks := by
  cases pc <;> simp only [effect]

/-- What waits for its turn goes on waiting, where a statement leaves its context. -/
theorem Inv.waits (h : Inv M s pc) (hcur : s.tasks.currentTask = 0) {j : ℕ} (hj : j < pc.stored)
    (hne : j ≠ 0) (hcontext : (effect M s pc).tasks.context j = s.tasks.context j) :
    (initStep M s pc).Waiting pc.next j := by
  have hwait := h.waiting j hj (hcur ▸ hne)
  refine ⟨?_, ?_⟩
  · calc Startup.resume (effect M s pc).frames ((effect M s pc).tasks.context j)
        = Startup.resume s.frames (s.tasks.context j) := by rw [effect_frames, hcontext]
      _ = owner pc j := hwait.resume
      _ = owner pc.next j := by
          unfold owner
          rw [if_neg hne, if_neg hne]
  · show (effect M s pc).tasks.context j = _ ∨
      ∃ n < (effect M s pc).ticks, (effect M s pc).tasks.context j = _
    rw [hcontext, effect_ticks]
    exact hwait.context

/-- The invariant in the turn of `init_scheluder`. -/
theorem inv_of_current (hvalid : pc.Valid) (hthread : s.thread = .init pc)
    (hcur : s.tasks.currentTask = 0) (hflag : s.interruptFlag = true → pc.Open)
    (hnum : s.tasks.numTasks = pc.counted)
    (hstored : ∀ j, s.stored j = if j < pc.stored then some j else none)
    (hsnapshots : ∀ j < pc.stored, s.tasks.snapshots j = M.pointer j)
    (hslot : pc.InCall → s.slot = pc.stored)
    (hmade : ∀ i, pc.Made i → (s.tasks.process (M.pointer i)).context = .initial i)
    (hwaiting : ∀ j < pc.stored, j ≠ 0 → s.Waiting pc j) : Inv M s pc where
  valid := hvalid
  thread := by rw [hcur]; exact hthread
  flag := hflag
  switched hne := absurd hcur hne
  numTasks := hnum
  stored := hstored
  snapshots := hsnapshots
  slot := hslot
  made := hmade
  waiting j hj hne := hwaiting j hj (hcur ▸ hne)

/-- The point behind a store: the slot and its process are settled. -/
theorem next_store {i : ℕ} (hi : i < 4) :
    (InitPoint.store i).next.stored = i + 1 ∧ (InitPoint.store i).next.counted = i + 1 ∧
      (InitPoint.store i).next.Valid ∧ (InitPoint.store i).next.Open ∧
      ¬ (InitPoint.store i).next.InCall ∧ ∀ j, ¬ (InitPoint.store i).next.Made j := by
  simp only [InitPoint.next]
  split_ifs with h3
  · exact ⟨rfl, rfl, Nat.succ_lt_succ h3, Nat.succ_pos i, id, fun _ => id⟩
  · have hlast : 4 = i + 1 := by omega
    exact ⟨hlast, hlast, trivial, trivial, id, fun _ => id⟩

/-- `snapshots[numTasks] = ...`, to the slot whose address was taken before the call. -/
theorem Inv.store {i : ℕ} (h : Inv M s (.store i)) (hpc : s.thread = .init (.store i)) :
    Inv M (initStep M s (.store i)) (InitPoint.store i).next := by
  have hcur := (h.current hpc).1
  have hi : i < 4 := h.valid
  have hs : s.slot = i := h.slot trivial
  have hsnapshots := h.snapshots
  obtain ⟨hstored', hcounted', hvalid', hopen, hcall, hnot⟩ := next_store hi
  refine inv_of_current hvalid' rfl hcur (fun _ => hopen) (h.numTasks.trans hcounted'.symm) ?_ ?_
    (fun h => absurd h hcall) (fun j h => absurd h (hnot j)) ?_
  · intro j
    rw [hstored']
    show Function.update s.stored s.slot (some i) j = _
    rw [hs, Function.update_apply, h.stored j]
    split_ifs <;> grind [InitPoint.stored]
  · intro j hj
    rw [hstored'] at hj
    show Function.update s.tasks.snapshots s.slot (M.pointer i) j = _
    rw [hs, Function.update_apply]
    split_ifs with heq
    · rw [heq]
    · exact hsnapshots j (by simp only [InitPoint.stored]; omega)
  · intro j hj hne
    rw [hstored'] at hj
    by_cases heq : j = i
    · -- the slot of the new process, whose context is still the one that it starts from
      subst heq
      have hcontext : (effect M s (.store j)).tasks.context j = .initial j := by
        show (s.tasks.process (Function.update s.tasks.snapshots s.slot (M.pointer j) j)).context
          = _
        rw [hs, Function.update_self]
        exact h.made j rfl
      refine ⟨?_, Or.inl hcontext⟩
      show Startup.resume (effect M s (.store j)).frames
        ((effect M s (.store j)).tasks.context j) = _
      rw [hcontext]
      exact (if_neg hne).symm
    · refine h.waits hcur (by simp only [InitPoint.stored]; omega) hne ?_
      show (s.tasks.process (Function.update s.tasks.snapshots s.slot (M.pointer i) j)).context = _
      rw [hs, Function.update_of_ne heq]
      rfl

/-- Each statement of `init_scheluder` keeps the invariant. -/
theorem Inv.initStep (h : Inv M s pc) (hpc : s.thread = .init pc) :
    Inv M (initStep M s pc) pc.next := by
  have hcur := (h.current hpc).1
  have hvalid := h.valid
  have hflag := h.flag
  have hnum := h.numTasks
  have hstored := h.stored
  have hsnapshots := h.snapshots
  have hslot := h.slot
  have hmade := h.made
  have hnone : ∀ {P : ℕ → Prop}, ∀ j < 0, P j := fun j hj => absurd hj (Nat.not_lt_zero j)
  cases pc with
  | deactivate =>
    exact inv_of_current trivial rfl hcur (fun hset => Bool.noConfusion hset) hnum hstored hnone
      False.elim (fun _ => False.elim) hnone
  | allocate =>
    exact inv_of_current trivial rfl hcur hflag hnum hstored hnone False.elim
      (fun _ => False.elim) hnone
  | clear =>
    have hclear := clear_tasks (List.range PROCESS_MAX) s.tasks
    unfold Startup.initStep effect
    generalize (List.range PROCESS_MAX).foldl clearSlot s.tasks = tasks at hclear ⊢
    exact inv_of_current trivial rfl (hclear.1.trans hcur) hflag (hclear.2.trans hnum) hstored hnone
      False.elim (fun _ => False.elim) hnone
  | reset =>
    exact inv_of_current (by decide : 0 < 4) rfl hcur (fun hset => (hflag hset).elim) rfl hstored
      hnone False.elim (fun _ => False.elim) hnone
  | address i =>
    exact inv_of_current hvalid rfl hcur hflag hnum hstored hsnapshots (fun _ => hnum)
      (fun _ => False.elim) (fun j hj hne => h.waits hcur hj hne rfl)
  | cli i =>
    exact inv_of_current hvalid rfl hcur (fun hset => Bool.noConfusion hset) hnum hstored hsnapshots
      (fun _ => hslot trivial) (fun _ => False.elim)
      (fun j hj hne => h.waits hcur hj hne rfl)
  | context i =>
    -- The pointer of the new process is none of those that were stored.
    have hother : ∀ j < i, s.tasks.snapshots j ≠ M.pointer i := by
      intro j hj heq
      rw [hsnapshots j hj] at heq
      have hi : i < 4 := hvalid
      exact absurd (M.distinct j (by omega) i hi heq) (Nat.ne_of_lt hj)
    refine inv_of_current hvalid rfl hcur hflag hnum hstored hsnapshots (fun _ => hslot trivial)
      ?_ (fun j hj hne => h.waits hcur hj hne ?_)
    · rintro _ rfl
      show (Function.update s.tasks.process _ _ _).context = _
      rw [Function.update_self]
    · exact Scheluder.context_setContext_of_ne (hother j hj)
  | count i =>
    exact inv_of_current hvalid rfl hcur hflag (congrArg (· + 1) hnum) hstored hsnapshots
      (fun _ => hslot trivial) hmade (fun j hj hne => h.waits hcur hj hne rfl)
  | sti i =>
    exact inv_of_current hvalid rfl hcur (fun _ => trivial) hnum hstored hsnapshots
      (fun _ => hslot trivial) hmade (fun j hj hne => h.waits hcur hj hne rfl)
  | store i => exact h.store hpc
  | first =>
    exact inv_of_current trivial rfl rfl hflag hnum hstored hsnapshots False.elim
      (fun _ => False.elim) (fun j hj hne => h.waits hcur hj hne rfl)
  | done =>
    exact inv_of_current trivial rfl hcur hflag hnum hstored hsnapshots False.elim
      (fun _ => False.elim) (fun j hj hne => h.waits hcur hj hne rfl)

/-! ## An interrupt -/

/-- Where `init_scheluder` is can be read off the processor and the table. -/
theorem Inv.point (h : Inv M s pc) : s.point = some pc := by
  have hthread := h.thread
  unfold owner at hthread
  unfold Startup.point
  by_cases hcur : s.tasks.currentTask = 0
  · rw [if_pos hcur] at hthread
    rw [hthread]
  · rw [if_neg hcur] at hthread
    have hwait := h.waiting 0 (by have := (h.switched hcur).2; omega) (Ne.symm hcur)
    have hresume : resume s.frames (s.tasks.context 0) = .init pc := hwait.resume
    rcases hwait.context with hcontext | ⟨n, -, hcontext⟩
    · rw [hcontext] at hresume
      cases hresume
    · rw [hcontext] at hresume
      have hframe : s.frames n = .init pc := hresume
      rw [hthread, hcontext]
      dsimp only
      rw [hframe]

theorem Inv.empty (h : Inv M s pc) {j : ℕ} (hj : pc.stored ≤ j) : s.stored j = none := by
  rw [h.stored, if_neg (Nat.not_lt.mpr hj)]

/-- A sound interrupt is not before `idt_deactivate`, and does not have the turn come to a slot that
is not stored. -/
theorem Inv.settled_of_sound (h : Inv M s pc) (hsound : s.Sound) : s.Settled := by
  unfold Settled
  rw [h.point]
  cases pc with
  | deactivate =>
    obtain ⟨i, hi⟩ := hsound.current
    rw [h.empty (Nat.zero_le _)] at hi
    cases hi
  | store i =>
    show (s.tasks.currentTask + 1) % s.tasks.numTasks ≠ i
    intro hturn
    obtain ⟨j, hj⟩ := hsound.next
    rw [hturn, h.empty (Nat.le_refl i)] at hj
    cases hj
  | _ => trivial

/-- The slots that an interrupt uses are stored, where `init_scheluder` has settled. -/
theorem Inv.turn (h : Inv M s pc) (hflag : s.interruptFlag = true) (hsettled : s.Settled) :
    s.tasks.currentTask < pc.stored ∧
      (s.tasks.currentTask + 1) % s.tasks.numTasks < pc.stored := by
  have hopen := h.flag hflag
  have hcur : s.tasks.currentTask ≠ 0 → s.tasks.currentTask < pc.stored :=
    fun hne => (h.switched hne).2
  unfold Settled at hsettled
  rw [h.point] at hsettled
  by_cases hstore : ∃ i, pc = .store i
  · obtain ⟨i, rfl⟩ := hstore
    have hturn : (s.tasks.currentTask + 1) % s.tasks.numTasks ≠ i := hsettled
    have hnum : s.tasks.numTasks = i + 1 := h.numTasks
    have hmod := Nat.mod_lt (s.tasks.currentTask + 1) (Nat.succ_pos i)
    rw [hnum] at hturn ⊢
    have hlt : (s.tasks.currentTask + 1) % (i + 1) < i :=
      Nat.lt_of_le_of_ne (Nat.le_of_lt_succ hmod) hturn
    refine ⟨?_, hlt⟩
    show s.tasks.currentTask < i
    by_cases h0 : s.tasks.currentTask = 0
    · omega
    · exact hcur h0
  · have hcount := InitPoint.counted_eq hopen (fun i hi => hstore ⟨i, hi⟩)
    have hpos : 0 < pc.stored := by
      cases pc with
      | deactivate => exact hsettled.elim
      | store i => exact absurd ⟨i, rfl⟩ hstore
      | address i => exact hopen
      | cli i => exact hopen
      | first => exact Nat.succ_pos 3
      | done => exact Nat.succ_pos 3
      | _ => exact hopen.elim
    rw [h.numTasks, hcount]
    refine ⟨?_, Nat.mod_lt _ hpos⟩
    by_cases h0 : s.tasks.currentTask = 0
    · omega
    · exact hcur h0

/-- What an interrupt leaves in the table, where the slot of the current task is stored. -/
theorem Inv.schelude (h : Inv M s pc) (hcur : s.tasks.currentTask < pc.stored) :
    ∃ tasks, s.tasks.schelude (.saved s.ticks) = some (tasks.context tasks.currentTask, tasks) ∧
      tasks.snapshots = s.tasks.snapshots ∧ tasks.numTasks = s.tasks.numTasks ∧
      tasks.currentTask = (s.tasks.currentTask + 1) % s.tasks.numTasks ∧
      (∀ j < pc.stored, tasks.context j =
        if j = s.tasks.currentTask then .saved s.ticks else s.tasks.context j) ∧
      ∀ i, pc.Made i → (tasks.process (M.pointer i)).context = .initial i := by
  have hle := InitPoint.stored_le_counted pc
  have hnum : s.tasks.numTasks ≠ 0 := by
    rw [h.numTasks]
    omega
  obtain ⟨tasks, hschelude, hsnapshots, hnumTasks, hturn, hprocess⟩ :=
    Scheluder.schelude_spec (c := .saved s.ticks) hnum
  have hfour := InitPoint.stored_le h.valid
  refine ⟨tasks, hschelude, hsnapshots, hnumTasks, hturn, fun j hj => ?_, fun i hmade => ?_⟩
  · -- two slots that are stored are the same pointer only if they are of the same call
    have hsame : s.tasks.snapshots j = s.tasks.current ↔ j = s.tasks.currentTask := by
      unfold Scheluder.current
      rw [h.snapshots j hj, h.snapshots _ hcur]
      exact ⟨M.distinct j (by omega) _ (by omega), fun heq => congrArg M.pointer heq⟩
    unfold Scheluder.context
    rw [hsnapshots, hprocess]
    exact if_congr hsame rfl rfl
  · have hother : M.pointer i ≠ s.tasks.current := by
      unfold Scheluder.current
      rw [h.snapshots _ hcur]
      intro heq
      obtain ⟨hi, hlt⟩ := InitPoint.made_eq h.valid hmade
      have := M.distinct i hlt _ (by omega) heq
      omega
    rw [hprocess, if_neg hother]
    exact h.made i hmade

/-- Such an interrupt is sound, and keeps the invariant. -/
theorem Inv.tick (h : Inv M s pc) (hflag : s.interruptFlag = true) (hsettled : s.Settled) :
    s.Sound ∧ Inv M s.tick pc := by
  obtain ⟨hcur, hnext⟩ := h.turn hflag hsettled
  obtain ⟨tasks, hschelude, hsnapshots, hnum, hturn, hcontext, hmade⟩ := h.schelude hcur
  have hstored : ∀ j < pc.stored, s.stored j = some j := fun j hj => by
    rw [h.stored, if_pos hj]
  -- Each slot has a context that its thread goes on from, the interrupted one included.
  have hwaiting : ∀ j < pc.stored,
      resume (Function.update s.frames s.ticks s.thread) (tasks.context j) = owner pc j ∧
        (tasks.context j = .initial j ∨ ∃ n < s.ticks + 1, tasks.context j = .saved n) := by
    intro j hj
    rw [hcontext j hj]
    by_cases hj' : j = s.tasks.currentTask
    · rw [if_pos hj']
      refine ⟨?_, Or.inr ⟨s.ticks, Nat.lt_succ_self _, rfl⟩⟩
      calc resume (Function.update s.frames s.ticks s.thread) (.saved s.ticks)
          = s.thread := Function.update_self ..
        _ = owner pc j := by rw [hj', h.thread]
    · rw [if_neg hj']
      have hwait := h.waiting j hj hj'
      rcases hwait.context with hinitial | ⟨n, hn, hsaved⟩
      · refine ⟨?_, Or.inl hinitial⟩
        rw [← hwait.resume, hinitial]
        rfl
      · refine ⟨?_, Or.inr ⟨n, Nat.lt_succ_of_lt hn, hsaved⟩⟩
        rw [← hwait.resume, hsaved]
        exact Function.update_of_ne (Nat.ne_of_lt hn) ..
  obtain ⟨hresume, hreturned⟩ := hwaiting tasks.currentTask (hturn ▸ hnext)
  have howner : owner pc tasks.currentTask ≠ .lost := by
    unfold owner
    split_ifs <;> exact Thread.noConfusion
  have htick : s.tick =
      { s with
        thread := owner pc tasks.currentTask
        interruptFlag := true
        tasks := tasks
        frames := Function.update s.frames s.ticks s.thread
        ticks := s.ticks + 1 } := by
    unfold Startup.tick
    rw [hschelude]
    dsimp only
    rw [hresume, decide_eq_true howner]
  refine ⟨⟨⟨_, hstored _ hcur⟩, ⟨_, hstored _ hnext⟩, _, _, hschelude, ?_⟩, ?_⟩
  · rcases hreturned with hinitial | ⟨n, hn, hsaved⟩
    · exact Or.inl ⟨_, _, hstored _ (hturn ▸ hnext), hinitial⟩
    · exact Or.inr ⟨n, Nat.le_of_lt_succ hn, hsaved⟩
  · rw [htick]
    exact
      { valid := h.valid
        thread := rfl
        flag := fun _ => h.flag hflag
        switched := fun _ => ⟨rfl, hturn ▸ hnext⟩
        numTasks := hnum.trans h.numTasks
        stored := h.stored
        snapshots := fun j hj => (congrFun hsnapshots j).trans (h.snapshots j hj)
        slot := h.slot
        made := hmade
        waiting := fun j hj _ => ⟨(hwaiting j hj).1, (hwaiting j hj).2⟩ }

/-- The invariant, wherever `init_scheluder` is. -/
def Reached (M : Memory) (s : Startup) : Prop := ∃ pc, Inv M s pc

/-- A run from the call of `init_scheluder` on is safe exactly when each timer interrupt of it comes
behind `idt_deactivate` and, between a `sti` and the store behind it, does not have the turn come to
the process that is to be stored. -/
theorem safe_iff_settled (hstart : s.Started) (hrun : Run (Step M) s ts s') :
    Safe ts ↔ ∀ x ∈ ts, x.label = .tick → x.pre.Settled := by
  have h0 : Reached M s := ⟨_, hstart.inv⟩
  have hiff : ∀ s a t, Reached M s → Step M s a t →
      ((a = .tick → s.Sound) ↔ (a = .tick → s.Settled)) := by
    rintro s a t ⟨pc, h⟩ hstep
    cases hstep with
    | init hpc => exact iff_of_true Event.noConfusion Event.noConfusion
    | tick hflag =>
      exact ⟨fun hsound _ => h.settled_of_sound (hsound rfl),
        fun hsettled _ => (h.tick hflag (hsettled rfl)).1⟩
  have hkeep : ∀ s a t, Reached M s → Step M s a t → (a = .tick → s.Sound) → Reached M t := by
    rintro s a t ⟨pc, h⟩ hstep hsound
    cases hstep with
    | init hpc =>
      obtain ⟨-, rfl⟩ := h.current hpc
      exact ⟨_, h.initStep hpc⟩
    | tick hflag => exact ⟨pc, (h.tick hflag (h.settled_of_sound (hsound rfl))).2⟩
  exact hrun.forall_iff (P := fun x => x.label = .tick → x.pre.Sound)
    (G := fun s a => a = .tick → s.Settled) h0 hiff hkeep

/-! ## Concrete runs -/

/-- Memory that reads as zero, and four processes. -/
def zeroMemory : Memory := ⟨fun _ => 0, fun i => 0x1000 * (i + 1), by omega⟩

/-- The call of `init_scheluder`. -/
def called : Startup where
  thread := .init .deactivate
  interruptFlag := false
  tasks := ⟨fun _ => 0, fun _ => ⟨.READY, .null⟩, 0, 0⟩
  frames := fun _ => .lost
  ticks := 0
  slot := 0
  stored := fun _ => none

theorem started_called : called.Started := ⟨rfl, rfl, rfl, rfl, fun _ => rfl⟩

/-- One event, where it can happen. -/
def event (s : Startup) : Event → Option Startup
  | .init =>
    match s.thread with
    | .init pc => some (initStep zeroMemory s pc)
    | _ => none
  | .tick => if s.interruptFlag then some s.tick else none

/-- The events one after the other, with their transitions. -/
def play : List Event → Startup → Option (List (Transition Startup Event) × Startup)
  | [], s => some ([], s)
  | e :: es, s => do
    let t ← s.event e
    let (ts, u) ← play es t
    some (⟨s, e, t⟩ :: ts, u)

theorem step_event {e : Event} {t : Startup} (h : s.event e = some t) :
    Step zeroMemory s e t := by
  unfold event at h
  cases e with
  | init =>
    dsimp only at h
    split at h
    · cases h
      exact .init ‹_›
    · cases h
  | tick =>
    dsimp only at h
    split_ifs at h with hflag
    cases h
    exact .tick hflag

theorem run_play {es : List Event} (h : play es s = some (ts, s')) :
    Run (Step zeroMemory) s ts s' := by
  induction es generalizing s ts with
  | nil =>
    cases h
    exact .nil _
  | cons e es ih =>
    obtain ⟨t, ht, h⟩ := Option.bind_eq_some_iff.mp h
    obtain ⟨⟨us, u⟩, hrest, h⟩ := Option.bind_eq_some_iff.mp h
    cases h
    exact .cons (step_event ht) (ih hrest)

/-- So many statements. -/
def inits (n : ℕ) : List Event := List.replicate n .init

/-- An interrupt right behind the first `sti`: one task is counted, and none is stored. -/
theorem not_safe_at_sti : ∃ ts s, called.Started ∧ Run (Step zeroMemory) called ts s ∧
    (∃ x ∈ ts, x.label = .tick ∧ x.pre.thread = .init (.store 0) ∧
      x.pre.stored x.pre.tasks.currentTask = none) ∧ ¬ Safe ts := by
  have hsome : (play (inits 9 ++ [.tick]) called).isSome = true := by decide +kernel
  obtain ⟨⟨ts, s⟩, hplay⟩ := Option.isSome_iff_exists.mp hsome
  have hlast : (play (inits 9 ++ [.tick]) called).any (fun r => r.1.any fun x =>
      x.label = .tick ∧ x.pre.thread = .init (.store 0) ∧
        x.pre.stored x.pre.tasks.currentTask = none) = true := by
    decide +kernel
  rw [hplay] at hlast
  obtain ⟨x, hx, hlabel⟩ := List.any_eq_true.mp hlast
  obtain ⟨htick, hthread, hempty⟩ := of_decide_eq_true hlabel
  refine ⟨ts, s, started_called, run_play hplay, ⟨x, hx, htick, hthread, hempty⟩, fun hsafe => ?_⟩
  obtain ⟨i, hi⟩ := (hsafe x hx htick).current
  rw [hempty] at hi
  cases hi

/-- An interrupt with one process stored, two with two of them, and five behind the end. -/
def switching : List Event :=
  inits 10 ++ [.tick] ++ inits 6 ++ [.tick, .tick] ++ inits 13 ++
    [.tick, .tick, .tick, .tick, .tick]

/-- These interrupts are sound: `init_scheluder` comes to its end, and the processes take turns. -/
theorem safe_switching : ∃ ts s, Run (Step zeroMemory) called ts s ∧
    (ts.filter fun x => x.label = .tick).length = 8 ∧ s.thread = .process 1 ∧
    s.point = some .done ∧ Safe ts := by
  have hsome : (play switching called).isSome = true := by decide +kernel
  obtain ⟨⟨ts, s⟩, hplay⟩ := Option.isSome_iff_exists.mp hsome
  have hevents : (play switching called).any (fun r =>
      (r.1.filter fun x => x.label = .tick).length = 8 ∧ r.2.thread = .process 1 ∧
        r.2.point = some .done) = true := by
    decide +kernel
  have hsettled : (play switching called).all (fun r => r.1.all fun x =>
      x.label = .tick → x.pre.Settled) = true := by
    decide +kernel
  rw [hplay] at hevents hsettled
  obtain ⟨hticks, hthread, hpoint⟩ := of_decide_eq_true hevents
  have hrun := run_play hplay
  refine ⟨ts, s, hrun, hticks, hthread, hpoint, (safe_iff_settled started_called hrun).mpr ?_⟩
  exact fun x hx => of_decide_eq_true (List.all_eq_true.mp hsettled x hx)

end Startup

end Potatos
