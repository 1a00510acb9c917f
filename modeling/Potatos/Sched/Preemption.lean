import Potatos.Sched.Interrupt

/-!
# Whose stack a context is on

`schelude` stores the frame of the interrupted code as the context of `currentTask`. That is right
as long as the processor is on the stack of `currentTask` when the interrupt comes. Between the
`EOI` and `mov rsp, rax` it is not: `currentTask` names the next task already, the flag is set, and
the stub is still on the stack of the one before (`not_always_own`). And from there to the `iretq`
of a task that starts, the stack pointer is in its record on the heap.

An interrupt anywhere else (`Quiet`) is harmless, also in the middle of `restore_context`. What
keeps it so is that a task that waits has, on its own stack, a frame of code that can run there
again, which may itself be on its way through such a frame (`Ready`).
-/

namespace Potatos

open Lib

/-- The words that are popped of the frame that this code is restoring. -/
def Point.popped : Point → Option ℕ
  | .restore popped => if popped ≤ 15 then some popped else none
  | .iretq => some 17
  | _ => none

/-- Code that can run on the stack of the task: its own, or the rest of the stub on a frame of such
code that is below it. -/
inductive Ready (m : Stacks Stack Cpu) (i : ℕ) : Cpu → Prop where
  | task {depth : ℕ} : Ready m i ⟨.task, true, ⟨.own i, depth⟩⟩
  | frame {pc : Point} {n top : ℕ} {F : Cpu} :
      pc.popped = some n → Holds frameWords m (.own i) top n F → F.rsp.depth ≤ top → Ready m i F →
      Ready m i ⟨pc, true, ⟨.own i, top + frameWords - n⟩⟩

/-- A frame of an interrupt, on the stack of the task. -/
def OwnFrame (m : Stacks Stack Cpu) (i : ℕ) (p : StackPtr) : Prop :=
  ∃ F top, p = ⟨.own i, top + frameWords⟩ ∧ Holds frameWords m (.own i) top 0 F

/-- The same, of code that can run there again. -/
def Saved (m : Stacks Stack Cpu) (i : ℕ) (p : StackPtr) : Prop :=
  ∃ F top, p = ⟨.own i, top + frameWords⟩ ∧ Holds frameWords m (.own i) top 0 F ∧
    F.rsp.depth ≤ top ∧ Ready m i F

/-- The context of a task that waits: the record that it starts from, or a frame. -/
def Waiting (m : Stacks Stack Cpu) (i : ℕ) (p : StackPtr) : Prop :=
  p = ⟨.record i, frameWords⟩ ∨ Saved m i p

variable {m m' : Stacks Stack Cpu} {i n : ℕ} {F : Cpu} {p : StackPtr}

theorem popped_le {pc : Point} (h : pc.popped = some n) : n ≤ 17 := by
  cases pc with
  | restore k =>
    unfold Point.popped at h
    dsimp only at h
    split at h
    · obtain rfl := Option.some.inj h
      omega
    · cases h
  | iretq => exact Nat.le_of_eq (Option.some.inj h).symm
  | _ => cases h

theorem Ready.flag (h : Ready m i F) : F.interruptFlag = true := by cases h <;> rfl

theorem Ready.stack (h : Ready m i F) : F.rsp.stack = .own i := by cases h <;> rfl

/-- Such code is the task's own, or the rest of the stub. -/
theorem Ready.pc (h : Ready m i F) : F.pc = .task ∨ ∃ n, F.pc.popped = some n := by
  cases h with
  | task => exact Or.inl rfl
  | frame hpc => exact Or.inr ⟨_, hpc⟩

/-- Code on its way through a frame is on the words of it that are left. -/
theorem Ready.restoring (h : Ready m i F) (hpc : F.pc.popped = some n) :
    ∃ top G, F = ⟨F.pc, true, ⟨.own i, top + frameWords - n⟩⟩ ∧
      Holds frameWords m (.own i) top n G ∧ G.rsp.depth ≤ top ∧ Ready m i G := by
  cases h with
  | task => cases hpc
  | frame hpc' hholds htop hready =>
    obtain rfl := Option.some.inj (hpc.symm.trans hpc')
    exact ⟨_, _, rfl, hholds, htop, hready⟩

/-- Code that can run needs only the words in front of its stack pointer. -/
theorem Ready.congr (h : Ready m i F) (hsame : ∀ x ≤ F.rsp.depth, m' (.own i) x = m (.own i) x) :
    Ready m' i F := by
  induction h with
  | task => exact .task
  | @frame pc n top F hpc hholds htop _ ih =>
    have hn := popped_le hpc
    have hwords : frameWords = 22 := rfl
    dsimp only at hsame
    refine .frame hpc (hholds.congr (fun x hx => hsame x (by omega))) htop ?_
    exact ih (fun x hx => hsame x (by omega))

theorem Saved.own (h : Saved m i p) : OwnFrame m i p := by
  obtain ⟨F, top, hp, hholds, -, -⟩ := h
  exact ⟨F, top, hp, hholds⟩

/-- A task waits as long as its own stack stays as it is. -/
theorem Waiting.congr (h : Waiting m i p) (hsame : m' (.own i) = m (.own i)) : Waiting m' i p := by
  refine h.imp id (fun ⟨F, top, hp, hholds, htop, hready⟩ => ?_)
  exact ⟨F, top, hp, hholds.congr (fun x _ => congrFun hsame x), htop,
    hready.congr (fun x _ => congrFun hsame x)⟩

namespace Kernel

/-- The task waits that `snapshots[i]` is of. -/
def Waits (k : Kernel) (i : ℕ) : Prop := Waiting k.words i (k.tasks.context i)

/-- Every task waits. -/
def AllWait (k : Kernel) : Prop := ∀ i < k.tasks.numTasks, k.Waits i

/-- Every task waits but `currentTask`. -/
def OthersWait (k : Kernel) : Prop :=
  ∀ i < k.tasks.numTasks, i ≠ k.tasks.currentTask → k.Waits i

/-- The processor runs `currentTask`, or restores it from the record that it starts from. -/
def Runs (k : Kernel) : Prop :=
  Ready k.words k.tasks.currentTask k.cpu ∨ ∃ n, k.cpu.pc.popped = some n ∧
    k.cpu.interruptFlag = true ∧ k.cpu.rsp = ⟨.record k.tasks.currentTask, frameWords - n⟩

/-- The processor is still on the stack of the task before `currentTask`. -/
def Behind (k : Kernel) : Prop :=
  ∃ j < k.tasks.numTasks, k.cpu.rsp.stack = .own j ∧
    k.tasks.currentTask = (j + 1) % k.tasks.numTasks

/-- What holds at each point. -/
def Phase (k : Kernel) : Prop :=
  match k.cpu.pc with
  | .task | .restore _ | .iretq => k.inService = false ∧ k.Runs ∧ k.OthersWait
  | .dispatch => k.cpu.interruptFlag = false ∧ k.inService = true ∧
      k.cpu.rsp.stack = .own k.tasks.currentTask ∧
      Saved k.words k.tasks.currentTask k.cpu.rsp ∧ k.OthersWait
  | .save cur_status => k.cpu.interruptFlag = false ∧ k.inService = true ∧
      k.cpu.rsp.stack = .own k.tasks.currentTask ∧
      Saved k.words k.tasks.currentTask cur_status ∧ k.OthersWait
  | .ready | .next => k.cpu.interruptFlag = false ∧ k.inService = true ∧
      k.cpu.rsp.stack = .own k.tasks.currentTask ∧ k.AllWait
  | .wrap => k.cpu.interruptFlag = false ∧ k.inService = true ∧
      (∃ j < k.tasks.numTasks, k.cpu.rsp.stack = .own j ∧ k.tasks.currentTask = j + 1) ∧ k.AllWait
  | .running | .sti => k.cpu.interruptFlag = false ∧ k.inService = true ∧ k.Behind ∧ k.AllWait
  | .ret => k.cpu.interruptFlag = true ∧ k.inService = true ∧ k.Behind ∧ k.AllWait
  | .eoi context => k.cpu.interruptFlag = true ∧ k.inService = true ∧ k.Behind ∧ k.AllWait ∧
      context = k.tasks.context k.tasks.currentTask
  | .leave context | .movRsp context => k.cpu.interruptFlag = true ∧ k.inService = false ∧
      k.Behind ∧ k.AllWait ∧ context = k.tasks.context k.tasks.currentTask

/-- `currentTask` is a task, but between its increment and the remainder. -/
def InRange (k : Kernel) : Prop := k.cpu.pc = .wrap ∨ k.tasks.currentTask < k.tasks.numTasks

/-- The invariant: the tasks are distinct, the records are as `create_process` made them, and what
holds at the point where the processor is. -/
structure Inv (k : Kernel) : Prop where
  pos : 0 < k.tasks.numTasks
  range : k.InRange
  distinct : ∀ i < k.tasks.numTasks, ∀ j < k.tasks.numTasks,
    k.tasks.snapshots i = k.tasks.snapshots j → i = j
  records : ∀ i, Holds frameWords k.words (.record i) 0 0 (entry i)
  phase : k.Phase

/-- The tasks as `init_scheluder` leaves them: `currentTask` runs, and the others start from their
records. -/
structure Started (k : Kernel) : Prop where
  range : k.tasks.currentTask < k.tasks.numTasks
  distinct : ∀ i < k.tasks.numTasks, ∀ j < k.tasks.numTasks,
    k.tasks.snapshots i = k.tasks.snapshots j → i = j
  records : ∀ i, Holds frameWords k.words (.record i) 0 0 (entry i)
  running : k.cpu.pc = .task ∧ k.cpu.interruptFlag = true ∧
    k.cpu.rsp.stack = .own k.tasks.currentTask
  inService : k.inService = false
  contexts : ∀ i < k.tasks.numTasks, i ≠ k.tasks.currentTask →
    k.tasks.context i = ⟨.record i, frameWords⟩

/-- Every context pointer that is stored is of a frame on the stack of its task. -/
def StoresOwn (ts : List (Transition Kernel Event)) : Prop :=
  ∀ x ∈ ts, ∀ p, x.label = .exec → x.pre.cpu.pc = .save p →
    OwnFrame x.pre.words x.pre.tasks.currentTask p

/-- The condition on a step: no interrupt between the `EOI` and `mov rsp, rax`, and none while the
stack pointer is in a record. -/
def Quiet (k : Kernel) : Event → Prop
  | .interrupt _ => (∀ c, k.cpu.pc ≠ .leave c ∧ k.cpu.pc ≠ .movRsp c) ∧
      ∀ i, k.cpu.rsp.stack ≠ .record i
  | _ => True

variable {k k' : Kernel} {op : Event}

theorem inv_started (h : k.Started) : k.Inv := by
  obtain ⟨hpc, hflag, hstack⟩ := h.running
  obtain ⟨⟨pc, flag, ⟨stack, depth⟩⟩, inService, words, tasks⟩ := k
  dsimp only at hpc hflag hstack
  subst hpc hflag hstack
  have hrange := h.range
  exact ⟨by omega, Or.inr hrange, h.distinct, h.records, h.inService, Or.inl .task,
    fun i hi hne => Or.inl (h.contexts i hi hne)⟩

/-! ## An interrupt -/

/-- `currentTask` is a task, but where `schelude` has only incremented it. -/
theorem Inv.lt (h : k.Inv) (hpc : k.cpu.pc ≠ .wrap) : k.tasks.currentTask < k.tasks.numTasks :=
  h.range.resolve_left hpc

/-- Where a quiet interrupt is taken, `currentTask` runs on its own stack. -/
theorem Inv.runs_of_quiet (h : k.Inv) {depth : ℕ} (hflag : k.cpu.interruptFlag = true)
    (hserv : k.inService = false) (hquiet : k.Quiet (.interrupt depth)) :
    k.tasks.currentTask < k.tasks.numTasks ∧ Ready k.words k.tasks.currentTask k.cpu ∧
      k.OthersWait := by
  have hphase := h.phase
  have hruns : k.cpu.pc ≠ .wrap ∧ k.Runs ∧ k.OthersWait := by
    unfold Phase at hphase
    cases hpc : k.cpu.pc with
    | task | restore | iretq =>
      rw [hpc] at hphase
      exact ⟨by simp, hphase.2⟩
    | leave c => exact absurd hpc (hquiet.1 c).1
    | movRsp c => exact absurd hpc (hquiet.1 c).2
    | ret | eoi =>
      -- The timer interrupt is still in service, so no further one is taken.
      rw [hpc] at hphase
      exact absurd hphase.2.1 (by simp [hserv])
    | _ =>
      rw [hpc] at hphase
      exact absurd hphase.1 (by simp [hflag])
  obtain ⟨hpc, hruns, hothers⟩ := hruns
  refine ⟨h.lt hpc, hruns.resolve_right ?_, hothers⟩
  rintro ⟨n, -, -, hrsp⟩
  exact hquiet.2 k.tasks.currentTask (by rw [hrsp])

/-- What changes on the stack of `currentTask` only leaves the others waiting. -/
theorem OthersWait.congr {words : Stacks Stack Cpu} (h : k.OthersWait)
    (hsame : ∀ t, t ≠ .own k.tasks.currentTask → words t = k.words t) :
    ∀ i < k.tasks.numTasks, i ≠ k.tasks.currentTask → Waiting words i (k.tasks.context i) :=
  fun i hi hne => (h i hi hne).congr (hsame (.own i) (fun heq => hne (Stack.own.inj heq)))

/-- A quiet interrupt saves the task on its own stack. -/
theorem Inv.interrupt (h : k.Inv) {depth : ℕ} (hflag : k.cpu.interruptFlag = true)
    (hserv : k.inService = false) (hdepth : k.cpu.rsp.depth ≤ depth)
    (hquiet : k.Quiet (.interrupt depth)) : (k.interrupt depth).Inv := by
  obtain ⟨hrange, hready, hothers⟩ := h.runs_of_quiet hflag hserv hquiet
  have hstack := hready.stack
  have hsame : ∀ t, t ≠ .own k.tasks.currentTask → (k.interrupt depth).words t = k.words t := by
    intro t ht
    funext x
    exact pushFrame_of_le (Or.inl (by rw [hstack]; exact ht))
  -- The frame is pushed below what the task still uses of its stack.
  have hkeep : Ready (k.interrupt depth).words k.tasks.currentTask k.cpu :=
    hready.congr (fun x hx => pushFrame_of_le (Or.inr (by omega)))
  have hholds : Holds frameWords (k.interrupt depth).words (.own k.tasks.currentTask) depth 0
      k.cpu := by
    rw [← hstack]
    exact holds_pushFrame
  have hsaved : Saved (k.interrupt depth).words k.tasks.currentTask (k.interrupt depth).cpu.rsp :=
    ⟨k.cpu, depth, by unfold Kernel.interrupt; rw [hstack], hholds, hdepth, hkeep⟩
  refine ⟨h.pos, Or.inr hrange, h.distinct, fun i => ?_, rfl, rfl, hstack, hsaved,
    hothers.congr hsame⟩
  have hrecord : (k.interrupt depth).words (.record i) = k.words (.record i) :=
    hsame _ (by simp)
  exact (h.records i).congr (fun x _ => congrFun hrecord x)

/-- A task's code changes its own stack only. -/
theorem Inv.work (h : k.Inv) {words : Stacks Stack Cpu} {depth : ℕ} (hpc : k.cpu.pc = .task)
    (hsame : ∀ t, t ≠ k.cpu.rsp.stack → words t = k.words t) :
    Inv { k with words := words, cpu := { k.cpu with rsp := ⟨k.cpu.rsp.stack, depth⟩ } } := by
  have hphase := h.phase
  have hlt := h.lt (by simp [hpc])
  unfold Phase at hphase
  rw [hpc] at hphase
  obtain ⟨hserv, hruns, hothers⟩ := hphase
  -- The code of a task runs, so the stub is not about to come back to one.
  have hready : Ready k.words k.tasks.currentTask k.cpu := by
    apply hruns.resolve_right
    rintro ⟨n, hpopped, -⟩
    rw [hpc] at hpopped
    cases hpopped
  have hstack := hready.stack
  have hflag := hready.flag
  rw [hstack] at hsame
  have hcpu : (⟨k.cpu.pc, k.cpu.interruptFlag, ⟨k.cpu.rsp.stack, depth⟩⟩ : Cpu) =
      ⟨.task, true, ⟨.own k.tasks.currentTask, depth⟩⟩ := by rw [hpc, hflag, hstack]
  show Inv ⟨⟨k.cpu.pc, k.cpu.interruptFlag, ⟨k.cpu.rsp.stack, depth⟩⟩, k.inService, words, k.tasks⟩
  rw [hcpu]
  refine ⟨h.pos, Or.inr hlt, h.distinct, fun i => ?_, hserv, Or.inl .task,
    hothers.congr hsame⟩
  have hrecord : words (.record i) = k.words (.record i) := hsame _ (by simp)
  exact (h.records i).congr (fun x _ => congrFun hrecord x)

/-! ## The handler -/

/-- Storing the context of `currentTask` leaves every task waiting. -/
theorem OthersWait.save (h : k.OthersWait) (hinv : k.Inv)
    (hrange : k.tasks.currentTask < k.tasks.numTasks) (hp : Saved k.words k.tasks.currentTask p) :
    ∀ i < k.tasks.numTasks,
      Waiting k.words i ((k.tasks.setContext k.tasks.current p).context i) := by
  intro i hi
  by_cases hcur : i = k.tasks.currentTask
  · subst hcur
    have hself : (k.tasks.setContext k.tasks.current p).context k.tasks.currentTask = p :=
      Scheluder.context_setContext_self rfl
    rw [hself]
    exact Or.inr hp
  · have hne : k.tasks.snapshots i ≠ k.tasks.current :=
      fun heq => hcur (hinv.distinct i hi _ hrange heq)
    rw [Scheluder.context_setContext_of_ne hne]
    exact h i hi hcur

/-- Code that can run is at a point where `currentTask` runs. -/
theorem phase_of_ready (hserv : k.inService = false)
    (h : Ready k.words k.tasks.currentTask k.cpu) (hothers : k.OthersWait) : k.Phase := by
  have hpc := h.pc
  unfold Phase
  cases hk : k.cpu.pc with
  | task | restore | iretq => exact ⟨hserv, Or.inl h, hothers⟩
  | _ =>
    rw [hk] at hpc
    rcases hpc with hpc | ⟨n, hpc⟩
    · cases hpc
    · cases hpc

/-- The status of a process does not matter to who waits. -/
theorem AllWait.setStatus (h : k.AllWait) {q : ℕ} {v : Status} :
    AllWait { k with tasks := k.tasks.setStatus q v } := by
  intro i hi
  unfold Waits
  dsimp only
  rw [Scheluder.context_setStatus]
  exact h i hi

/-- A pop on the way through a frame. -/
theorem Runs.pop (h : k.Runs) {pc : Point} {d : ℕ} (hpc : k.cpu.pc.popped = some n)
    (hpc' : pc.popped = some (n + d)) : ((k.pop d).goto pc).Runs := by
  have hn := popped_le hpc'
  have hwords : frameWords = 22 := rfl
  -- The stub restores an interrupt frame, or the first context of a task from its record.
  rcases h with h | ⟨n', hn', hflag, hrsp⟩
  · obtain ⟨top, G, hcpu, hholds, htop, hready⟩ := h.restoring hpc
    have hdepth : top + frameWords - n - d = top + frameWords - (n + d) := by omega
    have hcpu' : ((k.pop d).goto pc).cpu =
        ⟨pc, true, ⟨.own k.tasks.currentTask, top + frameWords - (n + d)⟩⟩ := by
      unfold goto Kernel.pop
      dsimp only
      rw [hcpu, hdepth]
    left
    rw [hcpu']
    exact .frame hpc' (hholds.mono (by omega)) htop hready
  · obtain rfl := Option.some.inj (hpc.symm.trans hn')
    have hdepth : frameWords - n - d = frameWords - (n + d) := by omega
    refine Or.inr ⟨n + d, hpc', hflag, ?_⟩
    unfold goto Kernel.pop
    dsimp only
    rw [hrsp, hdepth]

/-- The `iretq` at the end of a frame goes back to code that can run. -/
theorem Runs.iretq (h : k.Runs)
    (hrecords : ∀ i, Holds frameWords k.words (.record i) 0 0 (entry i))
    (hpc : k.cpu.pc = .iretq) (hframe : k.frameAt 4 5 = some F) :
    Ready k.words k.tasks.currentTask F := by
  have hpopped : k.cpu.pc.popped = some 17 := by rw [hpc]; rfl
  unfold frameAt at hframe
  -- The frame is the interrupted one, or the first one of the task.
  rcases h with h | ⟨n, hn, -, hrsp⟩
  · obtain ⟨top, G, hcpu, hholds, -, hready⟩ := h.restoring hpopped
    rw [hcpu] at hframe
    have hFG : F = G := hholds.popFrame (by decide) hframe
    rw [hFG]
    exact hready
  · obtain rfl := Option.some.inj (hpopped.symm.trans hn)
    rw [hrsp] at hframe
    have hholds := (hrecords k.tasks.currentTask).mono (Nat.zero_le 17)
    have hFG : F = entry k.tasks.currentTask := hholds.popFrame (by decide) hframe
    rw [hFG]
    exact .task

/-- A step that keeps the stacks and the table keeps the invariant where its point does. -/
theorem Inv.of_phase (h : k.Inv) (hwords : k'.words = k.words)
    (hnum : k'.tasks.numTasks = k.tasks.numTasks)
    (hsnapshots : k'.tasks.snapshots = k.tasks.snapshots) (hrange : k'.InRange)
    (hphase : k'.Phase) : k'.Inv :=
  ⟨hnum ▸ h.pos, hrange, hnum ▸ hsnapshots ▸ h.distinct, hwords ▸ h.records, hphase⟩

/-- `mov rsp, rax` switches to the record or the frame that `currentTask` waits with. -/
theorem Inv.movRsp (h : k.Inv) {rax : StackPtr} (hpc : k.cpu.pc = .movRsp rax) :
    Inv { k with cpu := { k.cpu with pc := .restore 0, rsp := rax } } := by
  have hlt := h.lt (by simp [hpc])
  have hphase := h.phase
  unfold Phase at hphase
  rw [hpc] at hphase
  obtain ⟨hflag, hserv, -, hall, rfl⟩ := hphase
  refine h.of_phase rfl rfl rfl (Or.inr hlt) ⟨hserv, ?_, fun i hi _ => hall i hi⟩
  rcases hall _ hlt with hrecord | ⟨F, top, hframe, hholds, htop, hready⟩
  · exact Or.inr ⟨0, rfl, hflag, hrecord⟩
  · left
    show Ready k.words k.tasks.currentTask
      ⟨.restore 0, k.cpu.interruptFlag, k.tasks.context k.tasks.currentTask⟩
    rw [hflag, hframe]
    exact .frame rfl hholds htop hready

/-- `restore_context` pops at most the fifteen registers of a frame. -/
theorem Runs.restore_le (h : k.Runs) {popped : ℕ} (hpc : k.cpu.pc = .restore popped) :
    popped ≤ 15 := by
  obtain ⟨n, hn⟩ : ∃ n, (Point.restore popped).popped = some n := by
    rcases h with hready | ⟨n, hn, -⟩
    · have hpc' := hready.pc
      rw [hpc] at hpc'
      exact hpc'.resolve_left (by simp)
    · exact ⟨n, hpc ▸ hn⟩
  by_contra hgt
  rw [Point.popped, if_neg hgt] at hn
  cases hn

/-- A register, or behind the last one the two words in front of the processor's. -/
theorem Inv.restore (h : k.Inv) {popped : ℕ} (hpc : k.cpu.pc = .restore popped)
    (hexec : k.exec = some k') : k'.Inv := by
  have hlt := h.lt (by simp [hpc])
  have hphase := h.phase
  unfold Phase at hphase
  unfold Kernel.exec at hexec
  rw [hpc] at hphase hexec
  obtain ⟨hserv, hruns, hothers⟩ := hphase
  have hle := hruns.restore_le hpc
  have hpopped : k.cpu.pc.popped = some popped := by rw [hpc]; exact if_pos hle
  dsimp only at hexec
  split at hexec
  · have hnext : (Point.restore (popped + 1)).popped = some (popped + 1) := if_pos (by omega)
    obtain ⟨_, -, rfl⟩ := Option.map_eq_some_iff.mp hexec
    exact h.of_phase rfl rfl rfl (Or.inr hlt) ⟨hserv, hruns.pop hpopped hnext, hothers⟩
  · -- All fifteen are popped, so the two words lead to the `iretq`.
    obtain rfl : popped = 15 := by omega
    obtain ⟨_, -, rfl⟩ := Option.map_eq_some_iff.mp hexec
    exact h.of_phase rfl rfl rfl (Or.inr hlt) ⟨hserv, hruns.pop hpopped rfl, hothers⟩

/-- The `iretq` goes back to the code that the frame was saved of. -/
theorem Inv.iretq (h : k.Inv) (hpc : k.cpu.pc = .iretq) (hframe : k.frameAt 4 5 = some F) :
    Inv { k with cpu := F } := by
  have hphase := h.phase
  unfold Phase at hphase
  rw [hpc] at hphase
  obtain ⟨hserv, hruns, hothers⟩ := hphase
  have hready := hruns.iretq h.records hpc hframe
  exact h.of_phase rfl rfl rfl (Or.inr (h.lt (by simp [hpc])))
    (phase_of_ready hserv hready hothers)

/-- Each instruction and statement of the handler keeps the invariant. -/
theorem Inv.exec (h : k.Inv) (hexec : k.exec = some k') : k'.Inv := by
  have hphase := h.phase
  have hlt := h.lt
  have hexec' := hexec
  unfold Phase at hphase
  unfold Kernel.exec at hexec
  cases hpc : k.cpu.pc with
  | task =>
    rw [hpc] at hexec
    cases hexec
  | dispatch =>
    rw [hpc] at hphase hlt hexec
    obtain rfl := Option.some.inj hexec
    exact h.of_phase rfl rfl rfl (Or.inr (hlt (by simp))) hphase
  | save cur_status =>
    -- The interrupted code is on the stack of `currentTask`, so its frame is `currentTask`'s.
    rw [hpc] at hphase hlt hexec
    obtain rfl := Option.some.inj hexec
    obtain ⟨hflag, hserv, hstack, hsaved, hothers⟩ := hphase
    have hall := hothers.save h (hlt (by simp)) hsaved
    exact h.of_phase rfl rfl rfl (Or.inr (hlt (by simp))) ⟨hflag, hserv, hstack, hall⟩
  | ready =>
    rw [hpc] at hphase hlt hexec
    obtain rfl := Option.some.inj hexec
    obtain ⟨hflag, hserv, hstack, hall⟩ := hphase
    exact h.of_phase rfl rfl rfl (Or.inr (hlt (by simp))) ⟨hflag, hserv, hstack, hall.setStatus⟩
  | next =>
    rw [hpc] at hphase hlt hexec
    obtain rfl := Option.some.inj hexec
    obtain ⟨hflag, hserv, hstack, hall⟩ := hphase
    exact h.of_phase rfl rfl rfl (Or.inl rfl)
      ⟨hflag, hserv, ⟨_, hlt (by simp), hstack, rfl⟩, hall⟩
  | wrap =>
    -- From here on `currentTask` is the task behind the one whose stack the stub is on.
    rw [hpc] at hphase hexec
    obtain ⟨tasks, htasks, rfl⟩ := Option.map_eq_some_iff.mp hexec
    obtain ⟨-, rfl⟩ := Scheluder.wrapTask_eq_some.mp htasks
    obtain ⟨hflag, hserv, ⟨j, hj, hstack, hcur⟩, hall⟩ := hphase
    have hbehind : ∃ j < k.tasks.numTasks, k.cpu.rsp.stack = .own j ∧
        k.tasks.currentTask % k.tasks.numTasks = (j + 1) % k.tasks.numTasks :=
      ⟨j, hj, hstack, by rw [hcur]⟩
    exact h.of_phase rfl rfl rfl (Or.inr (Nat.mod_lt _ h.pos)) ⟨hflag, hserv, hbehind, hall⟩
  | running =>
    rw [hpc] at hphase hlt hexec
    obtain rfl := Option.some.inj hexec
    obtain ⟨hflag, hserv, hbehind, hall⟩ := hphase
    exact h.of_phase rfl rfl rfl (Or.inr (hlt (by simp))) ⟨hflag, hserv, hbehind, hall.setStatus⟩
  | sti =>
    rw [hpc] at hphase hlt hexec
    obtain rfl := Option.some.inj hexec
    obtain ⟨-, hserv, hbehind, hall⟩ := hphase
    exact h.of_phase rfl rfl rfl (Or.inr (hlt (by simp))) ⟨rfl, hserv, hbehind, hall⟩
  | ret =>
    rw [hpc] at hphase hlt hexec
    obtain rfl := Option.some.inj hexec
    obtain ⟨hflag, hserv, hbehind, hall⟩ := hphase
    exact h.of_phase rfl rfl rfl (Or.inr (hlt (by simp))) ⟨hflag, hserv, hbehind, hall, rfl⟩
  | eoi context =>
    rw [hpc] at hphase hlt hexec
    obtain rfl := Option.some.inj hexec
    obtain ⟨hflag, -, hbehind, hall, hcontext⟩ := hphase
    exact h.of_phase rfl rfl rfl (Or.inr (hlt (by simp))) ⟨hflag, rfl, hbehind, hall, hcontext⟩
  | leave context =>
    rw [hpc] at hphase hlt hexec
    obtain rfl := Option.some.inj hexec
    exact h.of_phase rfl rfl rfl (Or.inr (hlt (by simp))) hphase
  | movRsp rax =>
    rw [hpc] at hexec
    obtain rfl := Option.some.inj hexec
    exact h.movRsp hpc
  | restore popped => exact h.restore hpc hexec'
  | iretq =>
    rw [hpc] at hexec
    obtain ⟨F, hframe, rfl⟩ := Option.map_eq_some_iff.mp hexec
    exact h.iretq hpc hframe

/-- Every quiet step keeps the invariant. -/
theorem Inv.step (h : k.Inv) (hquiet : k.Quiet op) (hstep : Step k op k') : k'.Inv := by
  cases hstep with
  | exec hexec => exact h.exec hexec
  | work hpc hsame => exact h.work hpc hsame
  | interrupt hflag hserv hdepth => exact h.interrupt hflag hserv hdepth hquiet

/-- In every run whose interrupts are all quiet, every context pointer that `schelude` stores is of
an interrupt frame on the stack of its task. -/
theorem storesOwn_of_quiet {k₀ : Kernel} {ts : List (Transition Kernel Event)} (hstart : k₀.Started)
    (hrun : Run Step k₀ ts k) (hquiet : ∀ x ∈ ts, x.pre.Quiet x.label) : StoresOwn ts := by
  intro x hx p _ hpc
  have hkeep : ∀ k op k', Inv k → Quiet k op → Step k op k' → Inv k' :=
    fun _ _ _ h hquiet hstep => h.step hquiet hstep
  have hinv : x.pre.Inv := hrun.invariant_pre (inv_started hstart) hquiet hkeep hx
  have hphase := hinv.phase
  unfold Phase at hphase
  rw [hpc] at hphase
  exact hphase.2.2.2.1.own

/-! ## An interrupt in the window -/

/-- An interrupt that is not quiet is taken on the stack of another task, or in a record. -/
theorem Inv.foreign (h : k.Inv) (htasks : 2 ≤ k.tasks.numTasks) {depth : ℕ}
    (hloud : ¬ k.Quiet (.interrupt depth)) :
    k.cpu.rsp.stack ≠ .own k.tasks.currentTask := by
  intro hstack
  -- With two tasks the one behind `currentTask` is another one.
  have hbehind : ¬ k.Behind := by
    rintro ⟨j, hj, hj', hcur⟩
    have hsame : k.tasks.currentTask = j := Stack.own.inj (hstack.symm.trans hj')
    rcases Nat.lt_or_ge (j + 1) k.tasks.numTasks with hlt | hge
    · rw [Nat.mod_eq_of_lt hlt] at hcur
      omega
    · have hlast : j + 1 = k.tasks.numTasks := by omega
      rw [hlast, Nat.mod_self] at hcur
      omega
  have hphase := h.phase
  unfold Phase at hphase
  refine hloud ⟨fun c => ⟨fun hpc => ?_, fun hpc => ?_⟩, fun i hi => ?_⟩
  · rw [hpc] at hphase
    exact hbehind hphase.2.2.1
  · rw [hpc] at hphase
    exact hbehind hphase.2.2.1
  · rw [hstack] at hi
    cases hi

/-- Such an interrupt ends in a store that is not of an own frame. -/
theorem Inv.not_storesOwn (h : k.Inv) (htasks : 2 ≤ k.tasks.numTasks) {depth : ℕ}
    (hflag : k.cpu.interruptFlag = true) (hserv : k.inService = false)
    (hdepth : k.cpu.rsp.depth ≤ depth) (hloud : ¬ k.Quiet (.interrupt depth)) :
    ∃ ts k', Run Step k (⟨k, .interrupt depth, k.interrupt depth⟩ :: ts) k' ∧ ¬ StoresOwn ts := by
  have hrest : Run Step (k.interrupt depth) _ _ := .cons (.exec rfl) (.single (.exec rfl))
  refine ⟨_, _, .cons (.interrupt hflag hserv hdepth) hrest, fun hown => ?_⟩
  obtain ⟨F, top, hp, -⟩ := hown _ (.tail _ (.head _)) _ rfl rfl
  exact h.foreign htasks hloud (congrArg StackPtr.stack hp)

/-- Two tasks, of which the first runs. -/
def twoTasks : Kernel where
  cpu := entry 0
  inService := false
  words := fun t => match t with
    | .own _ => fun _ => none
    | .record i => pushFrame frameWords (fun _ _ => none) (Stack.record i) 0 (entry i) t
  tasks :=
    { snapshots := id
      process := fun i => ⟨.READY, ⟨.record i, frameWords⟩⟩
      currentTask := 0
      numTasks := 2 }

theorem started_twoTasks : twoTasks.Started where
  range := by decide
  distinct := fun _ _ _ _ heq => heq
  records := fun _ => (holds_pushFrame (m := fun _ _ => none)).congr (fun _ _ => rfl)
  running := ⟨rfl, rfl, rfl⟩
  inService := rfl
  contexts := fun _ _ _ => rfl

/-- So many steps of the handler. -/
def execs : ℕ → Kernel → Option Kernel
  | 0, k => some k
  | n + 1, k => k.exec.bind (execs n)

theorem run_of_execs {count : ℕ} (h : execs count k = some k') : ∃ ts, Run Step k ts k' := by
  induction count generalizing k with
  | zero =>
    obtain rfl := Option.some.inj h
    exact ⟨[], .nil k⟩
  | succ count ih =>
    obtain ⟨k₁, hexec, hrest⟩ := Option.bind_eq_some_iff.mp h
    obtain ⟨ts, hts⟩ := ih hrest
    exact ⟨_, .cons (.exec hexec) hts⟩

/-- The handler of a first interrupt, up to the `EOI`. -/
def acknowledged : Kernel := (execs 9 (twoTasks.interrupt 0)).get (by decide +kernel)

/-- The handler of a second one right then, up to where it stores the context. -/
def nested : Kernel := (execs 1 (acknowledged.interrupt 22)).get (by decide +kernel)

/-- The second task is given a frame on the stack of the first. -/
theorem not_always_own :
    ∃ ts k, twoTasks.Started ∧ Run Step twoTasks ts k ∧ ¬ StoresOwn ts := by
  have hacknowledged : execs 9 (twoTasks.interrupt 0) = some acknowledged :=
    (Option.some_get _).symm
  have hnested : execs 1 (acknowledged.interrupt 22) = some nested := (Option.some_get _).symm
  obtain ⟨ts₁, h₁⟩ := run_of_execs hacknowledged
  obtain ⟨ts₂, h₂⟩ := run_of_execs hnested
  have hfirst : Step twoTasks (.interrupt 0) (twoTasks.interrupt 0) :=
    .interrupt rfl rfl (Nat.le_refl 0)
  have hsecond : Step acknowledged (.interrupt 22) (acknowledged.interrupt 22) :=
    .interrupt (by decide +kernel) (by decide +kernel) (by decide +kernel)
  have hpc : nested.cpu.pc = .save ⟨.own 0, 44⟩ := by decide +kernel
  have htask : nested.tasks.currentTask = 1 := by decide +kernel
  have hstore : Step nested .exec (nested.exec.get (by decide +kernel)) :=
    .exec (Option.some_get _).symm
  refine ⟨_, _, started_twoTasks,
    (Run.cons hfirst h₁).append ((Run.cons hsecond h₂).append (.single hstore)), fun hown => ?_⟩
  obtain ⟨F, top, hp, -⟩ := hown ⟨nested, .exec, nested.exec.get (by decide +kernel)⟩ (by simp)
    ⟨.own 0, 44⟩ rfl hpc
  rw [htask] at hp
  cases hp

/-- A first interrupt stores the context of the first task, on its own stack. -/
theorem storesOwn_first : ∃ ts k, Run Step twoTasks ts k ∧
    (∃ x ∈ ts, x.label = .exec ∧ x.pre.cpu.pc = .save ⟨.own 0, 22⟩) ∧ StoresOwn ts := by
  have hfirst : Step twoTasks (.interrupt 0) (twoTasks.interrupt 0) :=
    .interrupt rfl rfl (Nat.le_refl 0)
  have hrun : Run Step twoTasks _ _ := .cons hfirst (.cons (.exec rfl) (.single (.exec rfl)))
  refine ⟨_, _, hrun, ⟨_, .tail _ (.tail _ (.head _)), rfl, rfl⟩,
    storesOwn_of_quiet started_twoTasks hrun ?_⟩
  intro x hx
  simp only [List.mem_cons, List.not_mem_nil, or_false] at hx
  rcases hx with rfl | rfl | rfl
  · exact ⟨fun _ => ⟨Point.noConfusion, Point.noConfusion⟩, fun _ => Stack.noConfusion⟩
  · trivial
  · trivial

end Kernel

end Potatos
