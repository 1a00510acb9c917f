import Mathlib.Logic.Relation
import Potatos.Sched.InterruptPath
import Potatos.Sched.RoundRobin

/-!
# The tasks share the processor

What an interrupt does to a task that it comes to: nothing, but below the stack pointer of the task
and in memory that the task shares. So the kernel, with its one processor and one memory, runs the
tasks as if each had a machine of its own, and the timer only says whose turn it is
(`Represents.simulates`).

A task has bytes of its own, its stack among them, and there is memory that they all may use, that
of the console for one. Its code is left open: in a step it uses these bytes only, and leaves room
on its stack (`Task.Confined`). The process table is beside the memory here, and in it in
`OneMemory.lean`.

An interrupt is taken as a whole, as in `interrupt_path`. Before the acknowledgement no other one is
taken (`serviced_in_turn`), but between it and `iretq` one could be, and would do harm
(`not_always_own`).
-/

namespace Potatos.Stub

open Lib

variable {i j : Interrupted} {m m' : Memory64} {c vector ret : BitVec 64}
  {error_code : Option (BitVec 64)}

/-! ## Where the stub writes -/

/-- The stack pointer that the processor aligns. -/
theorem align_le (a : BitVec 64) :
    (a &&& ~~~(15 : BitVec 64)).toNat ≤ a.toNat ∧
      a.toNat ≤ (a &&& ~~~(15 : BitVec 64)).toNat + 15 := by
  have hbits : ∀ k < 64, (15 : BitVec 64).getLsbD k = decide (k < 4) := by decide
  have hmask : a &&& ~~~(15 : BitVec 64) = a >>> 4 <<< 4 := by
    apply BitVec.eq_of_getLsbD_eq
    intro k hk
    rw [BitVec.getLsbD_and, BitVec.getLsbD_not, hbits k hk, BitVec.getLsbD_shiftLeft,
      BitVec.getLsbD_ushiftRight]
    by_cases hlow : k < 4
    · simp [hlow]
    · simp [hlow, hk, Nat.add_sub_cancel' (Nat.le_of_not_lt hlow)]
  have hlt := a.isLt
  rw [hmask, BitVec.toNat_shiftLeft, BitVec.toNat_ushiftRight, Nat.shiftRight_eq_div_pow,
    Nat.shiftLeft_eq]
  omega

/-- The stack at the entry of `interrupt_dispatch`. -/
theorem atDispatch_stack (i : Interrupted) (m : Memory64) (vector : BitVec 64)
    (error_code : Option (BitVec 64)) (ret : BitVec 64) :
    (atDispatch i m vector error_code ret).stack =
      (i.frame m vector (error_code.getD 0)).push ret := by
  unfold atDispatch
  dsimp only
  rw [Processor.withStack_stack, run_stub]
  rfl

/-- The bytes that an interrupt needs below the stack pointer: the alignment, the `cpu_status`, and
the return address of the call. -/
def interruptRoom : ℕ := 15 + 8 * (frameWords + 1)

/-- The `cpu_status` and the return address are below the stack pointer of the interrupted code, and
nothing else is written. -/
theorem atDispatch_below (m : Memory64) (vector : BitVec 64) (error_code : Option (BitVec 64))
    (ret : BitVec 64) (hroom : interruptRoom ≤ (i.regs .rsp).toNat) :
    (i.regs .rsp).toNat ≤
        ((atDispatch i m vector error_code ret).regs .rsp).toNat + interruptRoom ∧
      ((atDispatch i m vector error_code ret).regs .rdi).toNat =
        ((atDispatch i m vector error_code ret).regs .rsp).toNat + 8 ∧
      ((atDispatch i m vector error_code ret).regs .rdi).toNat + 176 ≤ (i.regs .rsp).toNat ∧
      ∀ x, x.toNat < ((atDispatch i m vector error_code ret).regs .rsp).toNat ∨
        (i.regs .rsp).toNat ≤ x.toNat → (atDispatch i m vector error_code ret).mem x = m x := by
  obtain ⟨hmem, hrdi⟩ := atDispatch_spec i m vector error_code ret
  have hsp : (atDispatch i m vector error_code ret).regs .rsp =
      ((i.frame m vector (error_code.getD 0)).push ret).sp :=
    congrArg WordStack.sp (atDispatch_stack i m vector error_code ret)
  have hneeds : interruptRoom = 199 := rfl
  obtain ⟨hle, hge⟩ := align_le (i.regs .rsp)
  -- The words are pushed from the aligned stack pointer on.
  have hlen : (i.words vector (error_code.getD 0)).length = 22 := words_length
  have hwords : 8 * (i.words vector (error_code.getD 0)).length ≤
      (i.regs .rsp &&& ~~~(15 : BitVec 64)).toNat := by
    rw [hlen]
    omega
  obtain ⟨hframe, hout⟩ :=
    WordStack.pushAll_spec (s := ⟨i.regs .rsp &&& ~~~(15 : BitVec 64), m⟩) hwords
  rw [hlen] at hframe hout
  dsimp only at hframe hout
  obtain ⟨hcall, hout'⟩ := WordStack.push_spec (s := i.frame m vector (error_code.getD 0))
    (v := ret) (by unfold Interrupted.frame; omega)
  have hfsp : (i.frame m vector (error_code.getD 0)).sp.toNat =
      (i.regs .rsp &&& ~~~(15 : BitVec 64)).toNat - 8 * 22 := hframe
  rw [hsp, hrdi, hcall, hfsp]
  refine ⟨by omega, by omega, by omega, fun x hx => ?_⟩
  rw [hmem, hout' x (by omega)]
  exact hout x (by omega)

/-! ## `cpu_status` -/

theorem load64_congr (h : ∀ k < 8, m' (c + BitVec.ofNat 64 k) = m (c + BitVec.ofNat 64 k)) :
    load64 m' c = load64 m c := by
  have hload : load 8 (m'.behind c) 0 = load 8 (m.behind c) 0 :=
    load_congr (fun k _ hk => h k (by omega))
  rw [load64, hload, load64]

/-- A `cpu_status` is its 176 bytes. -/
theorem readCpuStatus_congr
    (h : ∀ k < 176, m' (c + BitVec.ofNat 64 k) = m (c + BitVec.ofNat 64 k)) :
    readCpuStatus m' c = readCpuStatus m c := by
  have hfield : ∀ k < 22, load64 m' (c + BitVec.ofNat 64 (8 * k)) =
      load64 m (c + BitVec.ofNat 64 (8 * k)) := by
    intro k hk
    refine load64_congr (fun n hn => ?_)
    rw [BitVec.add_assoc, ← BitVec.ofNat_add]
    exact h (8 * k + n) (by omega)
  unfold readCpuStatus
  simp only [hfield, Nat.reduceLT]

/-- A `cpu_status` resumes one state. -/
theorem Resumes.unique {s : CpuStatus} (h : Resumes s i) (h' : Resumes s j) : i = j := by
  apply Interrupted.ext
  · exact funext (fun r => (h.regs r).trans (h'.regs r).symm)
  · exact h.rip.trans h'.rip.symm
  · exact h.cs.trans h'.cs.symm
  · exact h.rflags.trans h'.rflags.symm
  · exact h.ss.trans h'.ss.symm

theorem resumes_status {e : BitVec 64} : Resumes (i.status vector e) i := by
  have hselector : ∀ x : BitVec 16, x = (x.setWidth 64).setWidth 16 := by
    intro x
    rw [BitVec.setWidth_setWidth_of_le _ (by omega), BitVec.setWidth_eq]
  exact ⟨fun _ => status_reg.symm, rfl, hselector i.cs, rfl, hselector i.ss⟩

end Potatos.Stub

namespace Potatos.Idt

open Lib Stub

/-! ## Tasks -/

/-- A task: its own bytes, how far down its stack goes, and what its code can do in a step. -/
structure Task where
  own : BitVec 64 → Prop
  bottom : ℕ
  step : Interrupted → Memory64 → Interrupted → Memory64 → Prop

namespace Task

variable (t : Task) (shares : BitVec 64 → Prop)

/-- The part of its stack that is below the stack pointer. -/
def Below (c : Interrupted) (x : BitVec 64) : Prop :=
  t.bottom ≤ x.toNat ∧ x.toNat < (c.regs .rsp).toNat

/-- There is room on its stack for an interrupt. -/
structure Room (c : Interrupted) : Prop where
  room : t.bottom + interruptRoom ≤ (c.regs .rsp).toNat
  stack : ∀ x, t.Below c x → t.own x

/-- A step on a machine of its own, on which the shared bytes and those below its stack pointer may
be others by now. -/
def Alone (x y : Interrupted × Memory64) : Prop :=
  ∃ m, (∀ a, ¬ shares a → ¬ t.Below x.1 a → m a = x.2 a) ∧ t.step x.1 m y.1 y.2

/-- Its code uses its own bytes and the shared ones, and always leaves room on its stack. -/
structure Confined : Prop where
  writes : ∀ {c m c' m'}, t.step c m c' m' → ∀ x, ¬ t.own x → ¬ shares x → m' x = m x
  reads : ∀ {c m c' m' m₁}, t.step c m c' m' → (∀ x, t.own x ∨ shares x → m₁ x = m x) →
    ∃ m₁', t.step c m₁ c' m₁' ∧ ∀ x, t.own x ∨ shares x → m₁' x = m' x
  room : ∀ {c m c' m'}, t.Room c → t.step c m c' m' → t.Room c'

end Task

/-- The tasks on machines of their own, the memory that they share, and whose turn it is. -/
structure Machines where
  machine : ℕ → Interrupted × Memory64
  common : Memory64
  turn : ℕ

/-- A step of the task whose turn it is, or an interrupt. -/
inductive Happening where
  | step
  | interrupt (vector : ℕ)

section Sharing

variable (l : Linked) (shares : BitVec 64 → Prop) (task : ℕ → Task) (n : ℕ)

/-- A task makes a step on its own machine, on which only bytes below its stack pointer may have
changed. An interrupt may change the shared memory, and the timer passes the turn on. -/
inductive Machines.Step : Machines → Happening → Machines → Prop where
  | step {a : Machines} {m m' : Memory64} {c' : Interrupted} :
      (∀ x, shares x → m x = a.common x) →
      (∀ x, ¬ shares x → ¬ (task a.turn).Below (a.machine a.turn).1 x →
        m x = (a.machine a.turn).2 x) →
      (task a.turn).step (a.machine a.turn).1 m c' m' →
      Step a .step ⟨Function.update a.machine a.turn (c', m'), m', a.turn⟩
  | timer {a : Machines} {common : Memory64} :
      Step a (.interrupt 0x20) ⟨a.machine, common, (a.turn + 1) % n⟩
  | other {a : Machines} {common : Memory64} {vector : ℕ} :
      vector ≠ 0x20 → Step a (.interrupt vector) ⟨a.machine, common, a.turn⟩

/-- The bytes of the interrupt descriptor table. -/
def Linked.InTable (x : BitVec 64) : Prop :=
  ∃ k, l.idt ≤ k ∧ k < l.idt + 4096 ∧ x = BitVec.ofNat 64 k

/-- What a handler leaves alone: the table, and the bytes of the tasks, but for the stack that it
runs on below where it was entered. -/
def Leaves (s : State) (d p : Processor) : Prop :=
  ∀ x, (l.InTable x ∨ ∃ j < n, (task j).own x ∧
    ¬ (j = s.tasks.currentTask ∧ (task j).bottom ≤ x.toNat ∧ x.toNat < (d.regs .rsp).toNat)) →
      p.mem x = d.mem x

/-- The kernel: the current task makes a step, or an interrupt comes and is handled. -/
inductive SystemStep : State → Happening → State → Prop where
  | step {s : State} {c' : Interrupted} {m' : Memory64} :
      (task s.tasks.currentTask).step s.cpu s.mem c' m' → SystemStep s .step ⟨c', m', s.tasks⟩
  | interrupt {s : State} {vector : ℕ} {ret context : BitVec 64} {d p : Processor}
      {tasks : Scheluder (BitVec 64)} {done : List Effect} :
      s.cpu.rflags.getLsbD 9 = true → vector < IDT_SIZE →
      l.enter s vector 0 ret = some d →
      interruptDispatch s.tasks (readCpuStatus d.mem (d.regs .rdi)).vector_number (d.regs .rdi) =
        some (context, tasks, done) →
      p.regs .rax = context → Leaves l task n s d p →
      SystemStep s (.interrupt vector) ⟨iretq (p.run afterDispatch), p.mem, tasks⟩

/-- The bytes of the tasks, the shared ones and the table are apart. -/
structure Apart : Prop where
  own : ∀ i < n, ∀ j < n, ∀ x, (task i).own x → (task j).own x → i = j
  shared : ∀ j < n, ∀ x, (task j).own x → ¬ shares x
  table : ∀ x, l.InTable x → ¬ shares x ∧ ∀ j < n, ¬ (task j).own x

/-- The kernel is where the machines are: the processor is that of the machine whose turn it is, and
the others wait with a `cpu_status` in their own bytes. -/
structure Represents (s : State) (a : Machines) : Prop where
  tasks : s.tasks.numTasks = n ∧ s.tasks.currentTask = a.turn ∧ a.turn < n
  distinct : s.tasks.Distinct
  loaded : l.Loaded s.mem
  running : (a.machine a.turn).1 = s.cpu
  waiting : ∀ j < n, j ≠ a.turn →
    Resumes (readCpuStatus s.mem (s.tasks.context j)) (a.machine j).1 ∧
      ∀ k < 176, (task j).own (s.tasks.context j + BitVec.ofNat 64 k)
  memory : ∀ j < n, ∀ x, (task j).own x → ¬ (task j).Below (a.machine j).1 x →
    s.mem x = (a.machine j).2 x
  common : ∀ x, shares x → s.mem x = a.common x
  room : ∀ j < n, (task j).Room (a.machine j).1

end Sharing

variable {l : Linked} {shares : BitVec 64 → Prop} {task : ℕ → Task} {n v : ℕ} {s s' : State}
  {a : Machines} {m m' : Memory64} {c' : Interrupted} {ret context : BitVec 64} {d p : Processor}
  {tasks : Scheluder (BitVec 64)} {done : List Effect} {o : Happening}

theorem Linked.Loaded.congr (h : l.Loaded m) (hsame : ∀ x, l.InTable x → m' x = m x) :
    l.Loaded m' := by
  obtain ⟨m₀, hm⟩ := h
  exact ⟨m₀, fun x hlo hhi => (hsame _ ⟨x, hlo, hhi, rfl⟩).trans (hm x hlo hhi)⟩

/-! ## A step of a task -/

/-- The task makes the same step on its own machine. -/
theorem Represents.step (hapart : Apart l shares task n)
    (hconfined : ∀ j < n, (task j).Confined shares) (h : Represents l shares task n s a)
    (hstep : (task s.tasks.currentTask).step s.cpu s.mem c' m') :
    ∃ a', Machines.Step shares task n a .step a' ∧
      Represents l shares task n ⟨c', m', s.tasks⟩ a' := by
  classical
  obtain ⟨hn, hturn, hlt⟩ := h.tasks
  have hcode := hconfined a.turn hlt
  rw [hturn, ← h.running] at hstep
  -- Its own machine has the bytes that it can see, and may have others below the stack pointer.
  obtain ⟨m₁, hm₁⟩ : ∃ m₁ : Memory64, ∀ x, m₁ x =
      if (task a.turn).own x ∨ shares x then s.mem x else (a.machine a.turn).2 x :=
    ⟨fun x => if (task a.turn).own x ∨ shares x then s.mem x else (a.machine a.turn).2 x,
      fun _ => rfl⟩
  obtain ⟨m₁', hstep₁, hsame⟩ :=
    hcode.reads hstep (fun x hx => (hm₁ x).trans (if_pos hx))
  have hkept : ∀ x, ¬ (task a.turn).own x → ¬ shares x → m' x = s.mem x :=
    fun x => hcode.writes hstep x
  have hothers : ∀ j < n, j ≠ a.turn → ∀ x, (task j).own x → m' x = s.mem x := by
    intro j hj hne x hx
    exact hkept x (fun hx' => hne (hapart.own j hj a.turn hlt x hx hx')) (hapart.shared j hj x hx)
  refine ⟨_, .step (fun x hx => ?_) (fun x hx hbelow => ?_) hstep₁, ?_⟩
  · rw [hm₁, if_pos (Or.inr hx)]
    exact h.common x hx
  · rw [hm₁]
    split_ifs with hown
    · exact h.memory a.turn hlt x (hown.resolve_right hx) hbelow
    · rfl
  · refine ⟨⟨hn, hturn, hlt⟩, h.distinct, h.loaded.congr (fun x hx => ?_), ?_, fun j hj hne => ?_,
      fun j hj x hx hbelow => ?_, fun x hx => (hsame x (Or.inr hx)).symm, fun j hj => ?_⟩
    · obtain ⟨hshared, hown⟩ := hapart.table x hx
      exact hkept x (hown a.turn hlt) hshared
    · show (Function.update a.machine a.turn (c', m₁') a.turn).1 = c'
      rw [Function.update_self]
    · -- The others wait as they did.
      obtain ⟨hresumes, hframe⟩ := h.waiting j hj hne
      have hstatus : readCpuStatus m' (s.tasks.context j) =
          readCpuStatus s.mem (s.tasks.context j) :=
        readCpuStatus_congr (fun k hk => hothers j hj hne _ (hframe k hk))
      show Resumes (readCpuStatus m' (s.tasks.context j))
        (Function.update a.machine a.turn (c', m₁') j).1 ∧ _
      rw [hstatus, Function.update_of_ne hne]
      exact ⟨hresumes, hframe⟩
    · show m' x = (Function.update a.machine a.turn (c', m₁') j).2 x
      by_cases hne : j = a.turn
      · subst hne
        rw [Function.update_self]
        exact (hsame x (Or.inl hx)).symm
      · dsimp only at hbelow
        rw [Function.update_of_ne hne] at hbelow ⊢
        exact (hothers j hj hne x hx).trans (h.memory j hj x hx hbelow)
    · show (task j).Room (Function.update a.machine a.turn (c', m₁') j).1
      by_cases hne : j = a.turn
      · subst hne
        rw [Function.update_self]
        exact hcode.room (h.room _ hlt) hstep
      · rw [Function.update_of_ne hne]
        exact h.room j hj

/-! ## An interrupt -/

/-- At the entry of `interrupt_dispatch` only bytes below the stack pointer of the interrupted task
have changed. The `cpu_status` is among them. -/
theorem Represents.entered (h : Represents l shares task n s a) (hv : v < IDT_SIZE)
    (henter : l.enter s v 0 ret = some d) :
    (task a.turn).bottom ≤ (d.regs .rsp).toNat ∧
      (d.regs .rdi).toNat = (d.regs .rsp).toNat + 8 ∧
      (d.regs .rdi).toNat + 176 ≤ (s.cpu.regs .rsp).toNat ∧
      ∀ x, ¬ (task a.turn).Below s.cpu x → d.mem x = s.mem x := by
  obtain ⟨-, -, hlt⟩ := h.tasks
  obtain ⟨hroom, -⟩ := h.running ▸ h.room a.turn hlt
  rw [h.loaded.enter hv] at henter
  obtain ⟨r, -, hd⟩ := Option.map_eq_some_iff.mp henter
  obtain ⟨hlow, hrdi, hhigh, hout⟩ := atDispatch_below s.mem (BitVec.ofNat 64 v) (pushed v 0) ret
    (by omega : interruptRoom ≤ (s.cpu.regs .rsp).toNat)
  rw [hd] at hlow hrdi hhigh hout
  refine ⟨by omega, hrdi, hhigh, fun x hbelow => hout x ?_⟩
  unfold Task.Below at hbelow
  omega

/-- A handler leaves the tasks as they were, but for the stack below the stack pointer of the one
that was interrupted, where its `cpu_status` is. -/
theorem Represents.handled (hapart : Apart l shares task n) (h : Represents l shares task n s a)
    (hv : v < IDT_SIZE) (henter : l.enter s v 0 ret = some d) (hleaves : Leaves l task n s d p) :
    (∀ x, (l.InTable x ∨ ∃ j < n, (task j).own x ∧
        ¬ (j = a.turn ∧ (task j).Below s.cpu x)) → p.mem x = s.mem x) ∧
      readCpuStatus p.mem (d.regs .rdi) = readCpuStatus d.mem (d.regs .rdi) ∧
      readCpuStatus p.mem (d.regs .rdi) =
        s.cpu.status (BitVec.ofNat 64 v) ((pushed v 0).getD 0) ∧
      ∀ k < 176, (task a.turn).own (d.regs .rdi + BitVec.ofNat 64 k) := by
  obtain ⟨hn, hturn, hlt⟩ := h.tasks
  obtain ⟨-, hstack⟩ := h.running ▸ h.room a.turn hlt
  have hstatus := h.loaded.status hv henter
  obtain ⟨hbottom, hrdi, hhigh, hout⟩ := h.entered hv henter
  -- The bytes of the frame.
  have hframe : ∀ k < 176, (d.regs .rdi + BitVec.ofNat 64 k).toNat = (d.regs .rdi).toNat + k := by
    intro k hk
    have hbound := (s.cpu.regs .rsp).isLt
    rw [BitVec.toNat_add, BitVec.toNat_ofNat]
    omega
  have hown : ∀ k < 176, (task a.turn).own (d.regs .rdi + BitVec.ofNat 64 k) := by
    intro k hk
    have haddr := hframe k hk
    exact hstack _ ⟨by omega, by omega⟩
  have hsame : readCpuStatus p.mem (d.regs .rdi) = readCpuStatus d.mem (d.regs .rdi) := by
    refine readCpuStatus_congr (fun k hk => ?_)
    have haddr := hframe k hk
    refine hleaves _ (Or.inr ⟨a.turn, hlt, hown k hk, fun hin => ?_⟩)
    omega
  refine ⟨fun x hx => ?_, hsame, hsame.trans hstatus, hown⟩
  have hbelow : ¬ (task a.turn).Below s.cpu x := by
    intro hbelow
    have hmine := hstack x hbelow
    rcases hx with htable | ⟨j, hj, hjown, hnot⟩
    · exact (hapart.table x htable).2 a.turn hlt hmine
    · obtain rfl := hapart.own j hj a.turn hlt x hjown hmine
      exact hnot ⟨rfl, hbelow⟩
  refine (hleaves x (hx.imp id ?_)).trans (hout x hbelow)
  rintro ⟨j, hj, hjown, hnot⟩
  refine ⟨j, hj, hjown, ?_⟩
  rintro ⟨rfl, hlo, hhi⟩
  exact hnot ⟨hturn, hlo, by omega⟩

/-- With the frame of the interrupt for the current task, all tasks wait. -/
theorem Represents.waits (hapart : Apart l shares task n) (h : Represents l shares task n s a)
    (hv : v < IDT_SIZE) (henter : l.enter s v 0 ret = some d) (hleaves : Leaves l task n s d p)
    {j : ℕ} (hj : j < n) :
    Resumes (readCpuStatus p.mem (if j = a.turn then d.regs .rdi else s.tasks.context j))
        (a.machine j).1 ∧
      ∀ k < 176, (task j).own
        ((if j = a.turn then d.regs .rdi else s.tasks.context j) + BitVec.ofNat 64 k) := by
  obtain ⟨hkept, -, hstatus, hown⟩ := h.handled hapart hv henter hleaves
  by_cases hne : j = a.turn
  · subst hne
    rw [if_pos rfl, hstatus, h.running]
    exact ⟨resumes_status, hown⟩
  · obtain ⟨hresumes, hframe⟩ := h.waiting j hj hne
    have hsame : readCpuStatus p.mem (s.tasks.context j) =
        readCpuStatus s.mem (s.tasks.context j) :=
      readCpuStatus_congr (fun k hk =>
        hkept _ (Or.inr ⟨j, hj, hframe k hk, fun hturn => hne hturn.1⟩))
    rw [if_neg hne, hsame]
    exact ⟨hresumes, hframe⟩

/-- The machines are as they were when the handler is done, whoever goes on. -/
theorem Represents.resumed {turn : ℕ} {cpu : Interrupted} (hapart : Apart l shares task n)
    (h : Represents l shares task n s a) (hv : v < IDT_SIZE)
    (henter : l.enter s v 0 ret = some d) (hleaves : Leaves l task n s d p)
    (htasks : tasks.numTasks = n ∧ tasks.currentTask = turn ∧ turn < n) (hdist : tasks.Distinct)
    (hcontext : ∀ j < n, j ≠ turn →
      tasks.context j = if j = a.turn then d.regs .rdi else s.tasks.context j)
    (hcpu : (a.machine turn).1 = cpu) :
    Represents l shares task n ⟨cpu, p.mem, tasks⟩ ⟨a.machine, p.mem, turn⟩ := by
  obtain ⟨hkept, -⟩ := h.handled hapart hv henter hleaves
  refine ⟨htasks, hdist, h.loaded.congr (fun x hx => hkept x (Or.inl hx)), hcpu,
    fun j hj hne => ?_, fun j hj x hx hbelow => ?_, fun _ _ => rfl, h.room⟩
  · show Resumes (readCpuStatus p.mem (tasks.context j)) (a.machine j).1 ∧
      ∀ k < 176, (task j).own (tasks.context j + BitVec.ofNat 64 k)
    rw [hcontext j hj hne]
    exact h.waits hapart hv henter hleaves hj
  · show p.mem x = (a.machine j).2 x
    refine (hkept x (Or.inr ⟨j, hj, hx, ?_⟩)).trans (h.memory j hj x hx hbelow)
    rintro ⟨rfl, hbelow'⟩
    rw [← h.running] at hbelow'
    exact hbelow hbelow'

/-- An interrupt passes the turn on, if it is the timer, and is not seen otherwise. -/
theorem Represents.interrupt (hapart : Apart l shares task n) (h : Represents l shares task n s a)
    (hv : v < IDT_SIZE) (henter : l.enter s v 0 ret = some d)
    (hdispatch : interruptDispatch s.tasks (readCpuStatus d.mem (d.regs .rdi)).vector_number
      (d.regs .rdi) = some (context, tasks, done))
    (hrax : p.regs .rax = context) (hleaves : Leaves l task n s d p) :
    ∃ a', Machines.Step shares task n a (.interrupt v) a' ∧
      Represents l shares task n ⟨iretq (p.run afterDispatch), p.mem, tasks⟩ a' := by
  obtain ⟨hn, hturn, hlt⟩ := h.tasks
  have hresumes := resumes_afterDispatch p
  rw [hrax] at hresumes
  rw [h.loaded.dispatch hv henter] at hdispatch
  split_ifs at hdispatch with hexception htimer
  · -- The timer.
    subst htimer
    obtain ⟨t, htick, hticked⟩ : ∃ t, s.tasks.tick (d.regs .rdi) =
        some (t.context t.currentTask, t) ∧ s.tasks.Ticked (d.regs .rdi) t :=
      Scheluder.tick_spec h.distinct (by omega)
    have hschelude : s.tasks.schelude (d.regs .rdi) = some (t.context t.currentTask, t) := htick
    rw [hschelude, Option.map_some] at hdispatch
    obtain ⟨rfl, hrest⟩ := Prod.mk.inj (Option.some.inj hdispatch)
    obtain ⟨rfl, -⟩ := Prod.mk.inj hrest
    have hnext : t.currentTask = (a.turn + 1) % n := by rw [hticked.currentTask, hturn, hn]
    have hnextlt : (a.turn + 1) % n < n := Nat.mod_lt _ (by omega)
    have hcontext : ∀ j < n,
        t.context j = if j = a.turn then d.regs .rdi else s.tasks.context j := by
      intro j hj
      rw [← hturn]
      exact hticked.context j (by omega)
    have hdist : t.Distinct := by
      unfold Scheluder.Distinct
      rw [hticked.snapshots, hticked.numTasks]
      exact h.distinct
    refine ⟨⟨a.machine, p.mem, (a.turn + 1) % n⟩, .timer, h.resumed hapart hv henter hleaves
      ⟨hticked.numTasks.trans hn, hnext, hnextlt⟩ hdist (fun j hj _ => hcontext j hj) ?_⟩
    obtain ⟨hwaits, -⟩ := h.waits hapart hv henter hleaves hnextlt
    rw [← hcontext _ hnextlt, ← hnext] at hwaits
    rw [← hnext]
    exact hwaits.unique hresumes
  · obtain ⟨rfl, hrest⟩ := Prod.mk.inj (Option.some.inj hdispatch)
    obtain ⟨rfl, -⟩ := Prod.mk.inj hrest
    obtain ⟨-, -, hstatus, -⟩ := h.handled hapart hv henter hleaves
    rw [hstatus] at hresumes
    refine ⟨⟨a.machine, p.mem, a.turn⟩, .other htimer, h.resumed hapart hv henter hleaves
      ⟨hn, hturn, hlt⟩ h.distinct (fun j _ hne => (if_neg hne).symm) ?_⟩
    exact h.running.trans hresumes.eq.symm

/-- It is an interrupt from the gate to `iretq`. -/
theorem Represents.handles (hapart : Apart l shares task n) (h : Represents l shares task n s a)
    (hstep : SystemStep l task n s (.interrupt v) s') :
    ∃ done, l.Handles s v 0 (some (s', done)) := by
  cases hstep with
  | interrupt _ hv henter hdispatch hrax hleaves =>
    obtain ⟨-, hsame, -⟩ := h.handled hapart hv henter hleaves
    exact ⟨_, .resume henter hdispatch hrax hsame⟩

/-! ## Any order of steps and interrupts -/

theorem Represents.simulates (hapart : Apart l shares task n)
    (hconfined : ∀ j < n, (task j).Confined shares) (h : Represents l shares task n s a)
    (hstep : SystemStep l task n s o s') :
    ∃ a', Machines.Step shares task n a o a' ∧ Represents l shares task n s' a' := by
  cases hstep with
  | step hcode => exact h.step hapart hconfined hcode
  | interrupt _ hv henter hdispatch hrax hleaves =>
    exact h.interrupt hapart hv henter hdispatch hrax hleaves

/-- What happens to one of the machines is a step of its task or nothing. -/
theorem Machines.Step.alone {a' : Machines} (h : Machines.Step shares task n a o a') (j : ℕ) :
    a'.machine j = a.machine j ∨ (task j).Alone shares (a.machine j) (a'.machine j) := by
  cases h with
  | @step m m' c' _ hsame hcode =>
    by_cases hj : j = a.turn
    · subst hj
      refine Or.inr ⟨m, hsame, ?_⟩
      dsimp only
      rw [Function.update_self]
      exact hcode
    · exact Or.inl (Function.update_of_ne hj ..)
  | timer => exact Or.inl rfl
  | other _ => exact Or.inl rfl

/-- On its own machine a task makes its own steps and nothing else happens. -/
theorem Machines.alone {a' : Machines} {us : List (Transition Machines Happening)}
    (h : Run (Machines.Step shares task n) a us a') (j : ℕ) :
    Relation.ReflTransGen ((task j).Alone shares) (a.machine j) (a'.machine j) := by
  have hkeep : ∀ b o b',
      Relation.ReflTransGen ((task j).Alone shares) (a.machine j) (b.machine j) →
      Machines.Step shares task n b o b' →
      Relation.ReflTransGen ((task j).Alone shares) (a.machine j) (b'.machine j) := by
    intro b o b' hb hstep
    rcases hstep.alone j with hsame | halone
    · rw [hsame]
      exact hb
    · exact hb.tail halone
  exact h.invariant_all .refl hkeep

end Potatos.Idt
