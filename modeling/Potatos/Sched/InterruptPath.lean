import Potatos.Sched.DescriptorTable

/-!
# An interrupt from the gate to `iretq`

What becomes of an interrupt or an exception of any vector: the processor finds the gate, the
routine of the gate pushes a `cpu_status`, `interrupt_dispatch` does what the vector asks for, and
the `cpu_status` that it returns is resumed. An exception is the end, and so is a vector that
`init_idt` has set no gate for, which the processor reports as a general protection fault. The timer
resumes the context that `schelude` returns, and the other two the code that was interrupted
(`interrupt_path`).

The code that `interrupt_dispatch` calls leaves the memory as it likes, but for the `cpu_status`
that it was given. What it prints is left out.
-/

namespace Potatos.Idt

open Lib Stub

def PIC_EOI : BitVec 8 := 0x20

/-- What `interrupt_dispatch` does, in the order of its statements. -/
inductive Effect where
  | keyboard_driver_irq_handler
  | eoiSlave
  | schelude
  | eoiMaster
  deriving DecidableEq

/-- The statements for an interrupt number that is no exception. -/
def effects (interrupt_number : BitVec 8) : List Effect :=
  (if interrupt_number = 0x21 then [.keyboard_driver_irq_handler] else []) ++
    (if 0x20 + 8 ≤ interrupt_number then [.eoiSlave] else []) ++
    (if interrupt_number = 0x20 then [.schelude] else []) ++ [.eoiMaster]

/-- `interrupt_dispatch`: the context that it returns, the process table, and what it did. It does
not return from an exception, and not from the division by `numTasks` when there is none. -/
def interruptDispatch (tasks : Scheluder (BitVec 64)) (vector_number context : BitVec 64) :
    Option (BitVec 64 × Scheluder (BitVec 64) × List Effect) :=
  let interrupt_number := vector_number.setWidth 8
  if 0x20 ≤ interrupt_number then
    if interrupt_number = 0x20 then
      (tasks.schelude context).map (fun r => (r.1, r.2, effects interrupt_number))
    else some (context, tasks, effects interrupt_number)
  else none

/-- Where the linker put the table and the routines. -/
structure Linked where
  idt : ℕ
  address : Routine → ℕ
  routineAt : ℕ → Option Routine
  address_lt : ∀ e ∈ entries, address e.2 < 2^64
  routineAt_address : ∀ e ∈ entries, routineAt (address e.2) = some e.2

/-- The code that runs, the memory, and the process table, which is beside the memory here. -/
structure State where
  cpu : Interrupted
  mem : Memory64
  tasks : Scheluder (BitVec 64)

/-- The error code that the processor pushes. -/
def pushed (vector : ℕ) (error_code : BitVec 64) : Option (BitVec 64) :=
  if pushesErrorCode vector then some error_code else none

/-- The memory by number. -/
def bytes (m : Memory64) : ByteMemory := fun a => m (BitVec.ofNat 64 a)

namespace Linked

variable (l : Linked)

/-- The table is as `init_idt` left it. -/
def Loaded (m : Memory64) : Prop :=
  ∃ m₀, ∀ x, l.idt ≤ x → x < l.idt + 4096 → bytes m x = initIdt m₀ l.idt l.address x

/-- The entry of `interrupt_dispatch` for a vector, if it has a gate. -/
def enter (s : State) (vector : ℕ) (error_code ret : BitVec 64) : Option Processor :=
  (gate (bytes s.mem) (loadIdt l.idt) vector).bind (fun g =>
    (l.routineAt g.handler).map (fun r =>
      let p := (deliver s.cpu s.mem (pushed vector error_code)).run r.code
      p.withStack (p.stack.push ret)))

/-- What becomes of the state, with what `interrupt_dispatch` did, or `none` if it does not
return. -/
inductive Handles : State → ℕ → BitVec 64 → Option (State × List Effect) → Prop where
  /-- A vector without a gate is a general protection fault. -/
  | fault {s : State} {vector : ℕ} {error_code ret e : BitVec 64}
      {o : Option (State × List Effect)} :
      l.enter s vector error_code ret = none → Handles s 13 e o → Handles s vector error_code o
  | halt {s : State} {vector : ℕ} {error_code ret : BitVec 64} {d : Processor} :
      l.enter s vector error_code ret = some d →
      interruptDispatch s.tasks (readCpuStatus d.mem (d.regs .rdi)).vector_number (d.regs .rdi) =
        none →
      Handles s vector error_code none
  | resume {s : State} {vector : ℕ} {error_code ret context : BitVec 64} {d p : Processor}
      {tasks : Scheluder (BitVec 64)} {done : List Effect} :
      l.enter s vector error_code ret = some d →
      interruptDispatch s.tasks (readCpuStatus d.mem (d.regs .rdi)).vector_number (d.regs .rdi) =
        some (context, tasks, done) →
      p.regs .rax = context →
      readCpuStatus p.mem (d.regs .rdi) = readCpuStatus d.mem (d.regs .rdi) →
      Handles s vector error_code (some (⟨iretq (p.run afterDispatch), p.mem, tasks⟩, done))

end Linked

variable {l : Linked} {s : State} {v : ℕ} {e ret : BitVec 64} {d : Processor}
  {o : Option (State × List Effect)}

namespace Linked

/-- The gates of the table. -/
theorem Loaded.gate (h : l.Loaded s.mem) (hv : v < IDT_SIZE) :
    gate (bytes s.mem) (loadIdt l.idt) v =
      (entries.lookup v).map (fun r => gateOf (l.address r)) := by
  obtain ⟨m₀, hm⟩ := h
  unfold IDT_SIZE at hv
  have hcongr : Idt.gate (bytes s.mem) (loadIdt l.idt) v =
      Idt.gate (initIdt m₀ l.idt l.address) (loadIdt l.idt) v := by
    refine gate_congr (fun x h1 h2 => hm x ?_ ?_)
    · exact le_trans (Nat.le_add_right ..) h1
    · have hbase : (loadIdt l.idt).base = l.idt := rfl
      rw [hbase] at h2
      omega
  rw [hcongr, gate_of_entries l.address_lt hv]

theorem mem_of_lookup {r : Routine} (h : entries.lookup v = some r) : (v, r) ∈ entries := by
  obtain ⟨l₁, l₂, hl, -⟩ := List.lookup_eq_some_iff.mp h
  exact hl ▸ List.mem_append_right _ (List.mem_cons_self ..)

/-- The routine is the one for the error code of its vector. -/
theorem lookup_routine {r : Routine} (h : entries.lookup v = some r) :
    r.code = if (pushed v e).isSome then interruptErrRoutine (BitVec.ofNat 64 v)
      else interruptRoutine (BitVec.ofNat 64 v) := by
  have hr : r = if pushesErrorCode v then .err v else .plain v :=
    entries_routine _ (mem_of_lookup h)
  subst hr
  unfold pushed
  split_ifs with hpush hsome hsome
  · rfl
  · exact absurd rfl hsome
  · cases hsome
  · rfl

/-- The routine of a gate enters `interrupt_dispatch` with the `cpu_status` of the interrupted code,
with the error code if the processor pushed one. -/
theorem Loaded.enter (h : l.Loaded s.mem) (hv : v < IDT_SIZE) (ret : BitVec 64) :
    l.enter s v e ret = (entries.lookup v).map (fun _ =>
      atDispatch s.cpu s.mem (BitVec.ofNat 64 v) (pushed v e) ret) := by
  unfold Linked.enter
  rw [h.gate hv]
  cases hlook : entries.lookup v with
  | none => rfl
  | some r =>
    have hhandler : (gateOf (l.address r)).handler = l.address r := rfl
    have hroutine : l.routineAt (l.address r) = some r :=
      l.routineAt_address _ (mem_of_lookup hlook)
    rw [Option.map_some, Option.bind_some, hhandler, hroutine, Option.map_some,
      lookup_routine hlook]
    rfl

/-- What `interrupt_dispatch` is told: the vector, and the interrupted code. -/
theorem Loaded.status (h : l.Loaded s.mem) (hv : v < IDT_SIZE) (hd : l.enter s v e ret = some d) :
    readCpuStatus d.mem (d.regs .rdi) =
      s.cpu.status (BitVec.ofNat 64 v) ((pushed v e).getD 0) := by
  rw [h.enter hv ret] at hd
  obtain ⟨r, -, rfl⟩ := Option.map_eq_some_iff.mp hd
  exact status_atDispatch ..

/-- The interrupt number is the vector. -/
theorem Loaded.dispatch (h : l.Loaded s.mem) (hv : v < IDT_SIZE)
    (hd : l.enter s v e ret = some d) (rdi : BitVec 64) :
    interruptDispatch s.tasks (readCpuStatus d.mem (d.regs .rdi)).vector_number rdi =
      if 0x20 ≤ v then
        if v = 0x20 then (s.tasks.schelude rdi).map (fun r => (r.1, r.2, effects 0x20))
        else some (rdi, s.tasks, effects (BitVec.ofNat 8 v))
      else none := by
  have hnumber : (readCpuStatus d.mem (d.regs .rdi)).vector_number = BitVec.ofNat 64 v := by
    rw [h.status hv hd]
    rfl
  rw [hnumber]
  unfold IDT_SIZE at hv
  have hlow : (BitVec.ofNat 64 v).setWidth 8 = BitVec.ofNat 8 v :=
    BitVec.setWidth_ofNat_of_le (by omega) v
  have hle : (0x20 : BitVec 8) ≤ BitVec.ofNat 8 v ↔ 0x20 ≤ v := by
    rw [BitVec.le_def, BitVec.toNat_ofNat, Nat.mod_eq_of_lt hv]
    rfl
  have heq : BitVec.ofNat 8 v = 0x20 ↔ v = 0x20 := by
    rw [← BitVec.toNat_inj, BitVec.toNat_ofNat, Nat.mod_eq_of_lt hv]
    rfl
  unfold interruptDispatch
  dsimp only
  rw [hlow]
  simp only [hle, heq]
  split_ifs with h1 h2
  · subst h2
    rfl
  · rfl
  · rfl

/-- What there is of an interrupt with a gate. -/
theorem Loaded.handles (h : l.Loaded s.mem) (hv : v < IDT_SIZE)
    (hgate : (entries.lookup v).isSome) (hhandles : l.Handles s v e o) :
    ∃ ret d, l.enter s v e ret = some d ∧
      ((interruptDispatch s.tasks (readCpuStatus d.mem (d.regs .rdi)).vector_number
          (d.regs .rdi) = none ∧ o = none) ∨
        ∃ context tasks done, ∃ p : Processor, interruptDispatch s.tasks
            (readCpuStatus d.mem (d.regs .rdi)).vector_number (d.regs .rdi) =
              some (context, tasks, done) ∧
          p.regs .rax = context ∧
          readCpuStatus p.mem (d.regs .rdi) = readCpuStatus d.mem (d.regs .rdi) ∧
          o = some (⟨iretq (p.run afterDispatch), p.mem, tasks⟩, done)) := by
  cases hhandles with
  | fault hnone _ =>
    rw [h.enter hv, Option.map_eq_none_iff] at hnone
    rw [hnone] at hgate
    cases hgate
  | halt hd hdispatch => exact ⟨_, _, hd, Or.inl ⟨hdispatch, rfl⟩⟩
  | resume hd hdispatch hrax hframe =>
    exact ⟨_, _, hd, Or.inr ⟨_, _, _, _, hdispatch, hrax, hframe, rfl⟩⟩

/-- The vectors with a gate. -/
theorem lookup_range (h : (entries.lookup v).isSome) : v < 0x13 ∨ (0x20 ≤ v ∧ v ≤ 0x22) := by
  obtain ⟨r, hr⟩ := Option.isSome_iff_exists.mp h
  have hall : ∀ x ∈ entries, x.1 < 0x13 ∨ (0x20 ≤ x.1 ∧ x.1 ≤ 0x22) := by decide
  exact hall (v, r) (mem_of_lookup hr)

/-- There is no way back from an exception, and none from a vector without a gate. -/
theorem Loaded.halts (h : l.Loaded s.mem) (hv : v < IDT_SIZE) (hhandles : l.Handles s v e o)
    (hvec : v < 0x20 ∨ 0x22 < v) : o = none := by
  have hexception : ∀ {w e' o'}, w < 0x13 → l.Handles s w e' o' → o' = none := by
    intro w e' o' hw hhandles
    have hgate : (entries.lookup w).isSome := by
      have hall : ∀ w < 0x13, (entries.lookup w).isSome := by decide
      exact hall w hw
    have hw' : w < IDT_SIZE := lt_trans hw (by decide)
    obtain ⟨ret, d, hd, ⟨-, ho⟩ | ⟨_, _, _, _, hdispatch, -⟩⟩ := h.handles hw' hgate hhandles
    · exact ho
    · rw [h.dispatch hw' hd, if_neg (by omega)] at hdispatch
      cases hdispatch
  by_cases hgate : (entries.lookup v).isSome
  · have hrange := lookup_range hgate
    exact hexception (by omega) hhandles
  · -- The fault is an exception.
    cases hhandles with
    | fault _ hfault => exact hexception (by decide) hfault
    | halt _ _ => rfl
    | resume hd _ _ _ =>
      rw [h.enter hv, Option.map_eq_some_iff] at hd
      obtain ⟨r, hr, -⟩ := hd
      rw [hr] at hgate
      exact absurd rfl hgate

/-- The keyboard, and the line that the second controller is on. -/
theorem Loaded.resumes (h : l.Loaded s.mem) (hhandles : l.Handles s v e o)
    (hvec : v = 0x21 ∨ v = 0x22) :
    ∃ mem, o = some (⟨s.cpu, mem, s.tasks⟩, effects (BitVec.ofNat 8 v)) := by
  have hv : v < IDT_SIZE := by
    unfold IDT_SIZE
    omega
  have hgate : (entries.lookup v).isSome := by
    rcases hvec with rfl | rfl <;> decide
  obtain ⟨ret, d, hd, hcases⟩ := h.handles hv hgate hhandles
  have hstatus := h.status hv hd
  have hdispatch := h.dispatch hv hd (d.regs .rdi)
  rw [if_pos (by omega), if_neg (by omega)] at hdispatch
  rcases hcases with ⟨hnone, -⟩ | ⟨context, tasks, done, p, hsome, hrax, hframe, ho⟩
  · rw [hdispatch] at hnone
    cases hnone
  · rw [hdispatch] at hsome
    obtain ⟨hcontext, hrest⟩ := Prod.mk.inj (Option.some.inj hsome)
    obtain ⟨htasks, hdone⟩ := Prod.mk.inj hrest
    have hresumes := resumes_afterDispatch p
    rw [hrax, ← hcontext, hframe, hstatus] at hresumes
    exact ⟨p.mem, by rw [ho, hresumes.eq, ← htasks, ← hdone]⟩

end Linked

/-- What an interrupt does when the timer has come: the context of the interrupted code is stored,
and the one that `schelude` returns goes on. -/
def Switched (s : State) (o : Option (State × List Effect)) : Prop :=
  ∃ rdi : BitVec 64,
    (s.tasks.schelude rdi = none → o = none) ∧
    ∀ context tasks, s.tasks.schelude rdi = some (context, tasks) →
      ∃ s', o = some (s', [.schelude, .eoiMaster]) ∧ s'.tasks = tasks ∧
        readCpuStatus s'.mem rdi = s.cpu.status 0x20 0 ∧
        Resumes (readCpuStatus s'.mem context) s'.cpu

/-- A handler that leaves the memory alone. -/
theorem Linked.Loaded.handles_key (h : l.Loaded s.mem) (hvec : v = 0x21 ∨ v = 0x22) :
    ∃ o, l.Handles s v e o := by
  have hv : v < IDT_SIZE := by
    unfold IDT_SIZE
    omega
  obtain ⟨r, hr⟩ : ∃ r, entries.lookup v = some r := by
    rcases hvec with rfl | rfl
    · exact ⟨_, rfl⟩
    · exact ⟨_, rfl⟩
  have henter := h.enter (e := e) hv 0
  rw [hr, Option.map_some] at henter
  generalize atDispatch s.cpu s.mem (BitVec.ofNat 64 v) (pushed v e) 0 = d at henter
  have hdispatch := h.dispatch hv henter (d.regs .rdi)
  rw [if_pos (by omega), if_neg (by omega)] at hdispatch
  exact ⟨_, .resume (p := ⟨fun _ => d.regs .rdi, d.mem⟩) henter hdispatch rfl rfl⟩

theorem Linked.Loaded.switched (h : l.Loaded s.mem) (hhandles : l.Handles s 0x20 e o) :
    Switched s o := by
  obtain ⟨ret, d, hd, hcases⟩ := h.handles (by decide) (by decide) hhandles
  have hstatus : readCpuStatus d.mem (d.regs .rdi) = s.cpu.status 0x20 0 := h.status (by decide) hd
  have hdispatch := h.dispatch (by decide) hd (d.regs .rdi)
  rw [if_pos (le_refl _), if_pos rfl] at hdispatch
  refine ⟨d.regs .rdi, fun hnone => ?_, fun context' tasks' hs => ?_⟩
  · rw [hnone, Option.map_none] at hdispatch
    rcases hcases with ⟨-, ho⟩ | ⟨context, tasks, done, p, hsome, -⟩
    · exact ho
    · rw [hdispatch] at hsome
      cases hsome
  · rw [hs, Option.map_some] at hdispatch
    rcases hcases with ⟨hnone, -⟩ | ⟨context, tasks, done, p, hsome, hrax, hframe, ho⟩
    · rw [hdispatch] at hnone
      cases hnone
    · rw [hdispatch] at hsome
      obtain ⟨hcontext, hrest⟩ := Prod.mk.inj (Option.some.inj hsome)
      obtain ⟨htasks, hdone⟩ := Prod.mk.inj hrest
      have hresumes := resumes_afterDispatch p
      rw [hrax, ← hcontext] at hresumes
      have htimer : effects 0x20 = [.schelude, .eoiMaster] := by decide
      refine ⟨⟨iretq (p.run afterDispatch), p.mem, tasks⟩, ?_, htasks.symm,
        hframe.trans hstatus, hresumes⟩
      rw [ho, ← hdone, htimer]

/-- An exception, and a vector without a gate, is the end. The keyboard and the third line of the
controller are acknowledged once, and the interrupted code goes on as it was. The timer switches to
the context that `schelude` returns, with the interrupted code in its `cpu_status`. -/
theorem interrupt_path (l : Linked) (s : State) (hidt : l.Loaded s.mem) (v : ℕ)
    (hv : v < IDT_SIZE) (e : BitVec 64) (o : Option (State × List Effect))
    (h : l.Handles s v e o) :
    (v < 0x20 ∨ 0x22 < v → o = none) ∧
    (v = 0x21 ∨ v = 0x22 → ∃ mem, o = some (⟨s.cpu, mem, s.tasks⟩, effects (BitVec.ofNat 8 v)) ∧
      (effects (BitVec.ofNat 8 v)).count .eoiMaster = 1 ∧ .eoiSlave ∉ effects (BitVec.ofNat 8 v)) ∧
    (v = 0x20 → Switched s o) := by
  refine ⟨hidt.halts hv h, fun hvec => ?_, fun htimer => ?_⟩
  · obtain ⟨mem, ho⟩ := hidt.resumes h hvec
    refine ⟨mem, ho, ?_, ?_⟩
    · rcases hvec with rfl | rfl <;> decide
    · rcases hvec with rfl | rfl <;> decide
  · subst htimer
    exact hidt.switched h

/-- The routines from 1 MiB of the kernel's addresses on, and the table at 2 MiB. -/
def sampleLinked : Linked where
  idt := 0x200000
  address := routinesFrom 0xFFFFFFFF80100000
  routineAt a := (entries.find? (fun e => routinesFrom 0xFFFFFFFF80100000 e.2 == a)).map Prod.snd
  address_lt := by decide
  routineAt_address := by decide

/-- A state with the table, an empty memory otherwise, and any code. -/
def sampleState (i : Interrupted) : State where
  cpu := i
  mem a := initIdt (fun _ => 0) sampleLinked.idt sampleLinked.address a.toNat
  tasks := ⟨id, fun _ => ⟨.READY, 0⟩, 0, 1⟩

theorem sampleState_loaded (i : Interrupted) : sampleLinked.Loaded (sampleState i).mem := by
  refine ⟨fun _ => 0, fun x _ hx => ?_⟩
  have hidt : sampleLinked.idt = 0x200000 := rfl
  have hnat : (BitVec.ofNat 64 x).toNat = x := by
    rw [BitVec.toNat_ofNat]
    exact Nat.mod_eq_of_lt (by omega)
  show initIdt (fun _ => 0) sampleLinked.idt sampleLinked.address (BitVec.ofNat 64 x).toNat = _
  rw [hnat]

/-- A key, while some code runs. -/
theorem interrupt_path_key : ∃ (i : Interrupted) (o : Option (State × List Effect)),
    sampleLinked.Handles (sampleState i) 0x21 0 o ∧
    (0x21 < 0x20 ∨ 0x22 < 0x21 → o = none) ∧
    (0x21 = 0x21 ∨ 0x21 = 0x22 → ∃ mem, o = some (⟨(sampleState i).cpu, mem, (sampleState i).tasks⟩,
        effects (BitVec.ofNat 8 0x21)) ∧
      (effects (BitVec.ofNat 8 0x21)).count .eoiMaster = 1 ∧
      .eoiSlave ∉ effects (BitVec.ofNat 8 0x21)) ∧
    (0x21 = 0x20 → Switched (sampleState i) o) := by
  have hidt := sampleState_loaded ⟨fun _ => 0x80, 0xFFFFFFFF80101000, 8, 0x202, 0x10⟩
  obtain ⟨o, ho⟩ := hidt.handles_key (e := 0) (Or.inl rfl)
  exact ⟨_, o, ho, interrupt_path _ _ hidt 0x21 (by decide) 0 o ho⟩

end Potatos.Idt
