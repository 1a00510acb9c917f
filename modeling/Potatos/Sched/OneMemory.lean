import Potatos.Sched.TableBytes
import Potatos.Sched.TimeSharing

/-!
# The process table is in the memory of the tasks

The kernel of `TimeSharing.lean`, with the process table where it is: in the one memory, where
`schelude` stores contexts and statuses. As long as the bytes of the table are apart from those of
the tasks, from the memory that they share, and from the interrupt descriptor table, every step is
one of the kernel that has its table beside the memory (`MemoryStep.refines`), so that the tasks do
not notice each other (`preemption_invisible`).

The processes of `create_process` do not keep away from the table: their stacks start at the bottom
of their blocks, and grow down into what is below (`runsOnBlock_iff`).
-/

namespace Potatos.Idt

open Lib Stub

/-- The processor, and the memory with the process table in it. -/
structure OneMemory where
  cpu : Interrupted
  mem : Memory64

/-- `interrupt_dispatch` on the memory: the context that it returns, the memory, and what it did. -/
def dispatchBytes (g : Globals) (mem : ByteMemory) (vector_number context : BitVec 64) :
    Option (BitVec 64 × ByteMemory × List Effect) :=
  let interrupt_number := vector_number.setWidth 8
  if 0x20 ≤ interrupt_number then
    if interrupt_number = 0x20 then
      (g.schelude mem context).map (fun r => (r.1, r.2, effects interrupt_number))
    else some (context, mem, effects interrupt_number)
  else none

section Sharing

variable {n : ℕ} (l : Linked) (T : Table n) (shares : BitVec 64 → Prop) (task : ℕ → Task)

/-- The table beside the memory. -/
def OneMemory.state (s : OneMemory) : State := ⟨s.cpu, s.mem, T.table (bytes s.mem)⟩

/-- What a handler leaves alone behind the stores of `schelude`, with which the memory is `mem`: the
descriptor table, the process table, and the bytes of the tasks, but for the stack that it runs on
below where it was entered. -/
def LeavesTable (s : OneMemory) (d p : Processor) (mem : ByteMemory) : Prop :=
  ∀ x, (l.InTable x ∨ T.Byte x.toNat ∨ ∃ j < n, (task j).own x ∧
    ¬ (j = (s.state T).tasks.currentTask ∧ (task j).bottom ≤ x.toNat ∧
      x.toNat < (d.regs .rsp).toNat)) → p.mem x = mem x.toNat

/-- The kernel: the current task makes a step, or an interrupt comes and is handled. -/
inductive MemoryStep : OneMemory → Happening → OneMemory → Prop where
  | step {s : OneMemory} {c' : Interrupted} {m' : Memory64} :
      (task (s.state T).tasks.currentTask).step s.cpu s.mem c' m' → MemoryStep s .step ⟨c', m'⟩
  | interrupt {s : OneMemory} {vector : ℕ} {ret context : BitVec 64} {d p : Processor}
      {mem : ByteMemory} {done : List Effect} :
      s.cpu.rflags.getLsbD 9 = true → vector < IDT_SIZE →
      l.enter (s.state T) vector 0 ret = some d →
      dispatchBytes T.globals (bytes d.mem) (readCpuStatus d.mem (d.regs .rdi)).vector_number
        (d.regs .rdi) = some (context, mem, done) →
      p.regs .rax = context → LeavesTable l T task s d p mem →
      MemoryStep s (.interrupt vector) ⟨iretq (p.run afterDispatch), p.mem⟩

/-- The bytes of the tasks, the shared ones and the two tables are apart. -/
structure TableApart : Prop extends Apart l shares task n where
  bytes : ∀ x : BitVec 64, T.Byte x.toNat →
    ¬ l.InTable x ∧ ¬ shares x ∧ ∀ j < n, ¬ (task j).own x

end Sharing

variable {n : ℕ} {l : Linked} {T : Table n} {shares : BitVec 64 → Prop} {task : ℕ → Task}
  {s s' : OneMemory} {a : Machines} {o : Happening} {m m' : Memory64} {mem mem' : ByteMemory}
  {context c number ret : BitVec 64} {done : List Effect} {v : ℕ} {d p : Processor}

/-! ## The bytes of the table -/

theorem toNat_of_byte {x : ℕ} (hx : T.Byte x) : (BitVec.ofNat 64 x).toNat = x := by
  obtain ⟨o, ho, -, hlt⟩ := hx
  have hend := T.address_lt o ho
  rw [BitVec.toNat_ofNat]
  exact Nat.mod_eq_of_lt (by omega)

/-- Memories with the same bytes of the table have the same table. -/
theorem table_bytes (m : Memory64) (mem : ByteMemory)
    (hsame : ∀ x : BitVec 64, T.Byte x.toNat → m x = mem x.toNat) :
    T.table (bytes m) = T.table mem ∧ (T.Stored mem → T.Stored (bytes m)) := by
  have hbytes : ∀ x, T.Byte x → bytes m x = mem x := by
    intro x hx
    have hnat := toNat_of_byte hx
    refine (hsame (BitVec.ofNat 64 x) (hnat.symm ▸ hx)).trans ?_
    rw [hnat]
  exact ⟨Table.table_congr hbytes, fun h => h.congr hbytes⟩

theorem bytes_toNat (x : BitVec 64) : bytes m x.toNat = m x := by
  unfold bytes
  rw [BitVec.ofNat_toNat, BitVec.setWidth_eq]

/-- The objects of different tasks are apart, so that the pointers are different. -/
theorem distinct_of_stored (h : T.Stored mem) : (T.table mem).Distinct := by
  intro i hi j hj heq
  have hi' : i < n := lt_of_lt_of_eq hi h.numTasks
  have hj' : j < n := lt_of_lt_of_eq hj h.numTasks
  rw [Table.snapshots_of_lt hi', Table.snapshots_of_lt hj', h.process i hi', h.process j hj'] at heq
  exact Table.address_process_inj hi' hj' heq

/-- `interrupt_dispatch` does to the bytes of the table what it does to the table. -/
theorem dispatch_table (h : T.Stored mem) (hcur : (T.table mem).currentTask < n)
    (hdispatch : dispatchBytes T.globals mem number c = some (context, mem', done)) :
    interruptDispatch (T.table mem) number c = some (context, T.table mem', done) ∧
      T.Stored mem' ∧ ∀ x, ¬ T.Byte x → mem' x = mem x := by
  unfold dispatchBytes at hdispatch
  unfold interruptDispatch
  dsimp only at hdispatch ⊢
  split_ifs at hdispatch ⊢ with hexception htimer
  · obtain ⟨context', mem'', hbytes, htable, hstored, hframe⟩ := h.schelude hcur c
    rw [hbytes, Option.map_some] at hdispatch
    obtain ⟨rfl, hrest⟩ := Prod.mk.inj (Option.some.inj hdispatch)
    obtain ⟨rfl, rfl⟩ := Prod.mk.inj hrest
    rw [htable, Option.map_some]
    exact ⟨rfl, hstored, hframe⟩
  · obtain ⟨rfl, hrest⟩ := Prod.mk.inj (Option.some.inj hdispatch)
    obtain ⟨rfl, rfl⟩ := Prod.mk.inj hrest
    exact ⟨rfl, h, fun _ _ => rfl⟩

/-! ## One step -/

/-- The frame of an interrupt is on the stack of the task, and not in the table. -/
theorem Represents.entered_table (hapart : TableApart l T shares task)
    (h : Represents l shares task n (s.state T) a) (hv : v < IDT_SIZE)
    (henter : l.enter (s.state T) v 0 ret = some d) :
    ∀ x : BitVec 64, T.Byte x.toNat → d.mem x = s.mem x := by
  intro x hx
  obtain ⟨-, -, -, hout⟩ := h.entered hv henter
  obtain ⟨-, -, hlt⟩ := h.tasks
  obtain ⟨-, hstack⟩ := h.running ▸ h.room a.turn hlt
  exact hout x (fun hbelow => (hapart.bytes x hx).2.2 a.turn hlt (hstack x hbelow))

/-- Every step is one of the kernel with the table beside the memory. -/
theorem MemoryStep.refines (hapart : TableApart l T shares task)
    (hconfined : ∀ j < n, (task j).Confined shares) (hstored : T.Stored (bytes s.mem))
    (h : Represents l shares task n (s.state T) a) (hstep : MemoryStep l T task s o s') :
    T.Stored (bytes s'.mem) ∧ SystemStep l task n (s.state T) o (s'.state T) := by
  obtain ⟨-, hturn, hlt⟩ := h.tasks
  cases hstep with
  | @step c' m' hcode =>
    -- The task does not write to the table.
    have hsame : ∀ x : BitVec 64, T.Byte x.toNat → m' x = bytes s.mem x.toNat := by
      intro x hx
      obtain ⟨-, hshared, hown⟩ := hapart.bytes x hx
      rw [bytes_toNat]
      exact (hconfined _ (hturn ▸ hlt)).writes hcode x (hown _ (hturn ▸ hlt)) hshared
    obtain ⟨htable, hkeep⟩ := table_bytes m' (bytes s.mem) hsame
    refine ⟨hkeep hstored, ?_⟩
    have hstate : OneMemory.state T ⟨c', m'⟩ = ⟨c', m', (s.state T).tasks⟩ :=
      congrArg (State.mk c' m') htable
    rw [hstate]
    exact .step hcode
  | @interrupt _ _ _ d p mem _ hflag hv henter hdispatch hrax hleaves =>
    have hentered := h.entered_table hapart hv henter
    obtain ⟨htable, hkeep⟩ := table_bytes d.mem (bytes s.mem)
      (fun x hx => (hentered x hx).trans (bytes_toNat x).symm)
    rw [← hturn] at hlt
    obtain ⟨hdispatch', hstored', hframe⟩ := dispatch_table (hkeep hstored)
      (htable.symm ▸ hlt) hdispatch
    obtain ⟨htable', hkeep'⟩ := table_bytes p.mem mem
      (fun x hx => hleaves x (Or.inr (Or.inl hx)))
    refine ⟨hkeep' hstored', ?_⟩
    rw [htable, ← htable'] at hdispatch'
    refine .interrupt hflag hv henter hdispatch' hrax (fun x hx => ?_)
    -- What is left is not in the table.
    have hout : ¬ T.Byte x.toNat := by
      intro hbyte
      obtain ⟨hidt, -, hown⟩ := hapart.bytes x hbyte
      exact hx.elim hidt (fun ⟨j, hj, hjown, _⟩ => hown j hj hjown)
    calc p.mem x = mem x.toNat := hleaves x (hx.imp id Or.inr)
      _ = bytes d.mem x.toNat := hframe _ hout
      _ = d.mem x := bytes_toNat x

theorem MemoryStep.simulates (hapart : TableApart l T shares task)
    (hconfined : ∀ j < n, (task j).Confined shares)
    (h : T.Stored (bytes s.mem) ∧ Represents l shares task n (s.state T) a)
    (hstep : MemoryStep l T task s o s') :
    ∃ a', Machines.Step shares task n a o a' ∧
      T.Stored (bytes s'.mem) ∧ Represents l shares task n (s'.state T) a' := by
  obtain ⟨hstored, hsystem⟩ := hstep.refines hapart hconfined h.1 h.2
  obtain ⟨a', hmachines, h'⟩ := h.2.simulates hapart.toApart hconfined hsystem
  exact ⟨a', hmachines, hstored, h'⟩

/-- The timer may come whenever the flag is set. -/
theorem MemoryStep.exists_timer (hapart : TableApart l T shares task)
    (hstored : T.Stored (bytes s.mem)) (h : Represents l shares task n (s.state T) a)
    (hflag : s.cpu.rflags.getLsbD 9 = true) : ∃ s', MemoryStep l T task s (.interrupt 0x20) s' := by
  obtain ⟨-, hturn, hlt⟩ := h.tasks
  have hv : 0x20 < IDT_SIZE := by decide
  obtain ⟨r, hr⟩ : ∃ r, entries.lookup 0x20 = some r := ⟨_, rfl⟩
  have henter := h.loaded.enter (e := 0) hv 0
  rw [hr, Option.map_some] at henter
  have hnumber := h.loaded.status hv henter
  have hentered := h.entered_table hapart hv henter
  generalize atDispatch (s.state T).cpu (s.state T).mem (BitVec.ofNat 64 0x20) (pushed 0x20 0) 0 = d
    at henter hnumber hentered
  obtain ⟨htable, hkeep⟩ := table_bytes d.mem (bytes s.mem)
    (fun x hx => (hentered x hx).trans (bytes_toNat x).symm)
  rw [← hturn] at hlt
  obtain ⟨context, mem, hschelude, -⟩ := (hkeep hstored).schelude (htable.symm ▸ hlt) (d.regs .rdi)
  have hdispatch : dispatchBytes T.globals (bytes d.mem)
      (readCpuStatus d.mem (d.regs .rdi)).vector_number (d.regs .rdi) =
        some (context, mem, effects 0x20) := by
    rw [hnumber]
    show (T.globals.schelude (bytes d.mem) (d.regs .rdi)).map _ = _
    rw [hschelude]
    rfl
  exact ⟨_, .interrupt (p := ⟨fun _ => context, fun x => mem x.toNat⟩) hflag hv henter hdispatch rfl
    (fun _ _ => rfl)⟩

/-! ## Any order of steps and interrupts -/

/-- In any order of steps and interrupts, the kernel does what the machines of the tasks do, where
the turn goes around with the timer, and each task only ever makes its own steps on its own
machine. The process table stays where it is. -/
theorem preemption_invisible (l : Linked) (n : ℕ) (T : Table n) (shares : BitVec 64 → Prop)
    (task : ℕ → Task) (hapart : TableApart l T shares task)
    (hconfined : ∀ j < n, (task j).Confined shares) (s s' : OneMemory)
    (hstored : T.Stored (bytes s.mem)) (a : Machines)
    (h : Represents l shares task n (s.state T) a) (ts : List (Transition OneMemory Happening))
    (hrun : Run (MemoryStep l T task) s ts s') :
    ∃ us a', Run (Machines.Step shares task n) a us a' ∧
      us.map Transition.label = ts.map Transition.label ∧
      T.Stored (bytes s'.mem) ∧ Represents l shares task n (s'.state T) a' ∧
      ∀ j, Relation.ReflTransGen ((task j).Alone shares) (a.machine j) (a'.machine j) := by
  obtain ⟨us, a', hrun', ⟨hstored', h'⟩, hlabels⟩ := hrun.simulate (And.intro hstored h)
    (fun _ _ _ _ hs hstep => hstep.simulates hapart hconfined hs)
  exact ⟨us, a', hrun', hlabels, hstored', h', Machines.alone hrun'⟩

/-! ## Two tasks -/

/-- Code with its stack pointer, and the interrupt flag set. -/
def sampleCode (sp : BitVec 64) : Interrupted := ⟨fun _ => sp, 0xFFFFFFFF80101000, 8, 0x202, 0x10⟩

/-- Tasks with a page each, from 4 MiB on, that do nothing. -/
def sampleTask (j : ℕ) : Task where
  own x := 0x400000 + 0x100000 * j ≤ x.toNat ∧ x.toNat < 0x401000 + 0x100000 * j
  bottom := 0x400000 + 0x100000 * j
  step c m c' m' := c' = { c with rip := c.rip + 1 } ∧ m' = m

/-- The objects of a table for two tasks. -/
theorem object_of_two {o : TableObject} (h : o.Of 2) :
    o ∈ [.snapshots, .currentTask, .numTasks, .array, .process 0, .process 1] := by
  cases o with
  | process i =>
    have hi : i < 2 := h
    obtain rfl | rfl : i = 0 ∨ i = 1 := by omega
    · decide
    · decide
  | _ => decide

/-- At 3 MiB. -/
def sampleAddress : TableObject → ℕ
  | .snapshots => 0x300000
  | .currentTask => 0x300008
  | .numTasks => 0x30000C
  | .array => 0x300010
  | .process i => 0x300020 + 48 * i

def sampleTable : Table 2 where
  address := sampleAddress
  apart o o' ho ho' hne := by
    have hall : ∀ o ∈ [TableObject.snapshots, .currentTask, .numTasks, .array, .process 0,
        .process 1], ∀ o' ∈ [TableObject.snapshots, .currentTask, .numTasks, .array, .process 0,
        .process 1], o ≠ o' → sampleAddress o + o.size 2 ≤ sampleAddress o' ∨
          sampleAddress o' + o'.size 2 ≤ sampleAddress o := by decide
    exact hall o (object_of_two ho) o' (object_of_two ho') hne
  address_lt o ho := by
    have hall : ∀ o ∈ [TableObject.snapshots, .currentTask, .numTasks, .array, .process 0,
        .process 1], sampleAddress o + o.size 2 ≤ 2^64 := by decide
    exact hall o (object_of_two ho)
  few := by decide

/-- The bytes of the table, with a context for the second task. -/
def sampleBytes (mem : ByteMemory) (context : BitVec 64) : ByteMemory :=
  let mem := store 8 mem 0x300000 0x300010
  let mem := store 4 mem 0x300008 0
  let mem := store 4 mem 0x30000C 2
  let mem := store 8 mem 0x300010 0x300020
  let mem := store 8 mem 0x300018 0x300050
  store 8 mem 0x300078 context.toNat

/-- The first task runs, and the second one waits with the `cpu_status` that `d` leads to. -/
def sampleTwo (d : Processor) : OneMemory where
  cpu := sampleCode 0x400800
  mem x := sampleBytes (bytes d.mem) (d.regs .rdi) x.toNat

def sampleMachines (s : OneMemory) : Machines where
  machine j := (sampleCode (if j = 0 then 0x400800 else 0x500800), s.mem)
  common := s.mem
  turn := 0

/-- The table is within a page. -/
theorem sampleTable_byte {x : ℕ} (hx : sampleTable.Byte x) : 0x300000 ≤ x ∧ x < 0x301000 := by
  obtain ⟨o, ho, hlo, hhi⟩ := hx
  have hall : ∀ o ∈ [TableObject.snapshots, .currentTask, .numTasks, .array, .process 0,
      .process 1], 0x300000 ≤ sampleAddress o ∧ sampleAddress o + o.size 2 ≤ 0x301000 := by decide
  obtain ⟨hfirst, hlast⟩ := hall o (object_of_two ho)
  exact ⟨hfirst.trans hlo, hhi.trans_le hlast⟩

theorem sampleBytes_out {x : ℕ} (hx : x < 0x300000 ∨ 0x301000 ≤ x) :
    sampleBytes mem context x = mem x := by
  unfold sampleBytes
  simp (disch := omega) only [store_of_out]

/-- What is stored in the table. -/
theorem sampleBytes_load (mem : ByteMemory) (context : BitVec 64) :
    load 8 (sampleBytes mem context) 0x300000 = 0x300010 ∧
    load 4 (sampleBytes mem context) 0x300008 = 0 ∧
    load 4 (sampleBytes mem context) 0x30000C = 2 ∧
    load 8 (sampleBytes mem context) 0x300010 = 0x300020 ∧
    load 8 (sampleBytes mem context) 0x300018 = 0x300050 ∧
    BitVec.ofNat 64 (load 8 (sampleBytes mem context) 0x300078) = context := by
  have hcontext : BitVec.ofNat 64 (context.toNat % 256^8) = context := by
    have hlow : context.toNat % 256^8 = context.toNat := Nat.mod_eq_of_lt context.isLt
    rw [hlow, BitVec.ofNat_toNat, BitVec.setWidth_eq]
  unfold sampleBytes
  simp (disch := omega) only [load_store_of_apart, load_store_self, hcontext]
  norm_num

theorem stored_sample : sampleTable.Stored (sampleBytes mem context) := by
  obtain ⟨harray, -, hnum, hfirst, hsecond, -⟩ := sampleBytes_load mem context
  refine ⟨harray, fun i hi => ?_, hnum⟩
  obtain rfl | rfl : i = 0 ∨ i = 1 := by omega
  · exact hfirst
  · exact hsecond

/-- The tables and the tasks are apart. -/
theorem apart_sample : TableApart sampleLinked sampleTable (fun _ => False) sampleTask := by
  have hidt : ∀ x, sampleLinked.InTable x → x.toNat < 0x201000 := by
    rintro x ⟨k, -, hhi, rfl⟩
    have hidt : sampleLinked.idt = 0x200000 := rfl
    rw [BitVec.toNat_ofNat]
    omega
  have hown : ∀ j x, (sampleTask j).own x → 0x400000 + 0x100000 * j ≤ x.toNat ∧
      x.toNat < 0x401000 + 0x100000 * j := fun _ _ h => h
  refine ⟨⟨fun i _ j _ x hi hj => ?_, fun _ _ _ _ h => h,
      fun x hx => ⟨fun h => h, fun j _ hj => ?_⟩⟩,
    fun x hx => ⟨fun hx' => ?_, fun h => h, fun j _ hj => ?_⟩⟩
  · have h1 := hown i x hi
    have h2 := hown j x hj
    omega
  · have h1 := hidt x hx
    have h2 := hown j x hj
    omega
  · have h1 := sampleTable_byte hx
    have h2 := hidt x hx'
    omega
  · have h1 := sampleTable_byte hx
    have h2 := hown j x hj
    omega

theorem confined_sample (j : ℕ) : (sampleTask j).Confined (fun _ => False) where
  writes := by
    rintro c m c' m' ⟨-, rfl⟩ x - -
    rfl
  reads := by
    rintro c m c' m' m₁ ⟨hc, rfl⟩ hsame
    exact ⟨m₁, ⟨hc, rfl⟩, hsame⟩
  room := by
    rintro c m c' m' hroom ⟨rfl, -⟩
    exact ⟨hroom.room, hroom.stack⟩

theorem room_sample (j : ℕ) (hj : j < 2) :
    (sampleTask j).Room (sampleCode (if j = 0 then 0x400800 else 0x500800)) := by
  have hsp : (if j = 0 then 0x400800 else 0x500800 : BitVec 64).toNat =
      0x400800 + 0x100000 * j := by
    obtain rfl | rfl : j = 0 ∨ j = 1 := by omega
    · rfl
    · rfl
  have hneeds : interruptRoom = 199 := rfl
  refine ⟨?_, fun x hx => ⟨hx.1, ?_⟩⟩
  · show 0x400000 + 0x100000 * j + interruptRoom ≤
      (if j = 0 then 0x400800 else 0x500800 : BitVec 64).toNat
    omega
  · have hhigh : x.toNat < (if j = 0 then 0x400800 else 0x500800 : BitVec 64).toNat := hx.2
    omega

theorem represents_sample (hloaded : sampleLinked.Loaded d.mem)
    (hstatus : Resumes (readCpuStatus d.mem (d.regs .rdi)) (sampleCode 0x500800))
    (hown : 0x500000 ≤ (d.regs .rdi).toNat ∧ (d.regs .rdi).toNat + 176 ≤ 0x501000) :
    sampleTable.Stored (bytes (sampleTwo d).mem) ∧
      Represents sampleLinked (fun _ => False) sampleTask 2 ((sampleTwo d).state sampleTable)
        (sampleMachines (sampleTwo d)) := by
  obtain ⟨htable, hkeep⟩ := table_bytes (T := sampleTable) (sampleTwo d).mem
    (sampleBytes (bytes d.mem) (d.regs .rdi)) (fun _ _ => rfl)
  obtain ⟨-, hcurrent, hnum, -, hsecond, hcontext⟩ :=
    sampleBytes_load (bytes d.mem) (d.regs .rdi)
  -- Outside the table the memory is that of `d`.
  have hout : ∀ x : BitVec 64, x.toNat < 0x300000 ∨ 0x301000 ≤ x.toNat →
      (sampleTwo d).mem x = d.mem x := fun x hx => (sampleBytes_out hx).trans (bytes_toNat x)
  have hpointer : (sampleTable.table (sampleBytes (bytes d.mem) (d.regs .rdi))).snapshots 1 =
      0x300050 := (Table.snapshots_of_lt Nat.one_lt_two).trans hsecond
  refine ⟨hkeep stored_sample, ⟨?_, ?_, ?_, rfl, fun j hj hne => ?_, fun _ _ _ _ _ => rfl,
    fun _ h => h.elim, room_sample⟩⟩
  · show (sampleTable.table (bytes (sampleTwo d).mem)).numTasks = 2 ∧ _
    rw [OneMemory.state, htable]
    exact ⟨hnum, hcurrent, Nat.two_pos⟩
  · exact distinct_of_stored (hkeep stored_sample)
  · refine hloaded.congr ?_
    rintro x ⟨k, -, hhi, rfl⟩
    have hidt : sampleLinked.idt = 0x200000 := rfl
    refine hout _ (Or.inl ?_)
    rw [BitVec.toNat_ofNat, Nat.mod_eq_of_lt (by omega)]
    omega
  · obtain rfl : j = 1 := by
      have hturn : (sampleMachines (sampleTwo d)).turn = 0 := rfl
      omega
    have hwaits : ((sampleTwo d).state sampleTable).tasks.context 1 = d.regs .rdi := by
      show (sampleTable.table (bytes (sampleTwo d).mem)).context 1 = _
      rw [htable, Scheluder.context, hpointer]
      exact (congrArg Process.context (Table.process_of_lt hj)).trans hcontext
    have haddr : ∀ k < 176, (d.regs .rdi + BitVec.ofNat 64 k).toNat = (d.regs .rdi).toNat + k := by
      intro k hk
      rw [BitVec.toNat_add, BitVec.toNat_ofNat]
      omega
    have hframe : readCpuStatus (sampleTwo d).mem (d.regs .rdi) =
        readCpuStatus d.mem (d.regs .rdi) :=
      readCpuStatus_congr (fun k hk => hout _ (by have := haddr k hk; omega))
    rw [hwaits]
    refine ⟨?_, fun k hk => ?_⟩
    · show Resumes (readCpuStatus (sampleTwo d).mem (d.regs .rdi)) (sampleCode 0x500800)
      rw [hframe]
      exact hstatus
    · have hk' := haddr k hk
      show 0x400000 + 0x100000 * 1 ≤ (d.regs .rdi + BitVec.ofNat 64 k).toNat ∧
        (d.regs .rdi + BitVec.ofNat 64 k).toNat < 0x401000 + 0x100000 * 1
      omega

/-- The second task waits since an interrupt. -/
theorem exists_represents_sample : ∃ d, sampleTable.Stored (bytes (sampleTwo d).mem) ∧
    Represents sampleLinked (fun _ => False) sampleTask 2 ((sampleTwo d).state sampleTable)
      (sampleMachines (sampleTwo d)) := by
  have hloaded := sampleState_loaded (sampleCode 0x500800)
  generalize (sampleState (sampleCode 0x500800)).mem = m at hloaded
  have hsp : ((sampleCode 0x500800).regs .rsp).toNat = 0x500800 := rfl
  have hneeds : interruptRoom = 199 := rfl
  have hidt : sampleLinked.idt = 0x200000 := rfl
  obtain ⟨hlow, hrdi, hhigh, hout⟩ := atDispatch_below (i := sampleCode 0x500800) m 0x20 none 0
    (by omega)
  have hstatus := status_atDispatch (sampleCode 0x500800) m 0x20 none 0
  generalize atDispatch (sampleCode 0x500800) m 0x20 none 0 = d at hlow hrdi hhigh hout hstatus
  refine ⟨d, represents_sample (hloaded.congr ?_) (hstatus ▸ resumes_status) ⟨by omega, by omega⟩⟩
  rintro x ⟨k, -, hhi, rfl⟩
  refine hout _ (Or.inl ?_)
  rw [BitVec.toNat_ofNat, Nat.mod_eq_of_lt (by omega)]
  omega

/-- A step of the first task, the timer, and a step of the second one. -/
theorem preemption_invisible_two : ∃ d s' ts,
    Run (MemoryStep sampleLinked sampleTable sampleTask) (sampleTwo d) ts s' ∧
    ts.map Transition.label = [.step, .interrupt 0x20, .step] ∧
    ∃ us a',
      Run (Machines.Step (fun _ => False) sampleTask 2) (sampleMachines (sampleTwo d)) us a' ∧
      us.map Transition.label = ts.map Transition.label ∧
      sampleTable.Stored (bytes s'.mem) ∧
      Represents sampleLinked (fun _ => False) sampleTask 2 (s'.state sampleTable) a' ∧
      ∀ j, Relation.ReflTransGen ((sampleTask j).Alone (fun _ => False))
        ((sampleMachines (sampleTwo d)).machine j) (a'.machine j) := by
  have hconfined : ∀ j < 2, (sampleTask j).Confined (fun _ => False) :=
    fun j _ => confined_sample j
  obtain ⟨d, hstored, h⟩ := exists_represents_sample
  have hfirst : MemoryStep sampleLinked sampleTable sampleTask (sampleTwo d) .step
      ⟨{ sampleCode 0x400800 with rip := (sampleCode 0x400800).rip + 1 }, (sampleTwo d).mem⟩ :=
    .step ⟨rfl, rfl⟩
  obtain ⟨a₁, -, hstored₁, h₁⟩ := hfirst.simulates apart_sample hconfined ⟨hstored, h⟩
  have hflag : (0x202 : BitVec 64).getLsbD 9 = true := by decide
  obtain ⟨s₂, htimer⟩ := MemoryStep.exists_timer apart_sample hstored₁ h₁ hflag
  have hlast : MemoryStep sampleLinked sampleTable sampleTask s₂ .step
      ⟨{ s₂.cpu with rip := s₂.cpu.rip + 1 }, s₂.mem⟩ := .step ⟨rfl, rfl⟩
  have hrun := Run.cons hfirst (.cons htimer (.single hlast))
  exact ⟨d, _, _, hrun, rfl, preemption_invisible sampleLinked 2 sampleTable (fun _ => False)
    sampleTask apart_sample hconfined _ _ hstored _ h _ hrun⟩

end Potatos.Idt
