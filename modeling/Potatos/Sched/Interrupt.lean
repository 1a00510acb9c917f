import Potatos.Lib.Runs
import Potatos.Lib.SavedFrames
import Potatos.Sched.Process

/-!
# The timer interrupt

What happens from a timer interrupt to the `iretq` that ends it: the stub of
`src/arch/x86_64/idt/idt_stub.asm`, `interrupt_dispatch` and `schelude`, one instruction or
statement at a time, on the stacks of the tasks. The interrupt clears the interrupt flag, and the
timer does not interrupt again before it has been acknowledged (`EOI`). `schelude` sets the flag
while the stub is still on the stack of the task that was interrupted.

A stack is counted in words. A `cpu_status` has 22, five from the processor and the rest from the
stub, pushed here at once since the flag is clear in between. What the calls and a task push
themselves is not followed: a frame comes somewhere behind the stack pointer. The other interrupts
and the console output are left out.
-/

namespace Potatos

open Lib

/-- The stacks. Each task has its own; while a task starts from the `cpu_status` that
`create_process` made for it on the heap, the stack pointer is in that record. -/
inductive Stack where
  | own (task : ℕ)
  | record (task : ℕ)
  deriving DecidableEq

/-- A stack pointer, with the number of words in front of it. -/
structure StackPtr where
  stack : Stack
  depth : ℕ
  deriving DecidableEq

/-- What the processor runs next, with the values that the code there still needs. -/
inductive Point where
  /-- A task's code. -/
  | task
  | dispatch
  /-- The statements of `schelude`, from `snapshots[currentTask]->context = cur_status` on. -/
  | save (cur_status : StackPtr)
  | ready
  | next
  | wrap
  | running
  | sti
  | ret
  /-- The rest of `interrupt_dispatch`. -/
  | eoi (context : StackPtr)
  | leave (context : StackPtr)
  /-- The rest of the stub, with the number of registers that `restore_context` popped. -/
  | movRsp (rax : StackPtr)
  | restore (popped : ℕ)
  | iretq
  deriving DecidableEq

/-- The processor. -/
structure Cpu where
  pc : Point
  interruptFlag : Bool
  rsp : StackPtr
  deriving DecidableEq

/-- The words of a `cpu_status`. -/
def frameWords : ℕ := 22

/-- What a `cpu_status` from `create_process` holds: the entry point, the flag set (`0x202`), and
the task's own stack. -/
def entry (task : ℕ) : Cpu := ⟨.task, true, ⟨.own task, 0⟩⟩

/-- The processor, the timer interrupt in service, the stacks, and the process table. -/
structure Kernel where
  cpu : Cpu
  inService : Bool
  words : Stacks Stack Cpu
  tasks : Scheluder StackPtr

namespace Kernel

/-- The same with the processor at `pc`. -/
def goto (k : Kernel) (pc : Point) : Kernel := { k with cpu := { k.cpu with pc := pc } }

/-- A timer interrupt, with its frame behind the first `depth` words of the stack. -/
def interrupt (k : Kernel) (depth : ℕ) : Kernel :=
  { k with
    cpu := ⟨.dispatch, false, ⟨k.cpu.rsp.stack, depth + frameWords⟩⟩
    inService := true
    words := pushFrame frameWords k.words k.cpu.rsp.stack depth k.cpu }

/-- The frame that the next `n` words on the stack save, the next one at `index`. -/
def frameAt (k : Kernel) (index n : ℕ) : Option Cpu :=
  popFrame k.words k.cpu.rsp.stack k.cpu.rsp.depth index n

/-- `n` words popped. -/
def pop (k : Kernel) (n : ℕ) : Kernel :=
  { k with cpu := { k.cpu with rsp := ⟨k.cpu.rsp.stack, k.cpu.rsp.depth - n⟩ } }

/-- One instruction or statement of the handler. A pop needs a word of a frame, and goes on only
where the word behind it is of the same one. -/
def exec (k : Kernel) : Option Kernel :=
  match k.cpu.pc with
  | .task => none
  | .dispatch => some (k.goto (.save k.cpu.rsp))
  | .save cur_status =>
    some ({ k with tasks := k.tasks.setContext k.tasks.current cur_status }.goto .ready)
  | .ready => some ({ k with tasks := k.tasks.setStatus k.tasks.current .READY }.goto .next)
  | .next => some ({ k with tasks := k.tasks.nextTask }.goto .wrap)
  | .wrap => k.tasks.wrapTask.map (fun tasks => { k with tasks := tasks }.goto .running)
  | .running => some ({ k with tasks := k.tasks.setStatus k.tasks.current .RUNNING }.goto .sti)
  | .sti => some { k with cpu := { k.cpu with pc := .ret, interruptFlag := true } }
  | .ret => some (k.goto (.eoi (k.tasks.context k.tasks.currentTask)))
  | .eoi context => some ({ k with inService := false }.goto (.leave context))
  | .leave context => some (k.goto (.movRsp context))
  | .movRsp rax => some { k with cpu := { k.cpu with pc := .restore 0, rsp := rax } }
  | .restore popped =>
    if popped < 15 then
      (k.frameAt (21 - popped) 2).map (fun _ => (k.pop 1).goto (.restore (popped + 1)))
    else (k.frameAt 6 3).map (fun _ => (k.pop 2).goto .iretq)
  | .iretq => (k.frameAt 4 5).map (fun frame => { k with cpu := frame })

/-- What may happen. -/
inductive Event where
  | exec
  | work (depth : ℕ)
  | interrupt (depth : ℕ)

/-- One step. A task's code keeps to the stack that it is on. -/
inductive Step : Kernel → Event → Kernel → Prop where
  | exec {k k' : Kernel} : k.exec = some k' → Step k .exec k'
  | work {k : Kernel} {words : Stacks Stack Cpu} {depth : ℕ} :
      k.cpu.pc = .task → (∀ t, t ≠ k.cpu.rsp.stack → words t = k.words t) →
      Step k (.work depth)
        { k with words := words, cpu := { k.cpu with rsp := ⟨k.cpu.rsp.stack, depth⟩ } }
  | interrupt {k : Kernel} {depth : ℕ} :
      k.cpu.interruptFlag = true → k.inService = false → k.cpu.rsp.depth ≤ depth →
      Step k (.interrupt depth) (k.interrupt depth)

/-- The statements of `schelude` do what the function does, and leave the flag set. -/
theorem run_schelude {k : Kernel} {cur_status context : StackPtr} {tasks : Scheluder StackPtr}
    (hpc : k.cpu.pc = .save cur_status)
    (h : k.tasks.schelude cur_status = some (context, tasks)) :
    ∃ ts, Run Step k ts
      { k with tasks := tasks, cpu := ⟨.eoi context, true, k.cpu.rsp⟩ } := by
  obtain ⟨⟨pc, flag, rsp⟩, inService, words, s⟩ := k
  dsimp only at hpc h
  subst hpc
  obtain ⟨wrapped, hwrap, hres⟩ := Option.bind_eq_some_iff.mp h
  obtain ⟨rfl, rfl⟩ := Prod.mk.inj (Option.some.inj hres)
  have hexec : Kernel.exec ⟨⟨.wrap, flag, rsp⟩, inService, words, _⟩ =
      some ⟨⟨.running, flag, rsp⟩, inService, words, wrapped⟩ :=
    congrArg (Option.map _) hwrap
  exact ⟨_, .cons (.exec rfl) (.cons (.exec rfl) (.cons (.exec rfl) (.cons (.exec hexec)
    (.cons (.exec rfl) (.cons (.exec rfl) (.single (.exec rfl)))))))⟩

end Kernel

end Potatos
