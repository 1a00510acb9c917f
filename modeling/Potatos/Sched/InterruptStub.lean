import Mathlib.Data.List.GetD
import Mathlib.Tactic.IntervalCases
import Potatos.Lib.WordStack
import Potatos.Sched.Interrupt

/-!
# The interrupt stubs

The two macros of `src/arch/x86_64/idt/idt_stub.asm`, one instruction at a time, on the registers
and the memory of the processor, with what the processor itself does before (`deliver`) and after
(`iretq`) them. Some interrupts come with an error code, and for the others the stub pushes a zero
in its place. `cpu_status` is the packed structure of `idt.h`, which is how `interrupt_dispatch`
reads what was pushed.

What `interrupt_dispatch` does in between is left open: it returns a pointer in `rax`, with any
registers and any memory.
-/

namespace Potatos.Stub

open Lib

/-- The general registers. -/
inductive Reg where
  | rax | rbx | rcx | rdx | rbp | rsi | rdi | rsp
  | r8 | r9 | r10 | r11 | r12 | r13 | r14 | r15
  deriving DecidableEq

/-- The instructions of the stubs but the call and `iretq`. -/
inductive Instr where
  | push (r : Reg)
  | pushImm (v : BitVec 64)
  | pop (r : Reg)
  | mov (dst src : Reg)
  | addImm (dst : Reg) (v : BitVec 64)

/-- The registers and the memory. -/
structure Processor where
  regs : Reg → BitVec 64
  mem : Memory64

/-- The code that is interrupted. -/
@[ext]
structure Interrupted where
  regs : Reg → BitVec 64
  rip : BitVec 64
  cs : BitVec 16
  rflags : BitVec 64
  ss : BitVec 16

namespace Processor

def stack (p : Processor) : WordStack := ⟨p.regs .rsp, p.mem⟩

/-- The same with another stack pointer and another memory. -/
def withStack (p : Processor) (s : WordStack) : Processor :=
  ⟨Function.update p.regs .rsp s.sp, s.mem⟩

def exec (p : Processor) : Instr → Processor
  | .push r => p.withStack (p.stack.push (p.regs r))
  | .pushImm v => p.withStack (p.stack.push v)
  | .pop r =>
    let v := load64 p.mem (p.regs .rsp)
    { p with regs := Function.update (Function.update p.regs .rsp (p.regs .rsp + 8)) r v }
  | .mov dst src => { p with regs := Function.update p.regs dst (p.regs src) }
  | .addImm dst v => { p with regs := Function.update p.regs dst (p.regs dst + v) }

def run (p : Processor) (code : List Instr) : Processor := code.foldl exec p

end Processor

/-! ## The macros -/

def saveContext : List Instr :=
  [.push .rax, .push .rbx, .push .rcx, .push .rdx,
    .push .rbp, .push .rsi, .push .rdi,
    .push .r8, .push .r9, .push .r10, .push .r11, .push .r12, .push .r13, .push .r14, .push .r15]

def restoreContext : List Instr :=
  [.pop .r15, .pop .r14, .pop .r13, .pop .r12, .pop .r11, .pop .r10, .pop .r9, .pop .r8,
    .pop .rdi, .pop .rsi, .pop .rbp,
    .pop .rdx, .pop .rcx, .pop .rbx, .pop .rax]

/-- `interrupt_routine`, up to the call. -/
def interruptRoutine (vector : BitVec 64) : List Instr :=
  [.pushImm 0, .pushImm vector] ++ saveContext ++ [.mov .rdi .rsp]

/-- `interrupt_err_routine`, up to the call. -/
def interruptErrRoutine (vector : BitVec 64) : List Instr :=
  [.pushImm vector] ++ saveContext ++ [.mov .rdi .rsp]

/-- Both macros from the call to `iretq`. -/
def afterDispatch : List Instr := [.mov .rsp .rax] ++ restoreContext ++ [.addImm .rsp 16]

/-! ## The processor -/

/-- An interrupt aligns the stack and pushes the frame, and the error code if there is one. -/
def deliver (i : Interrupted) (m : Memory64) (error_code : Option (BitVec 64)) : Processor :=
  (Processor.mk i.regs m).withStack
    ((WordStack.mk (i.regs .rsp &&& ~~~15) m).pushAll
      ([i.ss.setWidth 64, i.regs .rsp, i.rflags, i.cs.setWidth 64, i.rip] ++ error_code.toList))

/-- The entry of `interrupt_dispatch`, with the return address that the call pushes. -/
def atDispatch (i : Interrupted) (m : Memory64) (vector : BitVec 64)
    (error_code : Option (BitVec 64)) (ret : BitVec 64) : Processor :=
  let p := (deliver i m error_code).run
    (if error_code.isSome then interruptErrRoutine vector else interruptRoutine vector)
  p.withStack (p.stack.push ret)

/-- `iretq` pops the frame. -/
def iretq (p : Processor) : Interrupted where
  regs := Function.update p.regs .rsp (p.stack.word 3)
  rip := p.stack.word 0
  cs := (p.stack.word 1).setWidth 16
  rflags := p.stack.word 2
  ss := (p.stack.word 4).setWidth 16

/-! ## `cpu_status` -/

structure CpuStatus where
  r15 : BitVec 64
  r14 : BitVec 64
  r13 : BitVec 64
  r12 : BitVec 64
  r11 : BitVec 64
  r10 : BitVec 64
  r9 : BitVec 64
  r8 : BitVec 64
  rdi : BitVec 64
  rsi : BitVec 64
  rbp : BitVec 64
  rdx : BitVec 64
  rcx : BitVec 64
  rbx : BitVec 64
  rax : BitVec 64
  vector_number : BitVec 64
  error_code : BitVec 64
  iret_rip : BitVec 64
  iret_cs : BitVec 64
  iret_rflags : BitVec 64
  iret_rsp : BitVec 64
  iret_ss : BitVec 64

/-- The `cpu_status` at `c`. The structure is packed, and each field has eight bytes. -/
def readCpuStatus (m : Memory64) (c : BitVec 64) : CpuStatus :=
  let field (k : ℕ) := load64 m (c + BitVec.ofNat 64 (8 * k))
  { r15 := field 0, r14 := field 1, r13 := field 2, r12 := field 3, r11 := field 4, r10 := field 5
    r9 := field 6, r8 := field 7, rdi := field 8, rsi := field 9, rbp := field 10, rdx := field 11
    rcx := field 12, rbx := field 13, rax := field 14, vector_number := field 15
    error_code := field 16, iret_rip := field 17, iret_cs := field 18, iret_rflags := field 19
    iret_rsp := field 20, iret_ss := field 21 }

/-- The field with the name of a register. -/
def CpuStatus.reg (c : CpuStatus) : Reg → BitVec 64
  | .rax => c.rax
  | .rbx => c.rbx
  | .rcx => c.rcx
  | .rdx => c.rdx
  | .rbp => c.rbp
  | .rsi => c.rsi
  | .rdi => c.rdi
  | .rsp => c.iret_rsp
  | .r8 => c.r8
  | .r9 => c.r9
  | .r10 => c.r10
  | .r11 => c.r11
  | .r12 => c.r12
  | .r13 => c.r13
  | .r14 => c.r14
  | .r15 => c.r15

/-- What `interrupt_dispatch` is to be told about an interrupt. -/
def Interrupted.status (i : Interrupted) (vector error_code : BitVec 64) : CpuStatus where
  r15 := i.regs .r15
  r14 := i.regs .r14
  r13 := i.regs .r13
  r12 := i.regs .r12
  r11 := i.regs .r11
  r10 := i.regs .r10
  r9 := i.regs .r9
  r8 := i.regs .r8
  rdi := i.regs .rdi
  rsi := i.regs .rsi
  rbp := i.regs .rbp
  rdx := i.regs .rdx
  rcx := i.regs .rcx
  rbx := i.regs .rbx
  rax := i.regs .rax
  vector_number := vector
  error_code := error_code
  iret_rip := i.rip
  iret_cs := i.cs.setWidth 64
  iret_rflags := i.rflags
  iret_rsp := i.regs .rsp
  iret_ss := i.ss.setWidth 64

variable {p q : Processor} {i : Interrupted} {m : Memory64} {s t : WordStack} {r : Reg}
  {rs : List Reg} {code code' : List Instr} {c v vector ret : BitVec 64}
  {error_code : Option (BitVec 64)} {k : ℕ}

namespace Processor

@[simp] theorem withStack_rsp : (p.withStack s).regs .rsp = s.sp := by
  show Function.update p.regs .rsp s.sp .rsp = s.sp
  exact Function.update_self ..

@[simp] theorem withStack_stack : (p.withStack s).stack = s := by
  show WordStack.mk ((p.withStack s).regs .rsp) s.mem = s
  rw [withStack_rsp]

@[simp] theorem withStack_withStack : (p.withStack s).withStack t = p.withStack t := by
  unfold withStack
  rw [Function.update_idem]

theorem withStack_regs (h : r ≠ .rsp) : (p.withStack s).regs r = p.regs r :=
  Function.update_of_ne h ..

theorem run_append : p.run (code ++ code') = (p.run code).run code' := List.foldl_append

/-- Pushing registers pushes their values. -/
theorem run_push (h : ∀ r ∈ rs, r ≠ .rsp) :
    p.run (rs.map .push) = p.withStack (p.stack.pushAll (rs.map p.regs)) := by
  induction rs generalizing p with
  | nil =>
    show p = p.withStack p.stack
    unfold withStack stack
    rw [Function.update_eq_self]
  | cons r rs ih =>
    have hregs : rs.map (p.exec (.push r)).regs = rs.map p.regs :=
      List.map_congr_left (fun x hx => withStack_regs (h x (List.mem_cons_of_mem _ hx)))
    have hrest := ih (p := p.exec (.push r)) (fun x hx => h x (List.mem_cons_of_mem _ hx))
    rw [hregs] at hrest
    calc p.run ((r :: rs).map .push) = (p.exec (.push r)).run (rs.map .push) := rfl
      _ = (p.exec (.push r)).withStack ((p.exec (.push r)).stack.pushAll (rs.map p.regs)) := hrest
      _ = p.withStack (p.stack.pushAll ((r :: rs).map p.regs)) := by
        rw [exec, withStack_stack, withStack_withStack]
        rfl

/-- The first word of the stack goes into the register, and the rest comes forward. -/
theorem exec_pop (h : r ≠ .rsp) :
    (p.exec (.pop r)).mem = p.mem ∧
    (p.exec (.pop r)).regs .rsp = p.regs .rsp + 8 ∧
    (p.exec (.pop r)).regs r = p.stack.word 0 ∧
    (∀ k, (p.exec (.pop r)).stack.word k = p.stack.word (k + 1)) ∧
    ∀ x, x ≠ r → x ≠ .rsp → (p.exec (.pop r)).regs x = p.regs x := by
  have hregs : (p.exec (.pop r)).regs = Function.update
      (Function.update p.regs .rsp (p.regs .rsp + 8)) r (load64 p.mem (p.regs .rsp)) := rfl
  have hrsp : (p.exec (.pop r)).regs .rsp = p.regs .rsp + 8 := by
    rw [hregs, Function.update_of_ne h.symm, Function.update_self]
  refine ⟨rfl, hrsp, ?_, fun k => ?_, fun x hx hx' => ?_⟩
  · have hzero : p.regs .rsp + BitVec.ofNat 64 (8 * 0) = p.regs .rsp := BitVec.add_zero _
    unfold WordStack.word stack
    rw [hregs, Function.update_self, hzero]
  · have hnext : p.regs .rsp + 8 + BitVec.ofNat 64 (8 * k) =
        p.regs .rsp + BitVec.ofNat 64 (8 * (k + 1)) := by
      have h8 : BitVec.ofNat 64 8 = 8 := rfl
      rw [Nat.mul_succ, BitVec.ofNat_add, h8]
      abel
    unfold WordStack.word stack
    rw [hrsp, hnext]
    rfl
  · rw [hregs, Function.update_of_ne hx, Function.update_of_ne hx']

/-- Popping registers loads them with the words of the stack, one after the other. -/
theorem run_pop (p : Processor) (rs : List Reg) (hnodup : rs.Nodup) (hrsp : .rsp ∉ rs) :
    (p.run (rs.map .pop)).mem = p.mem ∧
    (p.run (rs.map .pop)).regs .rsp = p.regs .rsp + BitVec.ofNat 64 (8 * rs.length) ∧
    (∀ k (hk : k < rs.length), (p.run (rs.map .pop)).regs rs[k] = p.stack.word k) ∧
    ∀ r ∉ rs, r ≠ .rsp → (p.run (rs.map .pop)).regs r = p.regs r := by
  induction rs generalizing p with
  | nil =>
    exact ⟨rfl, (BitVec.add_zero _).symm, fun k hk => absurd hk (Nat.not_lt_zero k),
      fun _ _ _ => rfl⟩
  | cons r rs ih =>
    obtain ⟨hr, hnodup⟩ := List.nodup_cons.mp hnodup
    have hne : r ≠ .rsp := fun h => hrsp (h ▸ List.mem_cons_self)
    have hrsp' : .rsp ∉ rs := fun h => hrsp (List.mem_cons_of_mem _ h)
    obtain ⟨hmem, hsp, hfirst, hrest, hother⟩ := exec_pop (p := p) hne
    obtain ⟨hmem', hsp', hwords, hother'⟩ := ih (p.exec (.pop r)) hnodup hrsp'
    have hrun : p.run ((r :: rs).map .pop) = (p.exec (.pop r)).run (rs.map .pop) := rfl
    rw [hrun]
    refine ⟨hmem'.trans hmem, ?_, fun k hk => ?_, fun x hx hx' => ?_⟩
    · have h8 : BitVec.ofNat 64 8 = 8 := rfl
      rw [hsp', hsp, List.length_cons, Nat.mul_succ, BitVec.ofNat_add, h8]
      abel
    · cases k with
      | zero =>
        rw [List.getElem_cons_zero, hother' r hr hne]
        exact hfirst
      | succ k =>
        rw [List.getElem_cons_succ, hwords k (Nat.lt_of_succ_lt_succ hk), hrest]
    · have hxr : x ≠ r := fun h => hx (h ▸ List.mem_cons_self)
      rw [hother' x (fun h => hx (List.mem_cons_of_mem _ h)) hx', hother x hxr hx']

end Processor

/-! ## The frame -/

/-- The registers in the order of `save_context`. -/
def saved : List Reg :=
  [.rax, .rbx, .rcx, .rdx, .rbp, .rsi, .rdi, .r8, .r9, .r10, .r11, .r12, .r13, .r14, .r15]

theorem saveContext_eq : saveContext = saved.map .push := rfl

/-- `restore_context` pops in the opposite order. -/
theorem restoreContext_eq : restoreContext = saved.reverse.map .pop := rfl

/-- The words of a `cpu_status`, as they are pushed. -/
def Interrupted.words (i : Interrupted) (vector error_code : BitVec 64) : List (BitVec 64) :=
  [i.ss.setWidth 64, i.regs .rsp, i.rflags, i.cs.setWidth 64, i.rip] ++ [error_code, vector] ++
    saved.map i.regs

/-- The stack at the call of `interrupt_dispatch`. -/
def Interrupted.frame (i : Interrupted) (m : Memory64) (vector error_code : BitVec 64) :
    WordStack :=
  (WordStack.mk (i.regs .rsp &&& ~~~15) m).pushAll (i.words vector error_code)

/-- An immediate is pushed like a register. -/
theorem run_pushImm : (p.withStack s).run [.pushImm v] = p.withStack (s.push v) := by
  show (p.withStack s).withStack ((p.withStack s).stack.push v) = _
  rw [Processor.withStack_withStack, Processor.withStack_stack]

theorem run_saveContext :
    (p.withStack s).run saveContext = p.withStack (s.pushAll (saved.map p.regs)) := by
  have hne : ∀ r ∈ saved, r ≠ .rsp := by decide
  have hregs : saved.map (p.withStack s).regs = saved.map p.regs :=
    List.map_congr_left (fun r hr => Processor.withStack_regs (hne r hr))
  rw [saveContext_eq, Processor.run_push hne, Processor.withStack_withStack,
    Processor.withStack_stack, hregs]

/-- The stub that pushes 0 goes on as the other one does with the error code 0. -/
theorem run_interruptRoutine :
    (deliver i m none).run (interruptRoutine vector) =
      (deliver i m (some 0)).run (interruptErrRoutine vector) := by
  have hcode : interruptRoutine vector = [.pushImm 0] ++ interruptErrRoutine vector := rfl
  rw [hcode, Processor.run_append, deliver, run_pushImm]
  rfl

/-- The stub pushes the vector and the registers behind the error code. -/
theorem run_interruptErrRoutine {e : BitVec 64} :
    (deliver i m (some e)).run (interruptErrRoutine vector) =
      ((Processor.mk i.regs m).withStack (i.frame m vector e)).exec (.mov .rdi .rsp) := by
  let s := (WordStack.mk (i.regs .rsp &&& ~~~15) m).pushAll
    ([i.ss.setWidth 64, i.regs .rsp, i.rflags, i.cs.setWidth 64, i.rip] ++ [e])
  have hframe : i.frame m vector e = (s.push vector).pushAll (saved.map i.regs) := by
    rw [Interrupted.frame, Interrupted.words, WordStack.pushAll_append]
    rfl
  have hvector : (deliver i m (some e)).run [.pushImm vector] =
      (Processor.mk i.regs m).withStack (s.push vector) := by
    rw [deliver, run_pushImm]
    rfl
  calc (deliver i m (some e)).run (interruptErrRoutine vector)
      = (((deliver i m (some e)).run [.pushImm vector]).run saveContext).run [.mov .rdi .rsp] := by
        rw [interruptErrRoutine, Processor.run_append, Processor.run_append]
    _ = ((Processor.mk i.regs m).withStack (i.frame m vector e)).run [.mov .rdi .rsp] := by
        rw [hvector, run_saveContext, hframe]
    _ = ((Processor.mk i.regs m).withStack (i.frame m vector e)).exec (.mov .rdi .rsp) := rfl

/-- Both stubs push the same words, whoever pushes the error code. -/
theorem run_stub :
    (deliver i m error_code).run
      (if error_code.isSome then interruptErrRoutine vector else interruptRoutine vector) =
      ((Processor.mk i.regs m).withStack (i.frame m vector (error_code.getD 0))).exec
        (.mov .rdi .rsp) := by
  cases error_code with
  | none => exact run_interruptRoutine.trans run_interruptErrRoutine
  | some e => exact run_interruptErrRoutine

/-- The stack and the argument of `interrupt_dispatch`. -/
theorem atDispatch_spec (i : Interrupted) (m : Memory64) (vector : BitVec 64)
    (error_code : Option (BitVec 64)) (ret : BitVec 64) :
    (atDispatch i m vector error_code ret).mem =
      ((i.frame m vector (error_code.getD 0)).push ret).mem ∧
    (atDispatch i m vector error_code ret).regs .rdi =
      (i.frame m vector (error_code.getD 0)).sp := by
  have hmov : ∀ (p : Processor) (s : WordStack),
      ((p.withStack s).exec (.mov .rdi .rsp)).stack = s ∧
        ((p.withStack s).exec (.mov .rdi .rsp)).regs .rdi = s.sp := by
    intro p s
    constructor
    · rw [← Processor.withStack_stack (p := p) (s := s)]
      rfl
    · show Function.update (p.withStack s).regs Reg.rdi ((p.withStack s).regs .rsp) Reg.rdi = s.sp
      rw [Function.update_self, Processor.withStack_rsp]
  unfold atDispatch
  dsimp only
  rw [run_stub, (hmov _ _).1]
  constructor
  · rfl
  · rw [Processor.withStack_regs (by decide), (hmov _ _).2]

/-- These are the words that the scheduler's model counts for a `cpu_status`. -/
theorem words_length {e : BitVec 64} : (i.words vector e).length = frameWords := rfl

/-- The words of the frame, from its lower end on. -/
theorem frame_word {e : BitVec 64} (hk : k < frameWords) :
    (i.frame m vector e).word k = (i.words vector e).reverse.getD k 0 := by
  have hlen : k < (i.words vector e).length := by rwa [words_length]
  have hfits : 8 * (i.words vector e).length ≤ 2^64 := by
    rw [words_length]
    decide
  unfold Interrupted.frame
  rw [WordStack.word_pushAll hfits hlen]

/-- `interrupt_dispatch` gets a pointer to the `cpu_status` of the interrupted code. -/
theorem status_atDispatch (i : Interrupted) (m : Memory64) (vector : BitVec 64)
    (error_code : Option (BitVec 64)) (ret : BitVec 64) :
    readCpuStatus (atDispatch i m vector error_code ret).mem
      ((atDispatch i m vector error_code ret).regs .rdi) =
        i.status vector (error_code.getD 0) := by
  obtain ⟨hmem, hrdi⟩ := atDispatch_spec i m vector error_code ret
  have hfield : ∀ k < 22, load64 (atDispatch i m vector error_code ret).mem
      ((atDispatch i m vector error_code ret).regs .rdi + BitVec.ofNat 64 (8 * k)) =
        (i.words vector (error_code.getD 0)).reverse.getD k 0 := by
    intro k hk
    rw [hmem, hrdi, WordStack.load64_push (by omega), frame_word hk]
  unfold readCpuStatus
  simp only [hfield, Nat.reduceLT]
  rfl

/-! ## The way back -/

/-- The fields of a `cpu_status` are in the order of `restore_context`. -/
theorem reg_saved {k : ℕ} (hk : k < saved.reverse.length) :
    (readCpuStatus m c).reg saved.reverse[k] = load64 m (c + BitVec.ofNat 64 (8 * k)) := by
  have hlt : k < 15 := hk
  interval_cases k <;> rfl

theorem mem_saved (h : r ≠ .rsp) : r ∈ saved.reverse := by
  cases r <;> first | exact absurd rfl h | decide

theorem exec_addImm_self : (p.exec (.addImm r v)).regs r = p.regs r + v := by
  show Function.update p.regs r (p.regs r + v) r = _
  rw [Function.update_self]

theorem exec_addImm_of_ne {x : Reg} (h : x ≠ r) : (p.exec (.addImm r v)).regs x = p.regs x := by
  show Function.update p.regs r (p.regs r + v) x = _
  rw [Function.update_of_ne h]

/-- After the call, every register comes from its field, and the stack pointer is at the frame. -/
theorem afterDispatch_spec (p : Processor) :
    (p.run afterDispatch).mem = p.mem ∧
    (p.run afterDispatch).regs .rsp = p.regs .rax + 136 ∧
    ∀ r ≠ .rsp, (p.run afterDispatch).regs r = (readCpuStatus p.mem (p.regs .rax)).reg r := by
  have hrun : p.run afterDispatch =
      ((p.withStack ⟨p.regs .rax, p.mem⟩).run (saved.reverse.map .pop)).exec (.addImm .rsp 16) := by
    unfold afterDispatch
    rw [Processor.run_append, Processor.run_append, restoreContext_eq]
    rfl
  obtain ⟨hmem, hrsp, hwords, -⟩ := Processor.run_pop (p.withStack ⟨p.regs .rax, p.mem⟩)
    saved.reverse (by decide) (by decide)
  rw [Processor.withStack_rsp] at hrsp
  rw [Processor.withStack_stack] at hwords
  rw [hrun]
  generalize (p.withStack ⟨p.regs .rax, p.mem⟩).run (saved.reverse.map .pop) = q at *
  refine ⟨hmem, ?_, fun r hr => ?_⟩
  · have hlen : BitVec.ofNat 64 (8 * saved.reverse.length) + 16 = 136 := by decide
    rw [exec_addImm_self, hrsp, BitVec.add_assoc, hlen]
  · obtain ⟨k, hk, rfl⟩ := List.getElem_of_mem (mem_saved hr)
    rw [exec_addImm_of_ne hr, hwords k hk, reg_saved hk, WordStack.word]

/-- The code that goes on is the one of the `cpu_status`. -/
structure Resumes (c : CpuStatus) (i : Interrupted) : Prop where
  regs : ∀ r, i.regs r = c.reg r
  rip : i.rip = c.iret_rip
  cs : i.cs = c.iret_cs.setWidth 16
  rflags : i.rflags = c.iret_rflags
  ss : i.ss = c.iret_ss.setWidth 16

/-- The frame of `iretq` is behind the registers and the two words of the stub. -/
theorem resumes_afterDispatch (p : Processor) :
    Resumes (readCpuStatus p.mem (p.regs .rax)) (iretq (p.run afterDispatch)) := by
  obtain ⟨hmem, hrsp, hregs⟩ := afterDispatch_spec p
  have hword : ∀ k j, j = 17 + k → (p.run afterDispatch).stack.word k =
      load64 p.mem (p.regs .rax + BitVec.ofNat 64 (8 * j)) := by
    rintro k j rfl
    have h136 : BitVec.ofNat 64 (8 * 17) = 136 := rfl
    unfold WordStack.word Processor.stack
    rw [hmem, hrsp, Nat.mul_add, BitVec.ofNat_add, h136, BitVec.add_assoc]
  generalize p.run afterDispatch = q at *
  unfold readCpuStatus iretq
  constructor
  · intro r
    by_cases hr : r = .rsp
    · subst hr
      show Function.update q.regs Reg.rsp (q.stack.word 3) Reg.rsp = _
      rw [Function.update_self, hword 3 20 rfl]
      rfl
    · show Function.update q.regs Reg.rsp (q.stack.word 3) r = _
      rw [Function.update_of_ne hr, hregs r hr, readCpuStatus]
  · exact hword 0 17 rfl
  · dsimp only
    rw [hword 1 18 rfl]
  · exact hword 2 19 rfl
  · dsimp only
    rw [hword 4 21 rfl]

/-- The registers of the interrupted code are in its `cpu_status`. -/
theorem status_reg {e : BitVec 64} : (i.status vector e).reg r = i.regs r := by
  cases r <;> rfl

/-- The `cpu_status` of the interrupted code resumes it. -/
theorem Resumes.eq {j : Interrupted} {e : BitVec 64} (h : Resumes (i.status vector e) j) :
    j = i := by
  have hselector : ∀ x : BitVec 16, (x.setWidth 64).setWidth 16 = x := by
    intro x
    rw [BitVec.setWidth_setWidth_of_le _ (by omega), BitVec.setWidth_eq]
  apply Interrupted.ext
  · exact funext (fun r => (h.regs r).trans status_reg)
  · exact h.rip
  · exact h.cs.trans (hselector i.cs)
  · exact h.rflags
  · exact h.ss.trans (hselector i.ss)

/-- `interrupt_dispatch` gets the `cpu_status` of the interrupted code, and whatever `cpu_status` it
returns is loaded. If it returns the one that it got, the interrupted code goes on as it was. -/
theorem interrupt_faithful (i : Interrupted) (m : Memory64) (vector : BitVec 64)
    (error_code : Option (BitVec 64)) (ret : BitVec 64) :
    let d := atDispatch i m vector error_code ret
    readCpuStatus d.mem (d.regs .rdi) = i.status vector (error_code.getD 0) ∧
    (∀ p : Processor,
      (∀ r ≠ .rsp, (p.run afterDispatch).regs r = (readCpuStatus p.mem (p.regs .rax)).reg r) ∧
      (p.run afterDispatch).regs .rsp = p.regs .rax + 136 ∧
      (p.run afterDispatch).mem = p.mem ∧
      Resumes (readCpuStatus p.mem (p.regs .rax)) (iretq (p.run afterDispatch))) ∧
    ∀ p : Processor, p.regs .rax = d.regs .rdi →
      readCpuStatus p.mem (d.regs .rdi) = readCpuStatus d.mem (d.regs .rdi) →
      iretq (p.run afterDispatch) = i := by
  intro d
  have hstatus := status_atDispatch i m vector error_code ret
  refine ⟨hstatus, fun p => ?_, fun p hrax hframe => ?_⟩
  · obtain ⟨hmem, hrsp, hregs⟩ := afterDispatch_spec p
    exact ⟨hregs, hrsp, hmem, resumes_afterDispatch p⟩
  · have hresumes := resumes_afterDispatch p
    rw [hrax, hframe, hstatus] at hresumes
    exact hresumes.eq

end Potatos.Stub
