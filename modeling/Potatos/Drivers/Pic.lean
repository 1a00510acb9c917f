import Mathlib.Data.List.FinRange
import Potatos.Lib.Runs
import Potatos.Sched.InterruptPath

/-!
# The interrupt controllers

The two 8259A controllers as `init_idt` programs them, the second behind line 2 of the first, and
the acknowledgements that `interrupt_dispatch` sends. A controller offers the processor the request
of the highest priority, unless a line of that priority or a higher one is in service, and an
acknowledgement ends the service of the highest line that is.

The processor takes an interrupt whenever the flag is set, also inside a handler: `schelude` sets it
before the acknowledgement is sent. The timer has the highest priority, so no request is offered
until then (`serviced_in_turn`): every interrupt that is taken is acknowledged before another one
is, and by its own handler. What a handler does after its acknowledgement is code like any other
here. A line without a gate ends everything.
-/

namespace Potatos

open Lib Idt

/-! ## The controllers -/

/-- What a controller expects at its data port. -/
inductive Expected where
  | icw2
  | icw3
  | icw4
  | mask
  deriving DecidableEq

/-- An 8259A: the requests, the lines in service, the mask, and the initialization words. -/
structure Pic where
  irr : Fin 8 → Bool
  isr : Fin 8 → Bool
  imr : Fin 8 → Bool
  icw1 : BitVec 8
  icw2 : BitVec 8
  icw3 : BitVec 8
  icw4 : BitVec 8
  expected : Expected

namespace Pic

variable (p : Pic)

/-- The end of the service of the highest line that is in service. -/
def endOfInterrupt : Pic :=
  match (List.finRange 8).find? p.isr with
  | some n => { p with isr := Function.update p.isr n false }
  | none => p

/-- A byte at the command port: bit 4 starts the initialization, and 001 in the upper three bits is
an acknowledgement. -/
def command (v : BitVec 8) : Pic :=
  if v.getLsbD 4 then
    { p with
      irr := fun _ => false
      isr := fun _ => false
      imr := fun _ => false
      icw1 := v
      expected := .icw2 }
  else if v.getLsbD 3 = false ∧ v >>> 5 = 1 then p.endOfInterrupt
  else p

/-- A byte at the data port. -/
def data (v : BitVec 8) : Pic :=
  let fourth := if p.icw1.getLsbD 0 then Expected.icw4 else .mask
  match p.expected with
  | .icw2 => { p with icw2 := v, expected := if p.icw1.getLsbD 1 then fourth else .icw3 }
  | .icw3 => { p with icw3 := v, expected := fourth }
  | .icw4 => { p with icw4 := v, expected := .mask }
  | .mask => { p with imr := fun n => v.getLsbD n }

/-- The line that is offered: the first one that is in service or requests, unless it is in
service. -/
def offered (request : Fin 8 → Bool) : Option (Fin 8) :=
  ((List.finRange 8).find? (fun n => p.isr n || (request n && !p.imr n))).filter
    (fun n => !p.isr n)

/-- The line is taken. -/
def accept (n : Fin 8) : Pic :=
  { p with irr := Function.update p.irr n false, isr := Function.update p.isr n true }

/-- The vector of a line. -/
def vector (n : Fin 8) : BitVec 8 := (p.icw2 &&& 0xF8) ||| BitVec.ofNat 8 n

/-- A request. -/
def raise (n : Fin 8) : Pic := { p with irr := Function.update p.irr n true }

end Pic

/-- The two controllers. -/
structure Pics where
  master : Pic
  slave : Pic

def PIC_MASTER_COMMAND : BitVec 16 := 0x20

def PIC_MASTER_DATA : BitVec 16 := 0x21

def PIC_SLAVE_COMMAND : BitVec 16 := 0xA0

def PIC_SLAVE_DATA : BitVec 16 := 0xA1

def PIC_RESET : BitVec 8 := 0x11

def PIC_MASTER_REMAP_VECTOR : BitVec 8 := 0x20

def PIC_SLAVE_REMAP_VECTOR : BitVec 8 := 0x28

def PIC_SLAVE_IRQ_TO_MASTER : BitVec 8 := 0x04

def PIC_MASTER_IRQ_TO_SLAVE : BitVec 8 := 0x02

def PIC_8086_MODE : BitVec 8 := 0x01

def PIC_USE_ALL_INTERRUPTS : BitVec 8 := 0x00

namespace Pics

variable (s : Pics)

/-- `outportb` to one of the four ports. -/
def outportb (port : BitVec 16) (v : BitVec 8) : Pics :=
  if port = PIC_MASTER_COMMAND then { s with master := s.master.command v }
  else if port = PIC_MASTER_DATA then { s with master := s.master.data v }
  else if port = PIC_SLAVE_COMMAND then { s with slave := s.slave.command v }
  else if port = PIC_SLAVE_DATA then { s with slave := s.slave.data v }
  else s

/-- The writes of `init_idt` to the ports. -/
def initWrites : List (BitVec 16 × BitVec 8) :=
  [(PIC_MASTER_COMMAND, PIC_RESET), (PIC_SLAVE_COMMAND, PIC_RESET),
    (PIC_MASTER_DATA, PIC_MASTER_REMAP_VECTOR), (PIC_SLAVE_DATA, PIC_SLAVE_REMAP_VECTOR),
    (PIC_MASTER_DATA, PIC_SLAVE_IRQ_TO_MASTER), (PIC_SLAVE_DATA, PIC_MASTER_IRQ_TO_SLAVE),
    (PIC_MASTER_DATA, PIC_8086_MODE), (PIC_SLAVE_DATA, PIC_8086_MODE),
    (PIC_MASTER_DATA, PIC_USE_ALL_INTERRUPTS), (PIC_SLAVE_DATA, PIC_USE_ALL_INTERRUPTS)]

/-- The part of `init_idt` that programs the controllers. -/
def init : Pics := initWrites.foldl (fun s w => s.outportb w.1 w.2) s

/-- The requests at the first controller: line 2 is what the second one offers. -/
def requests (n : Fin 8) : Bool :=
  if n = 2 then (s.slave.offered s.slave.irr).isSome else s.master.irr n

/-- What the processor takes: the vector, and the controllers after it. -/
def acknowledge : Option (BitVec 8 × Pics) :=
  (s.master.offered s.requests).bind (fun n =>
    if n = 2 then (s.slave.offered s.slave.irr).map (fun k =>
      (s.slave.vector k, { master := s.master.accept n, slave := s.slave.accept k }))
    else some (s.master.vector n, { s with master := s.master.accept n }))

end Pics

/-! ## The processor -/

/-- What has happened to the interrupts, by vector. -/
inductive Logged where
  | taken (vector : BitVec 8)
  | acknowledged (vector : BitVec 8)
  deriving DecidableEq

/-- The controllers, the interrupt flag, what is left of the handlers up to their acknowledgements,
and what has happened. -/
structure Machine8259 where
  pics : Pics
  interruptFlag : Bool
  handling : List (List Effect)
  halted : Bool
  log : List Logged

namespace Machine8259

/-- After `init_idt`, which cleared the flag first. -/
def start (p : Pics) : Machine8259 := ⟨p.init, false, [], false, []⟩

/-- The vector that an acknowledgement to the first controller ends. -/
def ended (p : Pic) : List Logged :=
  (((List.finRange 8).find? p.isr).map (fun n => Logged.acknowledged (p.vector n))).toList

/-- One statement of a handler. -/
def exec (s : Machine8259) : Effect → Machine8259
  | .keyboard_driver_irq_handler => s
  | .eoiSlave => { s with pics := s.pics.outportb PIC_SLAVE_COMMAND PIC_EOI }
  | .schelude => { s with interruptFlag := true }
  | .eoiMaster =>
    { s with
      pics := s.pics.outportb PIC_MASTER_COMMAND PIC_EOI
      log := s.log ++ ended s.pics.master }

/-- The entry of a handler, or the end when there is no gate for an interrupt. -/
def enter (s : Machine8259) (vector : BitVec 8) (pics : Pics) : Machine8259 :=
  if (entries.lookup vector.toNat).isSome ∧ 0x20 ≤ vector then
    { s with
      pics := pics
      interruptFlag := false
      handling := effects vector :: s.handling
      log := s.log ++ [.taken vector] }
  else { s with pics := pics, interruptFlag := false, halted := true }

/-- What may happen. -/
inductive Event where
  | raise (n : Fin 8)
  | raiseSlave (n : Fin 8)
  | interrupt
  | handler
  | code

/-- One step. A device requests at any time, and the code that runs outside the handlers sets and
clears the flag as it likes. -/
inductive Step : Machine8259 → Event → Machine8259 → Prop where
  | raise {s : Machine8259} {n : Fin 8} : n ≠ 2 →
      Step s (.raise n) { s with pics := { s.pics with master := s.pics.master.raise n } }
  | raiseSlave {s : Machine8259} {n : Fin 8} :
      Step s (.raiseSlave n) { s with pics := { s.pics with slave := s.pics.slave.raise n } }
  | interrupt {s : Machine8259} {vector : BitVec 8} {pics : Pics} :
      s.halted = false → s.interruptFlag = true → s.pics.acknowledge = some (vector, pics) →
      Step s .interrupt (s.enter vector pics)
  | handler {s : Machine8259} {e : Effect} {rest : List Effect} {others : List (List Effect)} :
      s.halted = false → s.handling = (e :: rest) :: others →
      Step s .handler { s.exec e with handling := if rest = [] then others else rest :: others }
  | code {s : Machine8259} {b : Bool} : s.halted = false → s.handling = [] →
      Step s .code { s with interruptFlag := b }

/-- The log when every interrupt that was taken has been acknowledged before the next one. -/
def inTurn (vs : List (BitVec 8)) : List Logged :=
  vs.flatMap (fun v => [.taken v, .acknowledged v])

/-- Nothing is being handled, and no line is in service. -/
def Idle (s : Machine8259) (vs : List (BitVec 8)) : Prop :=
  s.handling = [] ∧ (∀ n, s.pics.master.isr n = false) ∧ s.log = inTurn vs

/-- One interrupt is being handled, that of the line `n`, and that is the only one in service. It
is the timer if another one may interrupt. -/
def Busy (s : Machine8259) (vs : List (BitVec 8)) (n : Fin 8) : Prop :=
  ∃ rest, s.handling = [rest] ∧ rest ≠ [] ∧ rest <:+ effects (s.pics.master.vector n) ∧
    (s.pics.master.isr = fun k => decide (k = n)) ∧
    s.log = inTurn vs ++ [.taken (s.pics.master.vector n)] ∧ (s.interruptFlag = true → n = 0)

/-- What holds in every state: the timer and the keyboard are all that is ever taken, in turn. -/
structure Serviced (s : Machine8259) (vs : List (BitVec 8)) : Prop where
  offset : s.pics.master.icw2 = 0x20
  slaveOffset : s.pics.slave.icw2 = 0x28
  mask : ∀ n, s.pics.master.imr n = false
  slaveIdle : s.halted = false → ∀ n, s.pics.slave.isr n = false
  slaveMask : ∀ n, s.pics.slave.imr n = false
  vectors : ∀ v ∈ vs, v = 0x20 ∨ v = 0x21
  state : if s.halted then s.log = inTurn vs
    else s.Idle vs ∨ ∃ n, (n = 0 ∨ n = 1) ∧ s.Busy vs n

end Machine8259

variable {p : Pic} {s s' : Pics} {n k : Fin 8} {request : Fin 8 → Bool}

/-! ## One controller -/

/-- A line in service keeps the ones behind it from being offered, and itself. -/
theorem Pic.offered_of_isr (h : p.isr n = true) (hk : p.offered request = some k) : k < n := by
  obtain ⟨hfind, hfree⟩ := Option.filter_eq_some_iff.mp hk
  by_contra hle
  -- The search would have stopped at the line in service, if not before.
  have hne : n ≠ k := by
    rintro rfl
    rw [h] at hfree
    cases hfree
  obtain ⟨-, as, bs, heq, hbefore⟩ := List.find?_eq_some_iff_append.mp hfind
  have hsorted : (List.finRange 8).Pairwise (· < ·) := List.pairwise_lt_finRange 8
  have hmem : n ∈ as := by
    have hn := List.mem_finRange n
    rw [heq] at hn hsorted
    rcases List.mem_append.mp hn with hn | hn
    · exact hn
    · rcases List.mem_cons.mp hn with rfl | hn
      · exact absurd rfl hne
      · have hlt := (List.pairwise_cons.mp (List.pairwise_append.mp hsorted).2.1).1 n hn
        omega
  have := hbefore n hmem
  rw [h] at this
  cases this

/-- With nothing in service and nothing masked, the first request is offered. -/
theorem Pic.offered_idle (hisr : ∀ n, p.isr n = false) (himr : ∀ n, p.imr n = false) :
    p.offered request = (List.finRange 8).find? request := by
  have hcongr : (fun n => p.isr n || (request n && !p.imr n)) = request := by
    funext n
    rw [hisr, himr]
    simp
  unfold offered
  rw [hcongr]
  cases (List.finRange 8).find? request with
  | none => rfl
  | some n => simp [Option.filter, hisr]

theorem Pic.endOfInterrupt_single (h : p.isr = fun k => decide (k = n)) :
    p.endOfInterrupt = { p with isr := fun _ => false } ∧
      (List.finRange 8).find? p.isr = some n := by
  have hall : ∀ n : Fin 8, (List.finRange 8).find? (fun k => decide (k = n)) = some n := by decide
  have hfind : (List.finRange 8).find? p.isr = some n := by rw [h, hall]
  refine ⟨?_, hfind⟩
  unfold endOfInterrupt
  rw [hfind]
  dsimp only
  congr 1
  funext k
  rw [h]
  by_cases hk : k = n
  · rw [hk, Function.update_self]
  · rw [Function.update_of_ne hk]
    exact decide_eq_false hk

theorem Pic.accept_isr (h : ∀ n, p.isr n = false) :
    (p.accept n).isr = fun k => decide (k = n) := by
  funext k
  unfold accept
  dsimp only
  by_cases hk : k = n
  · rw [hk, Function.update_self]
    exact (decide_eq_true rfl).symm
  · rw [Function.update_of_ne hk, h]
    exact (decide_eq_false hk).symm

/-- The five bytes that a controller gets. -/
theorem Pic.data_reset (p : Pic) (offset cascade : BitVec 8) :
    ((((p.command PIC_RESET).data offset).data cascade).data PIC_8086_MODE).data
      PIC_USE_ALL_INTERRUPTS = ⟨fun _ => false, fun _ => false,
        fun n => PIC_USE_ALL_INTERRUPTS.getLsbD n, 0x11, offset, cascade, 0x01, .mask⟩ := by
  have hreset : PIC_RESET.getLsbD 4 = true := by decide
  have hfourth : PIC_RESET.getLsbD 0 = true := by decide
  have hcascade : PIC_RESET.getLsbD 1 = false := by decide
  unfold command
  rw [if_pos hreset]
  simp only [data, hfourth, hcascade]
  rfl

/-- The writes of `init_idt`, whatever the controllers were at before. -/
theorem Pics.init_eq (s : Pics) : s.init =
    { master := ⟨fun _ => false, fun _ => false, fun n => PIC_USE_ALL_INTERRUPTS.getLsbD n, 0x11,
        0x20, 0x04, 0x01, .mask⟩
      slave := ⟨fun _ => false, fun _ => false, fun n => PIC_USE_ALL_INTERRUPTS.getLsbD n, 0x11,
        0x28, 0x02, 0x01, .mask⟩ } := by
  have hmaster := s.master.data_reset PIC_MASTER_REMAP_VECTOR PIC_SLAVE_IRQ_TO_MASTER
  have hslave := s.slave.data_reset PIC_SLAVE_REMAP_VECTOR PIC_MASTER_IRQ_TO_SLAVE
  have hports : s.init = Pics.mk
      (((((s.master.command PIC_RESET).data PIC_MASTER_REMAP_VECTOR).data
        PIC_SLAVE_IRQ_TO_MASTER).data PIC_8086_MODE).data PIC_USE_ALL_INTERRUPTS)
      (((((s.slave.command PIC_RESET).data PIC_SLAVE_REMAP_VECTOR).data
        PIC_MASTER_IRQ_TO_SLAVE).data PIC_8086_MODE).data PIC_USE_ALL_INTERRUPTS) := rfl
  rw [hports, hmaster, hslave]
  rfl

namespace Machine8259

variable {m m' : Machine8259} {vs : List (BitVec 8)} {v : BitVec 8} {e : Event}

theorem inTurn_append : inTurn (vs ++ [v]) = inTurn vs ++ [.taken v] ++ [.acknowledged v] := by
  unfold inTurn
  rw [List.flatMap_append, List.append_assoc]
  rfl

theorem serviced_start (p : Pics) : (start p).Serviced [] := by
  have hmask : ∀ n : Fin 8, PIC_USE_ALL_INTERRUPTS.getLsbD n = false := by decide
  unfold start
  rw [Pics.init_eq]
  exact ⟨rfl, rfl, hmask, fun _ _ => rfl, hmask, fun v hv => absurd hv List.not_mem_nil,
    Or.inl ⟨rfl, fun _ => rfl, rfl⟩⟩

/-- The lines of the first controller that have a gate, and none of the second has. -/
theorem gates (hm : m.pics.master.icw2 = 0x20) (hs : m.pics.slave.icw2 = 0x28) :
    (∀ n : Fin 8, n ≠ 2 → (entries.lookup (m.pics.master.vector n).toNat).isSome →
      n = 0 ∨ n = 1) ∧
    ∀ n : Fin 8, ¬ (entries.lookup (m.pics.slave.vector n).toNat).isSome := by
  unfold Pic.vector
  rw [hm, hs]
  decide

/-- A request changes nothing that is in service. -/
theorem Serviced.raise (h : m.Serviced vs) (p q : Pics) (hp : m.pics = p)
    (hmaster : q.master.isr = p.master.isr ∧ q.master.imr = p.master.imr ∧
      q.master.icw2 = p.master.icw2)
    (hslave : q.slave.isr = p.slave.isr ∧ q.slave.imr = p.slave.imr ∧
      q.slave.icw2 = p.slave.icw2) : Serviced { m with pics := q } vs := by
  subst hp
  obtain ⟨hisr, himr, hicw⟩ := hmaster
  obtain ⟨hisr', himr', hicw'⟩ := hslave
  have hvector : ∀ n, q.master.vector n = m.pics.master.vector n := by
    intro n
    unfold Pic.vector
    rw [hicw]
  refine ⟨hicw.trans h.offset, hicw'.trans h.slaveOffset, ?_, ?_, ?_, h.vectors, ?_⟩
  · intro n
    show q.master.imr n = false
    rw [himr]
    exact h.mask n
  · intro hhalted n
    show q.slave.isr n = false
    rw [hisr']
    exact h.slaveIdle hhalted n
  · intro n
    show q.slave.imr n = false
    rw [himr']
    exact h.slaveMask n
  · have hstate := h.state
    show if m.halted = true then m.log = inTurn vs else _
    split_ifs at hstate ⊢ with hhalted
    · exact hstate
    · rcases hstate with hidle | ⟨n, hn, hbusy⟩
      · refine Or.inl ⟨hidle.1, fun n => ?_, hidle.2.2⟩
        show q.master.isr n = false
        rw [hisr]
        exact hidle.2.1 n
      · obtain ⟨rest, hhandling, hne, hsuffix, hservice, hlog, hflag⟩ := hbusy
        refine Or.inr ⟨n, hn, rest, hhandling, hne, ?_, ?_, ?_, hflag⟩
        · show rest <:+ effects (q.master.vector n)
          rw [hvector]
          exact hsuffix
        · show q.master.isr = _
          rw [hisr]
          exact hservice
        · show m.log = inTurn vs ++ [.taken (q.master.vector n)]
          rw [hvector]
          exact hlog

/-- While an interrupt is in service, no other is taken. -/
theorem Busy.not_offered (h : m.Busy vs n) (hflag : m.interruptFlag = true) :
    m.pics.acknowledge = none := by
  obtain ⟨rest, -, -, -, hisr, -, hzero⟩ := h
  obtain rfl := hzero hflag
  have hservice : m.pics.master.isr 0 = true := by
    rw [hisr]
    rfl
  unfold Pics.acknowledge
  cases hk : m.pics.master.offered m.pics.requests with
  | none => rfl
  | some k => exact absurd (Pic.offered_of_isr hservice hk) (Fin.not_lt_zero k)

/-- Nothing is in service, and an interrupt is taken. -/
theorem Serviced.interrupt (h : m.Serviced vs) (hhalted : m.halted = false)
    (hflag : m.interruptFlag = true) {pics : Pics}
    (hack : m.pics.acknowledge = some (v, pics)) : (m.enter v pics).Serviced vs := by
  have hstate := h.state
  rw [if_neg (by rw [hhalted]; decide)] at hstate
  obtain ⟨hgates, hslave⟩ := gates h.offset h.slaveOffset
  rcases hstate with ⟨hhandling, hisr, hlog⟩ | ⟨n, -, hbusy⟩
  swap
  · rw [hbusy.not_offered hflag] at hack
    cases hack
  obtain ⟨n, hn, htaken⟩ := Option.bind_eq_some_iff.mp hack
  by_cases hline : n = 2
  · -- What comes from the second controller has no gate.
    rw [if_pos hline] at htaken
    obtain ⟨k, -, heq⟩ := Option.map_eq_some_iff.mp htaken
    obtain ⟨rfl, rfl⟩ := Prod.mk.inj heq
    unfold enter
    rw [if_neg (fun hg => hslave k hg.1)]
    exact ⟨h.offset, h.slaveOffset, h.mask, (fun hf => by cases hf), h.slaveMask, h.vectors, hlog⟩
  · rw [if_neg hline] at htaken
    obtain ⟨rfl, rfl⟩ := Prod.mk.inj (Option.some.inj htaken)
    unfold enter
    split_ifs with hgate
    · refine ⟨h.offset, h.slaveOffset, h.mask, h.slaveIdle, h.slaveMask, h.vectors, ?_⟩
      show if m.halted = true then _ else _
      rw [if_neg (by rw [hhalted]; decide)]
      refine Or.inr ⟨n, hgates n hline hgate.1, effects (m.pics.master.vector n), ?_, ?_,
        List.suffix_rfl, Pic.accept_isr hisr, ?_, fun hf => by cases hf⟩
      · show _ :: m.handling = _
        rw [hhandling]
      · unfold effects
        simp
      · show m.log ++ _ = _
        rw [hlog]
        rfl
    · exact ⟨h.offset, h.slaveOffset, h.mask, (fun hf => by cases hf), h.slaveMask, h.vectors, hlog⟩

/-- The statements of the two handlers. -/
theorem effects_line (hm : m.pics.master.icw2 = 0x20) (hn : n = 0 ∨ n = 1) :
    effects (m.pics.master.vector n) =
      [if n = 0 then Effect.schelude else .keyboard_driver_irq_handler, .eoiMaster] := by
  unfold Pic.vector
  rw [hm]
  rcases hn with rfl | rfl
  · decide
  · decide

/-- The statement before the acknowledgement, and the acknowledgement. -/
theorem Busy.handler (h : m.Serviced vs) (hhalted : m.halted = false) (hn : n = 0 ∨ n = 1)
    (hbusy : m.Busy vs n) {e : Effect} {rest : List Effect} {others : List (List Effect)}
    (hhandling : m.handling = (e :: rest) :: others) :
    ∃ vs', Serviced { m.exec e with handling := if rest = [] then others else rest :: others }
      vs' := by
  obtain ⟨rest', hlist, hne, hsuffix, hisr, hlog, hflag⟩ := hbusy
  rw [hhandling] at hlist
  obtain ⟨rfl, rfl⟩ := List.cons.inj hlist
  rw [effects_line h.offset hn] at hsuffix
  rcases List.suffix_cons_iff.mp hsuffix with heq | hsuffix
  · -- Only the timer's statement sets the flag.
    obtain ⟨he, rfl⟩ := List.cons.inj heq
    have hexec : m.exec e = { m with
        interruptFlag := if n = 0 then true else m.interruptFlag } := by
      subst he
      rcases hn with rfl | rfl
      · rfl
      · rfl
    refine ⟨vs, ?_⟩
    rw [hexec, if_neg (List.cons_ne_nil Effect.eoiMaster [])]
    refine ⟨h.offset, h.slaveOffset, h.mask, h.slaveIdle, h.slaveMask, h.vectors, ?_⟩
    show if m.halted = true then _ else _
    rw [if_neg (by rw [hhalted]; decide)]
    refine Or.inr ⟨n, hn, [.eoiMaster], rfl, by simp, ?_, hisr, hlog, fun hf => ?_⟩
    · show [Effect.eoiMaster] <:+ effects (m.pics.master.vector n)
      rw [effects_line h.offset hn]
      exact List.suffix_cons ..
    · by_contra hne'
      have hf' : (if n = 0 then true else m.interruptFlag) = true := hf
      rw [if_neg hne'] at hf'
      exact hne' (hflag hf')
  · rcases List.suffix_cons_iff.mp hsuffix with heq | hsuffix
    · -- The acknowledgement ends the service of the only line.
      obtain ⟨rfl, rfl⟩ := List.cons.inj heq
      obtain ⟨hend, hfind⟩ := Pic.endOfInterrupt_single hisr
      have hcommand : m.pics.master.command PIC_EOI = m.pics.master.endOfInterrupt := by
        unfold Pic.command
        rw [if_neg (by decide), if_pos (by decide)]
      have hended : ended m.pics.master = [.acknowledged (m.pics.master.vector n)] := by
        unfold ended
        rw [hfind]
        rfl
      have hpics : m.pics.outportb PIC_MASTER_COMMAND PIC_EOI =
          { m.pics with master := { m.pics.master with isr := fun _ => false } } := by
        unfold Pics.outportb
        rw [if_pos rfl, hcommand, hend]
      refine ⟨vs ++ [m.pics.master.vector n], ?_⟩
      unfold exec
      dsimp only
      rw [hpics, hended, if_pos rfl]
      refine ⟨h.offset, h.slaveOffset, h.mask, h.slaveIdle, h.slaveMask, ?_, ?_⟩
      · intro v hv
        rcases List.mem_append.mp hv with hv | hv
        · exact h.vectors v hv
        · obtain rfl := List.mem_singleton.mp hv
          unfold Pic.vector
          rw [h.offset]
          rcases hn with rfl | rfl
          · exact Or.inl (by decide)
          · exact Or.inr (by decide)
      · show if m.halted = true then _ else _
        rw [if_neg (by rw [hhalted]; decide)]
        refine Or.inl ⟨rfl, fun _ => rfl, ?_⟩
        rw [inTurn_append, hlog]
    · rw [List.suffix_nil] at hsuffix
      cases hsuffix

/-- Every step keeps what is in service in turn. -/
theorem Serviced.step (h : m.Serviced vs) (hstep : Step m e m') : ∃ vs', m'.Serviced vs' := by
  cases hstep with
  | raise _ => exact ⟨vs, h.raise _ _ rfl ⟨rfl, rfl, rfl⟩ ⟨rfl, rfl, rfl⟩⟩
  | raiseSlave => exact ⟨vs, h.raise _ _ rfl ⟨rfl, rfl, rfl⟩ ⟨rfl, rfl, rfl⟩⟩
  | interrupt hhalted hflag hack => exact ⟨vs, h.interrupt hhalted hflag hack⟩
  | handler hhalted hhandling =>
    have hstate := h.state
    rw [if_neg (by rw [hhalted]; decide)] at hstate
    rcases hstate with hidle | ⟨n, hn, hbusy⟩
    · rw [hidle.1] at hhandling
      cases hhandling
    · exact hbusy.handler h hhalted hn hhandling
  | code hhalted hhandling =>
    refine ⟨vs, h.offset, h.slaveOffset, h.mask, h.slaveIdle, h.slaveMask, h.vectors, ?_⟩
    have hstate := h.state
    rw [if_neg (by rw [hhalted]; decide)] at hstate
    show if m.halted = true then _ else _
    rw [if_neg (by rw [hhalted]; decide)]
    rcases hstate with hidle | ⟨n, -, rest, hbusy, -⟩
    · exact Or.inl hidle
    · rw [hhandling] at hbusy
      cases hbusy

/-- From `init_idt` on, in every order of requests, interrupts and statements of the handlers: an
interrupt that is taken is acknowledged before another one is, and the acknowledgement ends the
service of its own line. As long as nothing has halted, a request is offered whenever no interrupt
is being handled. -/
theorem serviced_in_turn (p : Pics) {ts : List (Transition Machine8259 Event)}
    (hrun : Run Step (start p) ts m) :
    ∃ vs, m.Serviced vs ∧
      (m.halted = false → m.handling = [] → ∀ n, m.pics.requests n = true →
        m.pics.acknowledge.isSome) := by
  have hkeep : ∀ s a t, (∃ vs, Serviced s vs) → Step s a t → ∃ vs, Serviced t vs := by
    rintro s a t ⟨vs, h⟩ hstep
    exact h.step hstep
  obtain ⟨vs, h⟩ := hrun.invariant_all ⟨[], serviced_start p⟩ hkeep
  refine ⟨vs, h, fun hhalted hhandling n hn => ?_⟩
  have hstate := h.state
  rw [if_neg (by rw [hhalted]; decide)] at hstate
  have hisr : ∀ n, m.pics.master.isr n = false := by
    rcases hstate with hidle | ⟨n, -, rest, hbusy, -⟩
    · exact hidle.2.1
    · rw [hhandling] at hbusy
      cases hbusy
  unfold Pics.acknowledge
  rw [Pic.offered_idle hisr h.mask]
  obtain ⟨k, hk⟩ : ∃ k, (List.finRange 8).find? m.pics.requests = some k :=
    Option.isSome_iff_exists.mp (List.find?_isSome.mpr ⟨n, List.mem_finRange n, hn⟩)
  rw [hk, Option.bind_some]
  split_ifs with hline
  · -- Line 2 requests what the second controller offers.
    have hrequest := List.find?_some hk
    rw [Pics.requests, if_pos hline] at hrequest
    rw [Option.isSome_map]
    exact hrequest
  · rfl

/-- A controller with every line requested, in service and masked. -/
def busyPic : Pic := ⟨fun _ => true, fun _ => true, fun _ => true, 0, 0, 0, 0, .icw3⟩

/-- The state after an event that may happen. The code outside the handlers sets the flag. -/
def happen (s : Machine8259) : Event → Option Machine8259
  | .raise n =>
    if n ≠ 2 then some { s with pics := { s.pics with master := s.pics.master.raise n } } else none
  | .raiseSlave n => some { s with pics := { s.pics with slave := s.pics.slave.raise n } }
  | .interrupt =>
    if s.halted = false ∧ s.interruptFlag = true then
      s.pics.acknowledge.map (fun r => s.enter r.1 r.2)
    else none
  | .handler =>
    match s.handling with
    | (e :: rest) :: others =>
      if s.halted = false then
        some { s.exec e with handling := if rest = [] then others else rest :: others }
      else none
    | _ => none
  | .code =>
    if s.halted = false ∧ s.handling.isEmpty then some { s with interruptFlag := true } else none

theorem step_of_happen {t : Machine8259} {e : Event} (h : t.happen e = some m) : Step t e m := by
  cases e with
  | raise n =>
    obtain ⟨hn, h⟩ := Option.ite_none_right_eq_some.mp h
    obtain rfl := Option.some.inj h
    exact .raise hn
  | raiseSlave n =>
    obtain rfl := Option.some.inj h
    exact .raiseSlave
  | interrupt =>
    obtain ⟨⟨hhalted, hflag⟩, h⟩ := Option.ite_none_right_eq_some.mp h
    obtain ⟨⟨vector, pics⟩, hr, rfl⟩ := Option.map_eq_some_iff.mp h
    exact .interrupt hhalted hflag hr
  | handler =>
    simp only [happen] at h
    split at h
    · obtain ⟨hhalted, h⟩ := Option.ite_none_right_eq_some.mp h
      obtain rfl := Option.some.inj h
      exact .handler hhalted ‹_›
    · cases h
  | code =>
    obtain ⟨⟨hhalted, hempty⟩, h⟩ := Option.ite_none_right_eq_some.mp h
    obtain rfl := Option.some.inj h
    exact .code hhalted (List.isEmpty_iff.mp hempty)

/-- A key is pressed on controllers that were busy before, and taken. The timer ticks before the key
is acknowledged, and is taken afterwards, and another key waits while it is handled. -/
def keyAndTick : List Event :=
  [.raise 1, .code, .interrupt, .handler, .raise 0, .handler, .code, .interrupt, .raise 1,
    .handler, .handler]

theorem serviced_in_turn_key :
    ∃ ts m, Run Step (start ⟨busyPic, busyPic⟩) ts m ∧ ts.map Transition.label = keyAndTick ∧
      m.log = [.taken 0x21, .acknowledged 0x21, .taken 0x20, .acknowledged 0x20] ∧
      ∃ vs, m.Serviced vs ∧
        (m.halted = false → m.handling = [] → ∀ n, m.pics.requests n = true →
          m.pics.acknowledge.isSome) := by
  have hlog : (keyAndTick.foldlM happen (start ⟨busyPic, busyPic⟩)).map Machine8259.log =
      some [.taken 0x21, .acknowledged 0x21, .taken 0x20, .acknowledged 0x20] := by decide +kernel
  obtain ⟨m, hm, hl⟩ := Option.map_eq_some_iff.mp hlog
  have hstep : ∀ s e t, happen s e = some t → Step s e t ∧ True :=
    fun s e t h => ⟨step_of_happen h, trivial⟩
  obtain ⟨ts, hrun, hlabels, -⟩ := Run.of_foldlM (G := fun _ _ => True) hstep hm
  exact ⟨ts, m, hrun, hlabels, hl, serviced_in_turn ⟨busyPic, busyPic⟩ hrun⟩

end Machine8259

end Potatos
