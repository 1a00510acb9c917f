import Mathlib.Data.BitVec
import Potatos.Lib.PolledQueue

/-!
# The serial port

`src/drivers/serial.c` with the 16550 behind it. `init_serial` turns its FIFOs on, so a transmitter
has 16 places, and `write_serial` waits for an empty one before it writes a byte. The processes and
the handlers of interrupts write at the same time: with `DEBUG` every character of the console goes
to the serial port as well, and a process can be interrupted between the wait and the write.

Up to 16 writers this is right: no byte is lost, the line gets the bytes in the order of the writes,
and those of each writer in its own order. With more of them a byte can be lost
(`serial_accounted_iff`). What `printfs` formats is left out, a writer has the bytes that it writes.
-/

namespace Potatos

open Lib

def PORT_COM1 : BitVec 16 := 0x3f8

def INTERRUPT_REGISTER : BitVec 16 := 1

def FIFO_CONTROL_REGISTER : BitVec 16 := 2

def LINE_CONTROL_REGISTER : BitVec 16 := 3

def MODEM_CONTROL_REGISTER : BitVec 16 := 4

def LINE_STATUS_REGISTER : BitVec 16 := 5

def BAUDRATE_LEAST_SIGNIFANT : BitVec 16 := 0

def BAUDRATE_MOST_SIGNIFANT : BitVec 16 := 1

def DISABLE_INTERRUPTS : BitVec 8 := 0x00

def ENABLE_DLAB : BitVec 8 := 0x80

def BITS_8 : BitVec 8 := 0b11

def NO_PARITY : BitVec 8 := 0

def STOP_BIT : BitVec 8 := 0b000

def ENABLE_FIFO : BitVec 8 := 0b1

def INT_THRESHOLD_14 : BitVec 8 := 0b11 <<< 6

def CLEAR_RECEIVE_FIFO : BitVec 8 := 0b1 <<< 1

def CLEAR_TRANSMIT_FIFO : BitVec 8 := 0b1 <<< 2

def ENABLE_IRQ : BitVec 8 := 0b1000

def REQUEST_TO_SEND : BitVec 8 := 0b10

def DATA_TERMINAL_READY : BitVec 8 := 0b1

def TRANSMITTER_HOLDING_REGISTER_EMPTY : BitVec 8 := 0x20

/-- The registers of a 16550, the bytes in its transmitter, what it has sent, and the bytes that it
had no place for. -/
structure Uart where
  ier : BitVec 8
  fcr : BitVec 8
  lcr : BitVec 8
  mcr : BitVec 8
  dll : BitVec 8
  dlm : BitVec 8
  fifo : List (BitVec 8)
  line : List (BitVec 8)
  lost : List (BitVec 8)

namespace Uart

variable (u : Uart)

/-- The places of the transmitter. -/
def capacity : ℕ := if u.fcr.getLsbD 0 then 16 else 1

/-- A byte for the transmitter. -/
def transmit (v : BitVec 8) : Uart :=
  if u.fifo.length < u.capacity then { u with fifo := u.fifo ++ [v] }
  else { u with lost := u.lost ++ [v] }

/-- `outportb`. The first two registers are those of the divisor while the latch is open, and bit 2
of the FIFO control, or a change of its bit 0, clears the transmitter. -/
def outportb (port : BitVec 16) (v : BitVec 8) : Uart :=
  if port = PORT_COM1 then if u.lcr.getLsbD 7 then { u with dll := v } else u.transmit v
  else if port = PORT_COM1 + 1 then
    if u.lcr.getLsbD 7 then { u with dlm := v } else { u with ier := v }
  else if port = PORT_COM1 + 2 then
    { u with
      fcr := v
      fifo := if v.getLsbD 2 ∨ v.getLsbD 0 ≠ u.fcr.getLsbD 0 then [] else u.fifo }
  else if port = PORT_COM1 + 3 then { u with lcr := v }
  else if port = PORT_COM1 + 4 then { u with mcr := v }
  else u

/-- `inportb` of the line status: the bit of an empty transmitter. -/
def inportb (port : BitVec 16) : BitVec 8 :=
  if port = PORT_COM1 + LINE_STATUS_REGISTER then if u.fifo.isEmpty then 0x20 else 0 else 0

/-- The writes of `init_serial`. -/
def initWrites : List (BitVec 16 × BitVec 8) :=
  [(PORT_COM1 + INTERRUPT_REGISTER, DISABLE_INTERRUPTS),
    (PORT_COM1 + LINE_CONTROL_REGISTER, ENABLE_DLAB),
    (PORT_COM1 + BAUDRATE_LEAST_SIGNIFANT, 0x03),
    (PORT_COM1 + BAUDRATE_MOST_SIGNIFANT, 0x00),
    (PORT_COM1 + LINE_CONTROL_REGISTER, BITS_8 ||| NO_PARITY ||| STOP_BIT),
    (PORT_COM1 + FIFO_CONTROL_REGISTER,
      ENABLE_FIFO ||| INT_THRESHOLD_14 ||| CLEAR_RECEIVE_FIFO ||| CLEAR_TRANSMIT_FIFO),
    (PORT_COM1 + MODEM_CONTROL_REGISTER, ENABLE_IRQ ||| REQUEST_TO_SEND ||| DATA_TERMINAL_READY)]

/-- `init_serial`. -/
def initSerial : Uart := initWrites.foldl (fun u w => u.outportb w.1 w.2) u

/-- `is_transmit_empty`. -/
def isTransmitEmpty : BitVec 8 :=
  u.inportb (PORT_COM1 + LINE_STATUS_REGISTER) &&& TRANSMITTER_HOLDING_REGISTER_EMPTY

end Uart

/-- The port, the writers that have left the loop of `write_serial`, what each has still to write,
and the writes so far. -/
structure SerialSystem (ι : Type) where
  uart : Uart
  left : ι → Bool
  rest : ι → List (BitVec 8)
  log : List (ι × BitVec 8)

namespace SerialSystem

variable {ι : Type} [DecidableEq ι]

/-- One round of the loop of `write_serial`, the write behind it, or a byte that is sent. -/
inductive Step : SerialSystem ι → PolledEvent ι → SerialSystem ι → Prop where
  | poll {s : SerialSystem ι} {i : ι} : s.rest i ≠ [] → s.left i = false →
      Step s (.poll i)
        { s with left := Function.update s.left i (decide (s.uart.isTransmitEmpty ≠ 0)) }
  | write {s : SerialSystem ι} {i : ι} {ch : BitVec 8} {chs : List (BitVec 8)} :
      s.left i = true → s.rest i = ch :: chs →
      Step s (.write i)
        { uart := s.uart.outportb PORT_COM1 ch
          left := Function.update s.left i false
          rest := Function.update s.rest i chs
          log := s.log ++ [(i, ch)] }
  | send {s : SerialSystem ι} {ch : BitVec 8} {chs : List (BitVec 8)} : s.uart.fifo = ch :: chs →
      Step s .send
        { s with uart := { s.uart with fifo := chs, line := s.uart.line ++ [ch] } }

/-- After `init_serial`, with a text for each writer, when nothing has been lost before. -/
def start (u : Uart) (texts : ι → List (BitVec 8)) : SerialSystem ι :=
  ⟨({ u with lost := [] } : Uart).initSerial, fun _ => false, texts, []⟩

/-- Nothing is lost, the line gets the bytes in the order of the writes, and each writer has written
a first part of its text. -/
structure Accounted (u : Uart) (texts : ι → List (BitVec 8)) (s : SerialSystem ι) : Prop where
  lost : s.uart.lost = []
  order : s.uart.line ++ s.uart.fifo = u.line ++ s.log.map Prod.snd
  own : ∀ i, (s.log.filter (fun x => x.1 = i)).map Prod.snd ++ s.rest i = texts i

/-- The queue that the port is. -/
def toQueue (s : SerialSystem ι) : PolledQueue ι (BitVec 8) :=
  ⟨s.uart.fifo, s.uart.line, s.uart.lost, s.left, s.rest, s.log⟩

/-- The port is set up, and the queue is its own. -/
structure Shows (s : SerialSystem ι) (q : PolledQueue ι (BitVec 8)) : Prop where
  latch : s.uart.lcr.getLsbD 7 = false
  fifo : s.uart.fcr.getLsbD 0 = true
  queue : q = s.toQueue

end SerialSystem

variable {ι : Type} [DecidableEq ι] {u : Uart} {s t : SerialSystem ι}
  {q q' : PolledQueue ι (BitVec 8)} {e : PolledEvent ι} {texts : ι → List (BitVec 8)}

namespace Uart

variable {v : BitVec 8}

theorem outportb_lineControl :
    u.outportb (PORT_COM1 + LINE_CONTROL_REGISTER) v = { u with lcr := v } := by
  unfold outportb
  rw [if_neg (by decide), if_neg (by decide), if_neg (by decide), if_pos (by decide)]

theorem outportb_modemControl :
    u.outportb (PORT_COM1 + MODEM_CONTROL_REGISTER) v = { u with mcr := v } := by
  unfold outportb
  rw [if_neg (by decide), if_neg (by decide), if_neg (by decide), if_neg (by decide),
    if_pos (by decide)]

theorem outportb_fifoControl (hclear : v.getLsbD 2 = true) :
    u.outportb (PORT_COM1 + FIFO_CONTROL_REGISTER) v = { u with fcr := v, fifo := [] } := by
  unfold outportb
  rw [if_neg (by decide), if_neg (by decide), if_pos (by decide), if_pos (Or.inl hclear)]

/-- The second register, by the latch. -/
theorem outportb_second : u.outportb (PORT_COM1 + 1) v =
    if u.lcr.getLsbD 7 then { u with dlm := v } else { u with ier := v } := by
  unfold outportb
  rw [if_neg (by decide), if_pos rfl]

theorem outportb_latch (hlatch : u.lcr.getLsbD 7 = true) :
    u.outportb PORT_COM1 v = { u with dll := v } := by
  unfold outportb
  rw [if_pos rfl, if_pos hlatch]

/-- What `init_serial` sets. The interrupts stay as they were when the latch was open before. -/
theorem initSerial_eq (u : Uart) : u.initSerial =
    { ier := if u.lcr.getLsbD 7 then u.ier else DISABLE_INTERRUPTS
      fcr := 0xC7, lcr := 0x03, mcr := 0x0B, dll := 0x03, dlm := 0x00
      fifo := [], line := u.line, lost := u.lost } := by
  have hopen : ENABLE_DLAB.getLsbD 7 = true := by decide
  have hclear : (ENABLE_FIFO ||| INT_THRESHOLD_14 ||| CLEAR_RECEIVE_FIFO |||
    CLEAR_TRANSMIT_FIFO).getLsbD 2 = true := by decide
  -- The divisor, with the latch open.
  have hdivisor : ∀ w : Uart, ((w.outportb (PORT_COM1 + LINE_CONTROL_REGISTER)
      ENABLE_DLAB).outportb PORT_COM1 0x03).outportb (PORT_COM1 + 1) 0x00 =
        { w with lcr := ENABLE_DLAB, dll := 0x03, dlm := 0x00 } := by
    intro w
    rw [outportb_lineControl, outportb_latch (u := { w with lcr := ENABLE_DLAB }) hopen,
      outportb_second, if_pos hopen]
  have hcontrol : ∀ w : Uart, ((w.outportb (PORT_COM1 + LINE_CONTROL_REGISTER)
      (BITS_8 ||| NO_PARITY ||| STOP_BIT)).outportb (PORT_COM1 + FIFO_CONTROL_REGISTER)
      (ENABLE_FIFO ||| INT_THRESHOLD_14 ||| CLEAR_RECEIVE_FIFO ||| CLEAR_TRANSMIT_FIFO)).outportb
      (PORT_COM1 + MODEM_CONTROL_REGISTER)
      (ENABLE_IRQ ||| REQUEST_TO_SEND ||| DATA_TERMINAL_READY) =
        { w with fcr := 0xC7, lcr := 0x03, mcr := 0x0B, fifo := [] } := by
    intro w
    rw [outportb_lineControl, outportb_fifoControl (u := { w with lcr := _ }) hclear,
      outportb_modemControl]
    rfl
  have hports : u.initSerial = _ := (hcontrol _).trans (congrArg (fun w : Uart =>
    { w with fcr := 0xC7, lcr := 0x03, mcr := 0x0B, fifo := [] })
    (hdivisor (u.outportb (PORT_COM1 + 1) DISABLE_INTERRUPTS)))
  rw [hports, outportb_second]
  -- The first write goes to the divisor when the latch is open.
  split_ifs
  · rfl
  · rfl

end Uart

theorem Uart.isTransmitEmpty_iff : u.isTransmitEmpty ≠ 0 ↔ u.fifo.isEmpty = true := by
  unfold isTransmitEmpty inportb
  rw [if_pos rfl]
  cases u.fifo.isEmpty
  · decide
  · decide

namespace SerialSystem

omit [DecidableEq ι] in
theorem shows_start : (start u texts).Shows (.start u.line texts) := by
  have hlatch : (0x03 : BitVec 8).getLsbD 7 = false := by decide
  have hfifo : (0xC7 : BitVec 8).getLsbD 0 = true := by decide
  unfold start
  rw [Uart.initSerial_eq]
  exact ⟨hlatch, hfifo, rfl⟩

omit [DecidableEq ι] in
/-- With the latch closed, a write to the port is one to the transmitter. -/
theorem Shows.outportb (h : s.Shows q) (ch : BitVec 8) :
    s.uart.outportb PORT_COM1 ch = s.uart.transmit ch := by
  have hlatch := h.latch
  unfold Uart.outportb
  rw [if_pos rfl, if_neg (by rw [hlatch]; decide)]

/-- The transmitter is a queue of 16 places. -/
theorem Shows.push (h : s.Shows q) (i : ι) (ch : BitVec 8) (chs : List (BitVec 8)) :
    Shows ⟨s.uart.transmit ch, Function.update s.left i false, Function.update s.rest i chs,
      s.log ++ [(i, ch)]⟩ (q.push 16 i ch chs) := by
  obtain ⟨hlatch, hfifo, rfl⟩ := h
  have hcapacity : s.uart.capacity = 16 := if_pos hfifo
  unfold Uart.transmit PolledQueue.push toQueue
  rw [hcapacity]
  dsimp only
  split_ifs
  · exact ⟨hlatch, hfifo, rfl⟩
  · exact ⟨hlatch, hfifo, rfl⟩

omit [DecidableEq ι] in
/-- What `write_serial` sees is whether the queue is empty. -/
theorem Shows.poll (h : s.Shows q) :
    decide (s.uart.isTransmitEmpty ≠ 0) = q.queue.isEmpty := by
  obtain ⟨-, -, rfl⟩ := h
  rw [Bool.eq_iff_iff, decide_eq_true_eq]
  exact Uart.isTransmitEmpty_iff

/-- Every step of the port and the writers is one of the queue. -/
theorem Shows.step (h : s.Shows q) (hstep : Step s e t) :
    ∃ q', PolledQueue.Step 16 q e q' ∧ t.Shows q' := by
  cases hstep with
  | @poll i hrest hleft =>
    rw [h.poll]
    obtain ⟨hlatch, hfifo, rfl⟩ := h
    exact ⟨_, .poll hrest hleft, hlatch, hfifo, rfl⟩
  | @write i ch chs hleft hrest =>
    rw [h.outportb]
    refine ⟨_, .write ?_ ?_, h.push i ch chs⟩
    · rw [h.queue]
      exact hleft
    · rw [h.queue]
      exact hrest
  | @send ch chs hqueue =>
    obtain ⟨hlatch, hfifo, rfl⟩ := h
    exact ⟨_, .send hqueue, hlatch, hfifo, rfl⟩

/-- Every step of the queue is one of the port and the writers. -/
theorem Shows.stepQueue (h : s.Shows q) (hstep : PolledQueue.Step 16 q e q') :
    ∃ t, Step s e t ∧ t.Shows q' := by
  cases hstep with
  | @poll i hrest hready =>
    rw [← h.poll]
    obtain ⟨hlatch, hfifo, rfl⟩ := h
    exact ⟨_, .poll hrest hready, hlatch, hfifo, rfl⟩
  | @write i ch chs hready hrest =>
    have hpush := h.push i ch chs
    rw [← h.outportb] at hpush
    rw [h.queue] at hready hrest
    exact ⟨_, .write hready hrest, hpush⟩
  | @send ch chs hqueue =>
    obtain ⟨hlatch, hfifo, rfl⟩ := h
    exact ⟨_, .send hqueue, hlatch, hfifo, rfl⟩

/-- From `init_serial` on, in every order of the loops, the writes and the bytes that are sent:
everything that is written is accounted for if and only if there are at most 16 writers. -/
theorem serial_accounted_iff [Fintype ι] (u : Uart) :
    (∀ texts ts (s : SerialSystem ι), Run Step (start u texts) ts s → s.Accounted u texts) ↔
      Fintype.card ι ≤ 16 := by
  constructor
  · intro hall
    by_contra hcard
    obtain ⟨ts, q, hrun, hlost⟩ := PolledQueue.exists_lost u.line (not_le.mp hcard)
      (fun _ => List.cons_ne_nil 0 [])
    have hsim : ∀ (q : PolledQueue ι (BitVec 8)) e q' s, Shows s q → PolledQueue.Step 16 q e q' →
        ∃ s', Step s e s' ∧ Shows s' q' := fun _ _ _ _ h hstep => h.stepQueue hstep
    obtain ⟨us, s, hrun', hshows, -⟩ := hrun.simulate (shows_start (u := u)) hsim
    have haccounted := hall _ _ s hrun'
    apply hlost
    rw [hshows.queue]
    exact haccounted.lost
  · intro hcard texts ts s hrun
    have hsim : ∀ (s : SerialSystem ι) e s' q, Shows s q → Step s e s' →
        ∃ q', PolledQueue.Step 16 q e q' ∧ Shows s' q' := fun _ _ _ _ h hstep => h.step hstep
    obtain ⟨us, q, hrun', hshows, -⟩ := hrun.simulate shows_start hsim
    obtain ⟨hlost, horder, hown⟩ := PolledQueue.accounted_of_run hcard hrun'
    rw [hshows.queue] at hlost horder hown
    exact ⟨hlost, horder, hown⟩

end SerialSystem

end Potatos
