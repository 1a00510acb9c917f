import Potatos.Console.Numerals
import Potatos.Lib.Runs

/-!
# The keyboard driver

`src/drivers/keyboard.c` with the keyboard in front of it. A key sends its code when it is pressed,
and its code with the bit `RELEASE` when it is released. Some keys send `0xE0` before that. The
handler gets one byte at a time, and the bytes of a key are not interrupted by those of another.

The modifier `SHIFT` is one bit for two keys, and the handler forgets the prefix as soon as it has
seen it. `shift_follows_iff` says which bytes it then takes wrongly: the release of one shift key
while the other one is held, and codes behind the prefix that are shift keys without it.
-/

namespace Potatos

open Lib

structure KeyEvent where
  keycode : BitVec 8
  status_mask : BitVec 8
  deriving DecidableEq

def maxKeybBufferSize : ℕ := 255

def normalState : BitVec 8 := 0
def prefixState : BitVec 8 := 1

/-- `1 << SHIFT_MASK`. -/
def shiftMask : BitVec 8 := 1 <<< 3

def RELEASE : BitVec 8 := 128

def keyShiftL : BitVec 8 := 42
def keyShiftR : BitVec 8 := 54

/-- The cases of `keyboard_get_printable_char`: the key code, the character without shift and the
one with it. What is not ASCII is the last byte of its encoding. -/
def printableChars : List (BitVec 8 × BitVec 8 × BitVec 8) :=
  [(41, 0xA7, 0xBD), (2, chr '1', chr '!'), (3, chr '2', 34), (4, chr '3', chr '#'),
    (5, chr '4', 0xA4), (6, chr '5', chr '%'), (7, chr '6', chr '&'), (8, chr '7', chr '/'),
    (9, chr '8', chr '('), (10, chr '9', chr ')'), (11, chr '0', chr '='),
    (12, chr '+', chr '?'), (14, 14, 14),
    (16, chr 'q', chr 'Q'), (17, chr 'w', chr 'W'), (18, chr 'e', chr 'E'),
    (19, chr 'r', chr 'R'), (20, chr 't', chr 'T'), (21, chr 'y', chr 'Y'),
    (22, chr 'u', chr 'U'), (23, chr 'i', chr 'I'), (24, chr 'o', chr 'O'),
    (25, chr 'p', chr 'P'), (27, 0xA8, chr '^'),
    (30, chr 'a', chr 'A'), (31, chr 's', chr 'S'), (32, chr 'd', chr 'D'),
    (33, chr 'f', chr 'F'), (34, chr 'g', chr 'G'), (35, chr 'h', chr 'H'),
    (36, chr 'j', chr 'J'), (37, chr 'k', chr 'K'), (38, chr 'l', chr 'L'),
    (43, 39, chr '*'),
    (86, chr '<', chr '>'), (44, chr 'z', chr 'Z'), (45, chr 'x', chr 'X'),
    (46, chr 'c', chr 'C'), (47, chr 'v', chr 'V'), (48, chr 'b', chr 'B'),
    (49, chr 'n', chr 'N'), (50, chr 'm', chr 'M'), (51, chr ',', chr ';'),
    (52, chr '.', chr ':'), (53, chr '-', chr '_'), (57, chr ' ', chr ' '),
    (28, 10, 10)]

/-- `keyboard_get_printable_char`. Its `shifted` is true without the modifier. -/
def keyboardGetPrintableChar (key : KeyEvent) : BitVec 8 :=
  let shifted := key.status_mask &&& shiftMask = 0
  match printableChars.lookup key.keycode with
  | some (lower, upper) => if shifted then lower else upper
  | none => 0

/-- The variables of the driver, and the characters that it has printed. -/
structure Keyboard where
  keyboard_buffer : ℕ → KeyEvent
  buf_position : BitVec 8
  current_state : BitVec 8
  current_modifiers : BitVec 8
  printed : List (BitVec 8)

/-- `keyboard_driver_irq_handler`, with the byte that it reads from the data port. -/
def keyboardDriverIrqHandler (kb : Keyboard) (scancode : BitVec 8) : Keyboard :=
  if scancode = 0xE0 then { kb with current_state := prefixState }
  else
    let current_state := if kb.current_state = prefixState then normalState else kb.current_state
    let current_modifiers :=
      if scancode = keyShiftL ∨ scancode = keyShiftR then kb.current_modifiers ||| shiftMask
      else kb.current_modifiers
    let current_modifiers :=
      if scancode = keyShiftL + RELEASE ∨ scancode = keyShiftR + RELEASE then
        current_modifiers &&& ~~~shiftMask
      else current_modifiers
    let event := ⟨scancode, current_modifiers⟩
    let key := keyboardGetPrintableChar event
    { keyboard_buffer := Function.update kb.keyboard_buffer kb.buf_position.toNat event
      buf_position := BitVec.ofNat 8 ((kb.buf_position.toNat + 1) % maxKeybBufferSize)
      current_state := current_state
      current_modifiers := current_modifiers
      printed := if key ≠ 0 then kb.printed ++ [key] else kb.printed }

/-! ## The keys -/

/-- A key, by its code and whether the prefix comes before it. -/
structure Key where
  extended : Bool
  code : BitVec 7
  deriving DecidableEq

/-- A key that is pressed or released. A key that is held sends its press again and again. -/
structure KeyAction where
  key : Key
  release : Bool
  deriving DecidableEq

/-- The byte of the key itself. -/
def KeyAction.scancode (a : KeyAction) : BitVec 8 :=
  a.key.code.setWidth 8 + if a.release then RELEASE else 0

/-- A code that is one of the shift keys when there is no prefix. -/
def Key.ShiftCode (k : Key) : Prop := k.code = 42 ∨ k.code = 54

def Key.shiftL : Key := ⟨false, 42⟩
def Key.shiftR : Key := ⟨false, 54⟩

/-- The driver, the keys that are held, and the key whose prefix has been sent. -/
structure Typing where
  kb : Keyboard
  held : Key → Bool
  sent : Option KeyAction

/-- The bytes that the driver gets. -/
inductive Delivery where
  | e0 (a : KeyAction)
  | code (a : KeyAction)

namespace Typing

/-- A shift key is held. -/
def ShiftHeld (s : Typing) : Prop := s.held Key.shiftL = true ∨ s.held Key.shiftR = true

/-- The state after the next byte. -/
def next (s : Typing) : Delivery → Typing
  | .e0 a => { s with kb := keyboardDriverIrqHandler s.kb 0xE0, sent := some a }
  | .code a =>
    ⟨keyboardDriverIrqHandler s.kb a.scancode, Function.update s.held a.key (!a.release), none⟩

/-- The bytes that can come next. Only a key that is held is released. -/
def Next (s : Typing) : Delivery → Prop
  | .e0 a => (a.release = true → s.held a.key = true) ∧ a.key.extended = true ∧ s.sent = none
  | .code a => (a.release = true → s.held a.key = true) ∧
      s.sent = if a.key.extended then some a else none

def step (s : Typing) (d : Delivery) (t : Typing) : Prop := s.Next d ∧ t = s.next d

/-- After `init_keyboard`, with no key held. -/
def start : Typing := ⟨⟨fun _ => ⟨0, 0⟩, 0, normalState, 0, []⟩, fun _ => false, none⟩

end Typing

/-- The bit `SHIFT` of a mask. -/
def ShiftBit (mask : BitVec 8) : Prop := mask &&& shiftMask ≠ 0

/-- After a byte, the modifier is set if and only if a shift key is held, and the event that was
recorded has it too. -/
def ShiftFollows (x : Transition Typing Delivery) : Prop :=
  (ShiftBit x.post.kb.current_modifiers ↔ x.post.ShiftHeld) ∧
    ∀ a, x.label = .code a → a.scancode ≠ 0xE0 →
      x.pre.kb.buf_position.toNat < maxKeybBufferSize ∧
      ∃ mask, x.post.kb.keyboard_buffer x.pre.kb.buf_position.toNat = ⟨a.scancode, mask⟩ ∧
        (ShiftBit mask ↔ x.post.ShiftHeld)

/-- The bytes that the handler takes for what they are. A shift key is released when the other one
is not held. Behind the prefix, the code of a shift key is pressed while a shift key is held, and
released while none is. -/
def Typing.Plain (s : Typing) : Delivery → Prop
  | .e0 _ => True
  | .code a => a.key.ShiftCode →
    if a.key.extended then (s.ShiftHeld ↔ a.release = false)
    else a.release = true → ∀ k, k = Key.shiftL ∨ k = Key.shiftR → k ≠ a.key → s.held k = false

variable {kb : Keyboard} {scancode : BitVec 8} {a : KeyAction} {s t u : Typing} {d : Delivery}
  {ts : List (Transition Typing Delivery)}

/-! ## The handler -/

theorem shiftBit_or (m : BitVec 8) : ShiftBit (m ||| shiftMask) := by
  intro h
  have hbit := congrArg (fun v : BitVec 8 => v.getLsbD 3) h
  simp [shiftMask] at hbit

theorem not_shiftBit_andNot (m : BitVec 8) : ¬ ShiftBit (m &&& ~~~shiftMask) := by
  rw [ShiftBit, not_not, BitVec.and_assoc]
  simp [shiftMask]

/-- What a byte that is not the prefix does to the modifiers. -/
theorem handler_modifiers (h : scancode ≠ 0xE0) :
    (keyboardDriverIrqHandler kb scancode).current_modifiers =
      if scancode = keyShiftL + RELEASE ∨ scancode = keyShiftR + RELEASE then
        (if scancode = keyShiftL ∨ scancode = keyShiftR then kb.current_modifiers ||| shiftMask
          else kb.current_modifiers) &&& ~~~shiftMask
      else if scancode = keyShiftL ∨ scancode = keyShiftR then kb.current_modifiers ||| shiftMask
        else kb.current_modifiers := by
  unfold keyboardDriverIrqHandler
  rw [if_neg h]

/-- What a byte does to the modifier. -/
theorem shiftBit_handler :
    ShiftBit (keyboardDriverIrqHandler kb scancode).current_modifiers ↔
      (scancode = keyShiftL ∨ scancode = keyShiftR) ∨
        (ShiftBit kb.current_modifiers ∧
          ¬ (scancode = keyShiftL + RELEASE ∨ scancode = keyShiftR + RELEASE)) := by
  by_cases hprefix : scancode = 0xE0
  · -- The prefix is no shift key, and changes nothing.
    subst hprefix
    have hcode : ¬ ((0xE0 : BitVec 8) = keyShiftL ∨ (0xE0 : BitVec 8) = keyShiftR) := by decide
    have hrel : ¬ ((0xE0 : BitVec 8) = keyShiftL + RELEASE ∨
        (0xE0 : BitVec 8) = keyShiftR + RELEASE) := by decide
    have hkeep : (keyboardDriverIrqHandler kb 0xE0).current_modifiers = kb.current_modifiers := rfl
    rw [hkeep, or_iff_right hcode, and_iff_left hrel]
  · rw [handler_modifiers hprefix]
    by_cases hpress : scancode = keyShiftL ∨ scancode = keyShiftR
    · -- A press is not a release.
      have hrel : ¬ (scancode = keyShiftL + RELEASE ∨ scancode = keyShiftR + RELEASE) := by
        rcases hpress with rfl | rfl
        · decide
        · decide
      rw [if_pos hpress, if_neg hrel]
      exact iff_of_true (shiftBit_or _) (Or.inl hpress)
    · rw [if_neg hpress, or_iff_right hpress]
      split_ifs with hrel
      · exact iff_of_false (not_shiftBit_andNot _) (fun h => h.2 hrel)
      · rw [and_iff_left hrel]

/-- Every byte but the prefix is recorded, with the modifiers that the handler then has. -/
theorem handler_records (h : scancode ≠ 0xE0) :
    (keyboardDriverIrqHandler kb scancode).keyboard_buffer kb.buf_position.toNat =
      ⟨scancode, (keyboardDriverIrqHandler kb scancode).current_modifiers⟩ := by
  unfold keyboardDriverIrqHandler
  rw [if_neg h]
  exact Function.update_self ..

/-- The position stays in the buffer. -/
theorem handler_buf_position (h : kb.buf_position.toNat < maxKeybBufferSize) :
    (keyboardDriverIrqHandler kb scancode).buf_position.toNat < maxKeybBufferSize := by
  by_cases hprefix : scancode = 0xE0
  · subst hprefix
    exact h
  · have hnext : (keyboardDriverIrqHandler kb scancode).buf_position =
        BitVec.ofNat 8 ((kb.buf_position.toNat + 1) % maxKeybBufferSize) := by
      unfold keyboardDriverIrqHandler
      rw [if_neg hprefix]
    rw [hnext, BitVec.toNat_ofNat]
    exact (Nat.mod_le _ _).trans_lt (Nat.mod_lt _ (by decide))

/-- The bytes of a shift code. -/
theorem scancode_press :
    (a.scancode = keyShiftL ∨ a.scancode = keyShiftR) ↔ a.release = false ∧ a.key.ShiftCode := by
  obtain ⟨⟨extended, code⟩, release⟩ := a
  unfold KeyAction.scancode Key.ShiftCode keyShiftL keyShiftR RELEASE
  dsimp only
  cases release <;> simp <;> bv_omega

theorem scancode_release :
    (a.scancode = keyShiftL + RELEASE ∨ a.scancode = keyShiftR + RELEASE) ↔
      a.release = true ∧ a.key.ShiftCode := by
  obtain ⟨⟨extended, code⟩, release⟩ := a
  unfold KeyAction.scancode Key.ShiftCode keyShiftL keyShiftR RELEASE
  dsimp only
  cases release <;> simp <;> bv_omega

/-- A key that sends a shift code without the prefix is a shift key. -/
theorem Key.ShiftCode.key_eq {k : Key} (h : k.ShiftCode) (hext : ¬ k.extended = true) :
    k = Key.shiftL ∨ k = Key.shiftR := by
  obtain ⟨extended, code⟩ := k
  obtain rfl : extended = false := Bool.eq_false_iff.mpr hext
  rcases h with h | h
  · exact Or.inl (congrArg (Key.mk false) h)
  · exact Or.inr (congrArg (Key.mk false) h)

/-! ## Runs -/

namespace Typing

/-- The modifier is right, and the position is in the buffer. -/
structure Right (s : Typing) : Prop where
  bit : ShiftBit s.kb.current_modifiers ↔ s.ShiftHeld
  position : s.kb.buf_position.toNat < maxKeybBufferSize

theorem right_start : start.Right where
  bit := by simp [start, ShiftBit, ShiftHeld]
  position := by decide

theorem ShiftHeld.congr (hl : s.held Key.shiftL = t.held Key.shiftL)
    (hr : s.held Key.shiftR = t.held Key.shiftR) : s.ShiftHeld ↔ t.ShiftHeld := by
  unfold ShiftHeld
  rw [hl, hr]

/-- A byte that is no shift key's leaves the shift keys as they are. -/
theorem shiftHeld_of_other {v : Bool} (hl : a.key ≠ Key.shiftL) (hr : a.key ≠ Key.shiftR)
    (ht : t.held = Function.update s.held a.key v) : t.ShiftHeld ↔ s.ShiftHeld := by
  apply ShiftHeld.congr
  · rw [ht, Function.update_of_ne hl.symm]
  · rw [ht, Function.update_of_ne hr.symm]

/-- The modifier after the byte of a key is right if and only if the handler takes it for what it
is. -/
theorem bit_code_iff (hs : s.Right) (ht : t = s.next (.code a)) :
    (ShiftBit t.kb.current_modifiers ↔ t.ShiftHeld) ↔ s.Plain (.code a) := by
  have hkb : t.kb = keyboardDriverIrqHandler s.kb a.scancode := by rw [ht, next]
  have hheld : t.held = Function.update s.held a.key (!a.release) := by rw [ht, next]
  rw [hkb, shiftBit_handler, scancode_press, scancode_release, hs.bit, Plain]
  by_cases hcode : a.key.ShiftCode
  · by_cases hext : a.key.extended = true
    · -- Behind the prefix it is another key.
      have hl : a.key ≠ Key.shiftL := fun h => by simp [h, Key.shiftL] at hext
      have hr : a.key ≠ Key.shiftR := fun h => by simp [h, Key.shiftR] at hext
      rw [shiftHeld_of_other hl hr hheld, if_pos hext]
      simp only [hcode, and_true]
      cases a.release <;> simp
    · -- One of the two shift keys, whose own state is now known.
      rw [if_neg hext]
      have hne : Key.shiftL ≠ Key.shiftR := by decide
      rcases hcode.key_eq hext with hkey | hkey
      · have ht' : t.ShiftHeld ↔ a.release = false ∨ s.held Key.shiftR = true := by
          rw [ShiftHeld, hheld, hkey, Function.update_self, Function.update_of_ne hne.symm]
          simp
        rw [ht', hkey]
        cases a.release <;> simp [Key.ShiftCode, Key.shiftL, Key.shiftR]
      · have ht' : t.ShiftHeld ↔ s.held Key.shiftL = true ∨ a.release = false := by
          rw [ShiftHeld, hheld, hkey, Function.update_self, Function.update_of_ne hne]
          simp
        rw [ht', hkey]
        cases a.release <;> simp [Key.ShiftCode, Key.shiftL, Key.shiftR]
  · have hl : a.key ≠ Key.shiftL := fun h => hcode (h ▸ Or.inl rfl)
    have hr : a.key ≠ Key.shiftR := fun h => hcode (h ▸ Or.inr rfl)
    rw [shiftHeld_of_other hl hr hheld]
    simp only [hcode, and_false, false_or, not_false_eq_true, and_true]
    simp

/-- The same with the event that is recorded. The prefix changes nothing that is seen here. -/
theorem follows_iff (hs : s.Right) (hstep : s.step d t) :
    ShiftFollows ⟨s, d, t⟩ ↔ s.Plain d := by
  obtain ⟨-, ht⟩ := hstep
  cases d with
  | e0 a =>
    have hbit : ShiftBit t.kb.current_modifiers ↔ t.ShiftHeld := by
      rw [ht]
      exact hs.bit
    exact iff_of_true ⟨hbit, fun b hb => Delivery.noConfusion hb⟩ trivial
  | code a =>
    rw [← bit_code_iff hs ht]
    constructor
    · exact fun h => h.1
    · intro hbit
      refine ⟨hbit, fun b hb hne => ⟨hs.position, t.kb.current_modifiers, ?_, hbit⟩⟩
      obtain rfl := Delivery.code.inj hb
      rw [ht]
      exact handler_records hne

theorem right_step (hs : s.Right) (hstep : s.step d t) (hfollows : ShiftFollows ⟨s, d, t⟩) :
    t.Right where
  bit := hfollows.1
  position := by
    obtain ⟨-, rfl⟩ := hstep
    cases d with
    | e0 a => exact hs.position
    | code a => exact handler_buf_position hs.position

end Typing

/-- In every run, the modifier and the events follow the shift keys if and only if the handler takes
each byte for what it is. -/
theorem shift_follows_iff (h : Run Typing.step Typing.start ts s) :
    (∀ x ∈ ts, ShiftFollows x) ↔ ∀ x ∈ ts, x.pre.Plain x.label :=
  h.forall_iff Typing.right_start (fun _ _ _ hs hstep => Typing.follows_iff hs hstep)
    (fun _ _ _ hs hstep hfollows => Typing.right_step hs hstep hfollows)

/-- The transitions of the bytes `ds`. -/
def Typing.transitions (s : Typing) : List Delivery → List (Transition Typing Delivery)
  | [] => []
  | d :: ds => ⟨s, d, s.next d⟩ :: (s.next d).transitions ds

/-- Both shift keys are pressed, and the left one is released. -/
def overlap : List Delivery :=
  [.code ⟨Key.shiftL, false⟩, .code ⟨Key.shiftR, false⟩, .code ⟨Key.shiftL, true⟩]

theorem run_overlap : ∃ t, Run Typing.step Typing.start (Typing.start.transitions overlap) t := by
  refine ⟨_, .cons ⟨⟨?_, rfl⟩, rfl⟩ (.cons ⟨⟨?_, rfl⟩, rfl⟩ (.cons ⟨⟨?_, rfl⟩, rfl⟩ (.nil _)))⟩
  · decide
  · decide
  · decide

theorem shift_follows_iff_overlap :
    (∀ x ∈ Typing.start.transitions overlap, ShiftFollows x) ↔
      ∀ x ∈ Typing.start.transitions overlap, x.pre.Plain x.label :=
  shift_follows_iff run_overlap.choose_spec

/-- The modifier is lost while the right shift key is held. -/
theorem shift_lost :
    ∃ ts s, Run Typing.step Typing.start ts s ∧ ∃ x ∈ ts, ¬ ShiftFollows x := by
  obtain ⟨t, ht⟩ := run_overlap
  refine ⟨_, t, ht, _, List.mem_cons_of_mem _ (List.mem_cons_of_mem _ List.mem_cons_self), ?_⟩
  intro hfollows
  exact absurd (hfollows.1.mpr (Or.inr (by decide))) (by unfold ShiftBit; decide)

end Potatos
