import Potatos.Console.Terminal
import Potatos.Drivers.Keyboard
import Potatos.Lib.Ring

/-!
# What was typed

The handler of the keyboard over any bytes, with the devices that it prints to. `keyboard_buffer` is
a ring of 255 events, so it holds the last 255 of them, each with the modifiers that it had, and the
screen and the serial port have the printable characters of all events, in order (`keyboard_run`).

A text that can be typed has bytes for each of its characters: the press and the release of the key,
between those of the left shift key where the character needs it. A text that is typed with them is
shown as it is (`typed_shown`).
-/

namespace Potatos

open Lib

/-- The modifiers after a byte. -/
def modifiersAfter (m scancode : BitVec 8) : BitVec 8 :=
  if scancode = keyShiftL ∨ scancode = keyShiftR then m ||| shiftMask
  else if scancode = keyShiftL + RELEASE ∨ scancode = keyShiftR + RELEASE then m &&& ~~~shiftMask
  else m

/-- The events of some bytes: every byte but the prefix, with the modifiers after it. -/
def eventsOf (m : BitVec 8) : List (BitVec 8) → List KeyEvent
  | [] => []
  | scancode :: scancodes =>
    if scancode = 0xE0 then eventsOf m scancodes
    else ⟨scancode, modifiersAfter m scancode⟩ :: eventsOf (modifiersAfter m scancode) scancodes

/-- The characters of some events. -/
def charsOf (events : List KeyEvent) : List (BitVec 8) :=
  (events.map keyboardGetPrintableChar).filter (· ≠ 0)

/-- The bytes that type a character, where there are some. -/
def keysFor (ch : BitVec 8) : Option (List (BitVec 8)) :=
  match printableChars.find? (fun e => e.2.1 = ch) with
  | some e => some [e.1, e.1 + RELEASE]
  | none =>
    (printableChars.find? (fun e => e.2.2 = ch)).map
      (fun e => [keyShiftL, e.1, e.1 + RELEASE, keyShiftL + RELEASE])

/-- The bytes that type a text. -/
def typing (text : List (BitVec 8)) : List (BitVec 8) :=
  text.flatMap (fun ch => (keysFor ch).getD [])

/-- A character is signed where it is passed on. -/
def passed (text : List (BitVec 8)) : List (BitVec 32) := text.map (fun ch => ch.signExtend 32)

/-- The driver and the devices that it prints to. -/
structure Desk where
  kb : Keyboard
  terminal : Terminal

/-- `keyboard_driver_irq_handler` with its `printf("%c", key)`. -/
def Desk.irq (d : Desk) (scancode : BitVec 8) : Option Desk :=
  let kb := keyboardDriverIrqHandler d.kb scancode
  let key := keyboardGetPrintableChar (kb.keyboard_buffer d.kb.buf_position.toNat)
  if scancode ≠ 0xE0 ∧ key ≠ 0 then
    (d.terminal.putchar (key.signExtend 32)).map (fun terminal => ⟨kb, terminal⟩)
  else some ⟨kb, d.terminal⟩

variable {kb : Keyboard} {d : Desk} {m scancode ch : BitVec 8} {keys text : List (BitVec 8)}
  {scancodes : List (BitVec 8)} {e : BitVec 8 × BitVec 8 × BitVec 8} {W H : ℕ} {s s₀ : Screen}

/-! ## Events -/

/-- The handler sets the modifiers so. -/
theorem handler_modifiersAfter : (keyboardDriverIrqHandler kb scancode).current_modifiers =
    modifiersAfter kb.current_modifiers scancode := by
  by_cases hE0 : scancode = 0xE0
  · -- The prefix is no shift key, and changes nothing.
    subst hE0
    rfl
  · rw [handler_modifiers hE0]
    unfold modifiersAfter
    by_cases hpress : scancode = keyShiftL ∨ scancode = keyShiftR
    · -- A press is not a release.
      have hrel : ¬ (scancode = keyShiftL + RELEASE ∨ scancode = keyShiftR + RELEASE) := by
        rcases hpress with rfl | rfl
        · decide
        · decide
      rw [if_neg hrel, if_pos hpress, if_pos hpress]
    · rw [if_neg hpress, if_neg hpress]

theorem charsOf_append (events events' : List KeyEvent) :
    charsOf (events ++ events') = charsOf events ++ charsOf events' := by
  unfold charsOf
  rw [List.map_append, List.filter_append]

theorem charsOf_of_eq {event : KeyEvent} (h : keyboardGetPrintableChar event = 0) :
    charsOf [event] = [] :=
  List.filter_cons_of_neg (fun hne => of_decide_eq_true hne h)

theorem charsOf_of_ne {event : KeyEvent} (h : keyboardGetPrintableChar event ≠ 0) :
    charsOf [event] = [keyboardGetPrintableChar event] :=
  List.filter_cons_of_pos (decide_eq_true h)

theorem eventsOf_code (h : scancode ≠ 0xE0) :
    eventsOf m [scancode] = [⟨scancode, modifiersAfter m scancode⟩] := if_neg h

theorem eventsOf_append (keys scancodes : List (BitVec 8)) :
    eventsOf m (keys ++ scancodes) =
      eventsOf m keys ++ eventsOf (keys.foldl modifiersAfter m) scancodes := by
  induction keys generalizing m with
  | nil => rfl
  | cons key keys ih =>
    by_cases hE0 : key = 0xE0
    · subst hE0
      exact ih
    · have hcons : ∀ scancodes, eventsOf m (key :: scancodes) =
          ⟨key, modifiersAfter m key⟩ :: eventsOf (modifiersAfter m key) scancodes :=
        fun _ => if_neg hE0
      rw [List.cons_append, hcons, hcons, ih]
      rfl

/-! ## The handler -/

/-- The ring that the buffer is. -/
def Keyboard.ring (kb : Keyboard) : (ℕ → KeyEvent) × ℕ :=
  (kb.keyboard_buffer, kb.buf_position.toNat)

/-- A byte in the ring. -/
theorem handler_ring : (keyboardDriverIrqHandler kb scancode).ring =
    (eventsOf kb.current_modifiers [scancode]).foldl (ringPush maxKeybBufferSize) kb.ring := by
  by_cases hE0 : scancode = 0xE0
  · subst hE0
    rfl
  · have hbuffer : (keyboardDriverIrqHandler kb scancode).keyboard_buffer =
        Function.update kb.keyboard_buffer kb.buf_position.toNat
          ⟨scancode, (keyboardDriverIrqHandler kb scancode).current_modifiers⟩ := by
      unfold keyboardDriverIrqHandler
      rw [if_neg hE0]
    have hposition : (keyboardDriverIrqHandler kb scancode).buf_position =
        BitVec.ofNat 8 ((kb.buf_position.toNat + 1) % maxKeybBufferSize) := by
      unfold keyboardDriverIrqHandler
      rw [if_neg hE0]
    rw [handler_modifiersAfter] at hbuffer
    rw [eventsOf_code hE0, List.foldl_cons, List.foldl_nil]
    unfold Keyboard.ring ringPush
    rw [hbuffer, hposition, BitVec.toNat_ofNat]
    refine Prod.ext rfl (Nat.mod_eq_of_lt ?_)
    have hlt := Nat.mod_lt (kb.buf_position.toNat + 1) (by decide : 0 < maxKeybBufferSize)
    unfold maxKeybBufferSize at hlt ⊢
    omega

/-- A byte in what is printed. -/
theorem handler_printed : (keyboardDriverIrqHandler kb scancode).printed =
    kb.printed ++ charsOf (eventsOf kb.current_modifiers [scancode]) := by
  by_cases hE0 : scancode = 0xE0
  · subst hE0
    exact (List.append_nil _).symm
  · have hprinted : (keyboardDriverIrqHandler kb scancode).printed =
        let key := keyboardGetPrintableChar
          ⟨scancode, (keyboardDriverIrqHandler kb scancode).current_modifiers⟩
        if key ≠ 0 then kb.printed ++ [key] else kb.printed := by
      unfold keyboardDriverIrqHandler
      rw [if_neg hE0]
    rw [hprinted, handler_modifiersAfter, eventsOf_code hE0]
    dsimp only
    by_cases hkey : keyboardGetPrintableChar
        ⟨scancode, modifiersAfter kb.current_modifiers scancode⟩ = 0
    · rw [if_neg (not_not.mpr hkey), charsOf_of_eq hkey, List.append_nil]
    · rw [if_pos hkey, charsOf_of_ne hkey]

/-- The driver after any bytes, by their events. -/
theorem handlers_events (kb : Keyboard) (scancodes : List (BitVec 8)) :
    let events := eventsOf kb.current_modifiers scancodes
    let kb' := scancodes.foldl keyboardDriverIrqHandler kb
    kb'.ring = events.foldl (ringPush maxKeybBufferSize) kb.ring ∧
      kb'.printed = kb.printed ++ charsOf events ∧
      kb'.current_modifiers = scancodes.foldl modifiersAfter kb.current_modifiers := by
  induction scancodes generalizing kb with
  | nil => exact ⟨rfl, (List.append_nil _).symm, rfl⟩
  | cons scancode scancodes ih =>
    obtain ⟨hring, hprinted, hmodifiers⟩ := ih (keyboardDriverIrqHandler kb scancode)
    have hcons := eventsOf_append (m := kb.current_modifiers) [scancode] scancodes
    rw [List.singleton_append, List.foldl_cons, List.foldl_nil] at hcons
    rw [handler_modifiersAfter] at hring hprinted hmodifiers
    rw [handler_ring] at hring
    rw [handler_printed] at hprinted
    refine ⟨?_, ?_, hmodifiers⟩
    · rw [hcons, List.foldl_append]
      exact hring
    · rw [hcons, charsOf_append, ← List.append_assoc]
      exact hprinted

/-! ## What is seen -/

/-- A byte on the devices. -/
theorem Desk.irq_spec (hf : Fits W H s₀) (hsize : W * H ≤ 2^16)
    (hw : View W H s₀ s d.terminal.vga) (scancode : BitVec 8) :
    ∃ t, d.irq scancode = some ⟨keyboardDriverIrqHandler d.kb scancode, t⟩ ∧
      Printed W H s₀ s d.terminal
        (passed (charsOf (eventsOf d.kb.current_modifiers [scancode]))) t := by
  by_cases hE0 : scancode = 0xE0
  · subst hE0
    exact ⟨d.terminal, rfl, Printed.nil hw⟩
  · have hkey : (keyboardDriverIrqHandler d.kb scancode).keyboard_buffer d.kb.buf_position.toNat =
        ⟨scancode, modifiersAfter d.kb.current_modifiers scancode⟩ := by
      rw [handler_records hE0, handler_modifiersAfter]
    unfold Desk.irq
    dsimp only
    rw [hkey, eventsOf_code hE0]
    by_cases hzero : keyboardGetPrintableChar
        ⟨scancode, modifiersAfter d.kb.current_modifiers scancode⟩ = 0
    · rw [if_neg (fun h => h.2 hzero), charsOf_of_eq hzero]
      exact ⟨d.terminal, rfl, Printed.nil hw⟩
    · obtain ⟨t, ht, hp⟩ := Printed.putchar hf hsize hw ((keyboardGetPrintableChar
        ⟨scancode, modifiersAfter d.kb.current_modifiers scancode⟩).signExtend 32)
      rw [if_pos ⟨hE0, hzero⟩, charsOf_of_ne hzero, ht]
      exact ⟨t, rfl, hp⟩

/-- Any bytes on the devices: the printable characters of their events. -/
theorem Desk.irqs_spec (hf : Fits W H s₀) (hsize : W * H ≤ 2^16)
    (hw : View W H s₀ s d.terminal.vga) (scancodes : List (BitVec 8)) :
    ∃ t, scancodes.foldlM Desk.irq d = some ⟨scancodes.foldl keyboardDriverIrqHandler d.kb, t⟩ ∧
      Printed W H s₀ s d.terminal
        (passed (charsOf (eventsOf d.kb.current_modifiers scancodes))) t := by
  induction scancodes generalizing d s with
  | nil => exact ⟨d.terminal, rfl, Printed.nil hw⟩
  | cons scancode scancodes ih =>
    obtain ⟨t₁, h₁, hp₁⟩ := Desk.irq_spec hf hsize hw scancode
    obtain ⟨t, ht, hp⟩ := ih (d := ⟨keyboardDriverIrqHandler d.kb scancode, t₁⟩) hp₁.view
    have hcons := eventsOf_append (m := d.kb.current_modifiers) [scancode] scancodes
    rw [List.singleton_append, List.foldl_cons, List.foldl_nil] at hcons
    refine ⟨t, ?_, ?_⟩
    · rw [List.foldlM_cons, h₁]
      exact ht
    · dsimp only at hp
      rw [handler_modifiersAfter] at hp
      rw [hcons, charsOf_append, passed, List.map_append]
      exact hp₁.append hp

/-- After any bytes, the position is behind the last event, the ring holds the last 255 events, and
what is behind them is as it was. The printable characters of the events are on the screen and on
the serial port, in order. -/
theorem keyboard_run (hf : Fits W H s₀) (hsize : W * H ≤ 2^16)
    (hw : View W H s₀ s d.terminal.vga) (hpos : d.kb.buf_position.toNat < maxKeybBufferSize)
    (scancodes : List (BitVec 8)) :
    let p := d.kb.buf_position.toNat
    let events := eventsOf d.kb.current_modifiers scancodes
    ∃ d', scancodes.foldlM Desk.irq d = some d' ∧
      d'.kb.buf_position.toNat = (p + events.length) % maxKeybBufferSize ∧
      (∀ j e, events[j]? = some e → events.length ≤ j + maxKeybBufferSize →
        d'.kb.keyboard_buffer ((p + j) % maxKeybBufferSize) = e) ∧
      (∀ k, (∀ j < events.length, (p + j) % maxKeybBufferSize ≠ k) →
        d'.kb.keyboard_buffer k = d.kb.keyboard_buffer k) ∧
      Printed W H s₀ s d.terminal (passed (charsOf events)) d'.terminal := by
  intro p events
  obtain ⟨t, ht, hp⟩ := Desk.irqs_spec hf hsize hw scancodes
  obtain ⟨hring, -, -⟩ := handlers_events d.kb scancodes
  obtain ⟨hlast, hrest⟩ := ringPushes_spec d.kb.keyboard_buffer events hpos
  have hbuffer := congrArg Prod.fst hring
  refine ⟨_, ht, ?_, fun j e he hle => ?_, fun k hk => ?_, hp⟩
  · exact (congrArg Prod.snd hring).trans (ringPush_position events hpos)
  · exact (congrFun hbuffer _).trans (hlast j e he hle)
  · exact (congrFun hbuffer k).trans (hrest k hk)

/-- After `init_keyboard`, before a blank console. -/
def blankDesk : Desk := ⟨Typing.start.kb, blankTerminal⟩

/-- The key A that is pressed, a key with the prefix, and the key A that is released. -/
theorem keyboard_run_a :
    let events : List KeyEvent := [⟨30, 0⟩, ⟨72, 0⟩, ⟨158, 0⟩]
    ∃ d', [30, 0xE0, 72, 158].foldlM Desk.irq blankDesk = some d' ∧
      d'.kb.buf_position.toNat = (0 + 3) % maxKeybBufferSize ∧
      (∀ j e, events[j]? = some e → 3 ≤ j + maxKeybBufferSize →
        d'.kb.keyboard_buffer ((0 + j) % maxKeybBufferSize) = e) ∧
      (∀ k, (∀ j < 3, (0 + j) % maxKeybBufferSize ≠ k) →
        d'.kb.keyboard_buffer k = ⟨0, 0⟩) ∧
      Printed 100 37 Screen.blank Screen.blank blankTerminal [97] d'.terminal :=
  keyboard_run (d := blankDesk) fits_blank (by norm_num) view_blank (by decide)
    [30, 0xE0, 72, 158]

/-! ## Typing a text -/

/-- The cases of `keyboard_get_printable_char`: a key that is no shift key and not the prefix, whose
release is none of these either and prints nothing. -/
theorem printableChars_entry (he : e ∈ printableChars) :
    printableChars.lookup e.1 = some e.2 ∧ e.2.1 ≠ 0 ∧ e.2.2 ≠ 0 ∧
      printableChars.lookup (e.1 + RELEASE) = none ∧
      ∀ scancode, scancode = e.1 ∨ scancode = e.1 + RELEASE →
        scancode ≠ 0xE0 ∧ ∀ m, modifiersAfter m scancode = m := by
  have hchars : printableChars.all (fun e =>
      printableChars.lookup e.1 = some e.2 ∧ e.2.1 ≠ 0 ∧ e.2.2 ≠ 0) = true := by
    decide
  -- The prefix is the release of 96.
  have hcodes : printableChars.all (fun e =>
      e.1.toNat < 128 ∧ e.1.toNat ≠ 42 ∧ e.1.toNat ≠ 54 ∧ e.1.toNat ≠ 96) = true := by
    decide
  have hcode := fun e he => of_decide_eq_true (List.all_eq_true.mp hcodes e he)
  obtain ⟨hlookup, hlower, hupper⟩ := of_decide_eq_true (List.all_eq_true.mp hchars e he)
  have he := hcode e he
  refine ⟨hlookup, hlower, hupper, ?_, fun scancode hscancode => ?_⟩
  · refine List.lookup_eq_none_iff.mpr (fun p hp => bne_iff_ne.mpr (fun h => ?_))
    have hp := hcode p hp
    unfold RELEASE at h
    bv_omega
  have hcodes : scancode ≠ 0xE0 ∧ ¬ (scancode = keyShiftL ∨ scancode = keyShiftR) ∧
      ¬ (scancode = keyShiftL + RELEASE ∨ scancode = keyShiftR + RELEASE) := by
    unfold RELEASE at hscancode ⊢
    unfold keyShiftL keyShiftR
    bv_omega
  refine ⟨hcodes.1, fun m => ?_⟩
  unfold modifiersAfter
  rw [if_neg hcodes.2.1, if_neg hcodes.2.2]

/-- A key of the table that is pressed and released. -/
theorem key_events (he : e ∈ printableChars) (m : BitVec 8) (scancodes : List (BitVec 8)) :
    charsOf (eventsOf m ([e.1, e.1 + RELEASE] ++ scancodes)) =
        (if m &&& shiftMask = 0 then e.2.1 else e.2.2) :: charsOf (eventsOf m scancodes) ∧
      [e.1, e.1 + RELEASE].foldl modifiersAfter m = m := by
  obtain ⟨hlookup, hlower, hupper, hrelease, hcodes⟩ := printableChars_entry he
  obtain ⟨hE0, hpress⟩ := hcodes e.1 (Or.inl rfl)
  obtain ⟨hE0', hrel⟩ := hcodes (e.1 + RELEASE) (Or.inr rfl)
  have hend : [e.1, e.1 + RELEASE].foldl modifiersAfter m = m := by
    rw [List.foldl_cons, List.foldl_cons, List.foldl_nil, hpress, hrel]
  have hkey : keyboardGetPrintableChar ⟨e.1, m⟩ = if m &&& shiftMask = 0 then e.2.1 else e.2.2 := by
    unfold keyboardGetPrintableChar
    rw [hlookup]
  have hne : keyboardGetPrintableChar ⟨e.1, m⟩ ≠ 0 := by
    rw [hkey]
    split_ifs
    · exact hlower
    · exact hupper
  have hnone : keyboardGetPrintableChar ⟨e.1 + RELEASE, m⟩ = 0 := by
    unfold keyboardGetPrintableChar
    rw [hrelease]
  have hevents : eventsOf m [e.1, e.1 + RELEASE] = [⟨e.1, m⟩] ++ [⟨e.1 + RELEASE, m⟩] := by
    have hcons := eventsOf_append (m := m) [e.1] [e.1 + RELEASE]
    rw [List.singleton_append, List.foldl_cons, List.foldl_nil, hpress] at hcons
    rw [hcons, eventsOf_code hE0, eventsOf_code hE0', hpress, hrel]
  refine ⟨?_, hend⟩
  rw [eventsOf_append, hend, hevents, charsOf_append, charsOf_append, charsOf_of_ne hne,
    charsOf_of_eq hnone, List.append_nil, hkey]
  rfl

/-- A character that is typed is the one that is printed, and no shift key is held after it. -/
theorem typed_char (hkeys : keysFor ch = some keys) (hm : ¬ ShiftBit m)
    (scancodes : List (BitVec 8)) :
    ∃ m', ¬ ShiftBit m' ∧ keys.foldl modifiersAfter m = m' ∧
      charsOf (eventsOf m (keys ++ scancodes)) = ch :: charsOf (eventsOf m' scancodes) := by
  have hm' : m &&& shiftMask = 0 := not_not.mp hm
  unfold keysFor at hkeys
  split at hkeys
  · -- Without the shift key.
    next e he =>
      obtain rfl := Option.some.inj hkeys
      have hch : e.2.1 = ch := by simpa using List.find?_some he
      obtain ⟨hevents, hend⟩ := key_events (List.mem_of_find?_eq_some he) m scancodes
      refine ⟨m, hm, hend, ?_⟩
      rw [hevents, if_pos hm', hch]
  · -- With the left one.
    obtain ⟨e, he, rfl⟩ := Option.map_eq_some_iff.mp hkeys
    have hch : e.2.2 = ch := by simpa using List.find?_some he
    have hmem := List.mem_of_find?_eq_some he
    have hpress : modifiersAfter m keyShiftL = m ||| shiftMask := if_pos (Or.inl rfl)
    have hrel : ∀ m', modifiersAfter m' (keyShiftL + RELEASE) = m' &&& ~~~shiftMask := by
      intro m'
      unfold modifiersAfter
      rw [if_neg (by decide), if_pos (Or.inl rfl)]
    have hshift : (m ||| shiftMask) &&& shiftMask ≠ 0 := shiftBit_or m
    obtain ⟨hevents, hend⟩ := key_events hmem (m ||| shiftMask)
      ([keyShiftL + RELEASE] ++ scancodes)
    have hkeys' : [keyShiftL, e.1, e.1 + RELEASE, keyShiftL + RELEASE] =
        [keyShiftL] ++ ([e.1, e.1 + RELEASE] ++ [keyShiftL + RELEASE]) := rfl
    have hcode : ∀ m', charsOf (eventsOf m' [keyShiftL]) = [] ∧
        charsOf (eventsOf m' [keyShiftL + RELEASE]) = [] := by
      intro m'
      constructor
      · rw [eventsOf_code (by decide)]
        exact charsOf_of_eq rfl
      · rw [eventsOf_code (by decide)]
        exact charsOf_of_eq rfl
    refine ⟨(m ||| shiftMask) &&& ~~~shiftMask, not_shiftBit_andNot _, ?_, ?_⟩
    · have hfirst : [keyShiftL].foldl modifiersAfter m = m ||| shiftMask := hpress
      rw [hkeys', List.foldl_append, List.foldl_append, hfirst, hend]
      exact hrel _
    · rw [hkeys', List.append_assoc, List.append_assoc, eventsOf_append, charsOf_append,
        (hcode m).1, List.nil_append, List.foldl_cons, List.foldl_nil, hpress, hevents,
        if_neg hshift, hch, eventsOf_append, charsOf_append, (hcode _).2, List.nil_append,
        List.foldl_cons, List.foldl_nil, hrel]

/-- A text that can be typed is printed as it was typed. -/
theorem typed_events (htext : ∀ ch ∈ text, (keysFor ch).isSome) (hm : ¬ ShiftBit m) :
    charsOf (eventsOf m (typing text)) = text ∧
      ¬ ShiftBit ((typing text).foldl modifiersAfter m) := by
  induction text generalizing m with
  | nil => exact ⟨rfl, hm⟩
  | cons ch text ih =>
    obtain ⟨keys, hkeys⟩ := Option.isSome_iff_exists.mp (htext ch List.mem_cons_self)
    have hcons : typing (ch :: text) = keys ++ typing text := by
      unfold typing
      rw [List.flatMap_cons, hkeys]
      rfl
    obtain ⟨m', hm', hend, hchars⟩ := typed_char hkeys hm (typing text)
    obtain ⟨hih, hshift⟩ := ih (fun ch hch => htext ch (List.mem_cons_of_mem _ hch)) hm'
    rw [hcons, hchars, hih, List.foldl_append, hend]
    exact ⟨rfl, hshift⟩

/-- What is typed while no shift key is held is on the screen, at the cursor, and on the serial
port, and no shift key is held after it. -/
theorem typed_shown (hf : Fits W H s₀) (hsize : W * H ≤ 2^16)
    (hw : View W H s₀ s d.terminal.vga) (hshift : ¬ ShiftBit d.kb.current_modifiers)
    (htext : ∀ ch ∈ text, (keysFor ch).isSome) :
    ∃ d', (typing text).foldlM Desk.irq d = some d' ∧
      Printed W H s₀ s d.terminal (passed text) d'.terminal ∧
      d'.terminal.serial = d.terminal.serial ++ text ∧ ¬ ShiftBit d'.kb.current_modifiers := by
  obtain ⟨t, ht, hp⟩ := Desk.irqs_spec hf hsize hw (typing text)
  obtain ⟨-, -, hmodifiers⟩ := handlers_events d.kb (typing text)
  obtain ⟨htyped, hshift'⟩ := typed_events htext hshift
  rw [htyped] at hp
  have hserial : (passed text).map (fun ch => ch.setWidth 8) = text := by
    unfold passed
    rw [List.map_map]
    refine (List.map_congr_left (fun ch _ => ?_)).trans (List.map_id _)
    apply BitVec.eq_of_getLsbD_eq
    intro i hi
    rw [Function.comp_apply, BitVec.getLsbD_setWidth, BitVec.getLsbD_signExtend, if_pos hi]
    simp [hi, Nat.lt_trans hi (by decide : 8 < 32)]
  refine ⟨_, ht, hp, ?_, ?_⟩
  · rw [hp.serial, hserial]
  · rw [hmodifiers]
    exact hshift'

/-- The text "Hi!". -/
theorem typed_shown_hi :
    ∃ d', (typing [72, 105, 33]).foldlM Desk.irq blankDesk = some d' ∧
      Printed 100 37 Screen.blank Screen.blank blankTerminal (passed [72, 105, 33]) d'.terminal ∧
      d'.terminal.serial = [72, 105, 33] ∧ ¬ ShiftBit d'.kb.current_modifiers :=
  typed_shown (d := blankDesk) fits_blank (by norm_num) view_blank (by unfold ShiftBit; decide)
    (by decide)

end Potatos
