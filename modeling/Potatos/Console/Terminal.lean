import Potatos.Console.Screen

/-!
# A character on its way to the devices

`putchar` with everything that it reaches: the console, the cursor of the video controller, which
every path of `vga_write_char` moves, and the serial port, where `DEBUG` sends each character too.
`puts` and `putstr` go through it. The controller has an index port and a data port, and the place
of its cursor is in two of the registers.

After any text the cursor of the controller is on the cell of the console's cursor, inside of the
screen, and the serial port got the same characters (`Terminal.putchars_spec`).
-/

namespace Potatos

/-- The video controller: the index of a register, and the registers. -/
structure Crtc where
  index : BitVec 8
  registers : BitVec 8 → BitVec 8

namespace Crtc

variable (c : Crtc)

/-- `outportb` to its two ports. -/
def outportb (port : BitVec 16) (v : BitVec 8) : Crtc :=
  if port = 0x3D4 then { c with index := v }
  else if port = 0x3D5 then { c with registers := Function.update c.registers c.index v }
  else c

/-- `set_cursor_position`. -/
def setCursorPosition (position : BitVec 16) : Crtc :=
  (((c.outportb 0x3D4 0x0F).outportb 0x3D5 ((position &&& 0xFF).setWidth 8)).outportb
    0x3D4 0x0E).outportb 0x3D5 ((position >>> 8 &&& 0xFF).setWidth 8)

/-- Where the cursor is seen. -/
def cursor : ℕ := (c.registers 0x0E).toNat * 256 + (c.registers 0x0F).toNat

end Crtc

/-- The console, the controller, and what was sent to the serial port. -/
structure Terminal where
  vga : Vga
  crtc : Crtc
  serial : List (BitVec 8)

namespace Terminal

variable (t : Terminal)

/-- `vga_update_cursor`. -/
def vgaUpdateCursor : Terminal :=
  let i := BitVec.ofInt 16 (t.vga.cursorY * t.vga.VGA_WIDTH + t.vga.cursorX)
  { t with crtc := t.crtc.setCursorPosition i }

/-- `putchar`: the console, the cursor, and `printfs("%c", ch)`. -/
def putchar (ch : BitVec 32) : Option Terminal :=
  (t.vga.putchar ch).map (fun vga =>
    let t := vgaUpdateCursor { t with vga := vga }
    { t with serial := t.serial ++ [ch.setWidth 8] })

/-- The characters one after the other. -/
def putchars (chs : List (BitVec 32)) : Option Terminal := chs.foldlM putchar t

/-- The loop of `puts` and `putstr`, with `i` behind it. A character is signed. -/
def putstrLoop (str : ℕ → BitVec 8) : ℕ → ℕ → Terminal → Option (ℕ × Terminal)
  | 0, _, _ => none
  | fuel + 1, i, t =>
    if str i ≠ 0 then (t.putchar ((str i).signExtend 32)).bind (putstrLoop str fuel (i + 1))
    else some (i, t)

/-- `puts`: a line feed behind a string that is not empty, and the number of characters, or
`EOF`. -/
def puts (str : ℕ → BitVec 8) (fuel : ℕ) : Option (ℤ × Terminal) := do
  let (i, t) ← putstrLoop str fuel 0 t
  let (i, t) ← if i > 0 then (t.putchar 10).map (fun t => (i + 1, t)) else some (i, t)
  some (if i ≠ 0 then (i : ℤ) else -1, t)

end Terminal

/-- The cursor of the controller is on the cell of that of the screen, and in the screen. -/
def Crtc.On (c : Crtc) (W H : ℕ) (s : Screen) : Prop :=
  c.cursor = (s.row - s.top H) * W + s.col ∧ c.cursor < W * H

/-- What the devices have after some characters: the screen, the cursor on it unless there was no
character, and the same characters on the serial port. -/
structure Printed (W H : ℕ) (s₀ s : Screen) (t : Terminal) (chs : List (BitVec 32))
    (t' : Terminal) : Prop where
  view : View W H s₀ (s.puts W chs) t'.vga
  serial : t'.serial = t.serial ++ chs.map (fun ch => ch.setWidth 8)
  cursor : if chs = [] then t'.crtc = t.crtc else t'.crtc.On W H (s.puts W chs)

variable {W H : ℕ} {s s₀ : Screen} {t t' : Terminal} {chs chs' : List (BitVec 32)}
  {ch : BitVec 32}

/-! ## The cursor -/

theorem Crtc.cursor_setCursorPosition (c : Crtc) (position : BitVec 16) :
    (c.setCursorPosition position).cursor = position.toNat := by
  have hregisters : (c.setCursorPosition position).registers =
      Function.update (Function.update c.registers 0x0F ((position &&& 0xFF).setWidth 8)) 0x0E
        ((position >>> 8 &&& 0xFF).setWidth 8) := rfl
  have hpos := position.isLt
  have hmask : ∀ x : BitVec 16, ((x &&& 0xFF).setWidth 8).toNat = x.toNat % 256 := by
    intro x
    have h255 : (0xFF : BitVec 16).toNat = 2^8 - 1 := by decide
    rw [BitVec.toNat_setWidth, BitVec.toNat_and, h255, Nat.and_two_pow_sub_one_eq_mod,
      Nat.mod_mod]
  unfold cursor
  rw [hregisters, Function.update_self, Function.update_of_ne (by decide), Function.update_self,
    hmask, hmask, BitVec.toNat_ushiftRight, Nat.shiftRight_eq_div_pow]
  omega

/-- Where the console shows the screen, its cursor is in it. -/
theorem View.cursor_lt (hf : Fits W H s₀) (hw : View W H s₀ s t.vga) :
    (s.row - s.top H) * W + s.col < W * H := by
  have hcol := hw.col_lt
  have hheight := hf.two_le_height
  have hrow : s.row - s.top H + 1 ≤ H := by
    unfold Screen.top
    omega
  have hmul := Nat.mul_le_mul_right W hrow
  rw [Nat.mul_comm W H]
  linarith

/-- `vga_update_cursor` puts the cursor of the controller there. -/
theorem View.updateCursor (hf : Fits W H s₀) (hsize : W * H ≤ 2^16)
    (hw : View W H s₀ s t.vga) : t.vgaUpdateCursor.crtc.On W H s := by
  have hlt := hw.cursor_lt hf
  have hplace : t.vga.cursorY * t.vga.VGA_WIDTH + t.vga.cursorX =
      (((s.row - s.top H) * W + s.col : ℕ) : ℤ) := by
    rw [hw.cursorY, hw.width, hw.cursorX]
    push_cast
    ring
  have hcursor : t.vgaUpdateCursor.crtc.cursor = (s.row - s.top H) * W + s.col := by
    unfold Terminal.vgaUpdateCursor
    dsimp only
    rw [Crtc.cursor_setCursorPosition, hplace, BitVec.ofInt_natCast, BitVec.toNat_ofNat]
    exact Nat.mod_eq_of_lt (by omega)
  exact ⟨hcursor, by rw [hcursor]; exact hlt⟩

/-! ## Text -/

/-- Nothing is printed. -/
theorem Printed.nil (hw : View W H s₀ s t.vga) : Printed W H s₀ s t [] t :=
  ⟨hw, (List.append_nil _).symm, by rw [if_pos rfl]⟩

open Terminal in
/-- One character on the three devices. -/
theorem Printed.putchar (hf : Fits W H s₀) (hsize : W * H ≤ 2^16)
    (hw : View W H s₀ s t.vga) (ch : BitVec 32) :
    ∃ t', t.putchar ch = some t' ∧ Printed W H s₀ s t [ch] t' := by
  obtain ⟨vga, hvga, hw'⟩ := hw.putchar hf ch
  have hput : t.putchar ch = some
      { vgaUpdateCursor { t with vga := vga } with serial := t.serial ++ [ch.setWidth 8] } := by
    rw [Terminal.putchar, hvga]
    rfl
  refine ⟨_, hput, hw', rfl, ?_⟩
  rw [if_neg (List.cons_ne_nil _ _)]
  exact View.updateCursor (t := { t with vga := vga }) hf hsize hw'

/-- Texts one behind the other. -/
theorem Printed.append {t₁ t₂ : Terminal} (h₁ : Printed W H s₀ s t chs t₁)
    (h₂ : Printed W H s₀ (s.puts W chs) t₁ chs' t₂) : Printed W H s₀ s t (chs ++ chs') t₂ := by
  have hputs : s.puts W (chs ++ chs') = (s.puts W chs).puts W chs' := List.foldl_append
  refine ⟨hputs ▸ h₂.view, ?_, ?_⟩
  · rw [h₂.serial, h₁.serial, List.map_append, List.append_assoc]
  · have hcursor := h₂.cursor
    by_cases hnil : chs' = []
    · subst hnil
      rw [if_pos rfl] at hcursor
      rw [List.append_nil, hcursor]
      exact h₁.cursor
    · rw [if_neg hnil] at hcursor
      rw [if_neg (fun h => hnil (List.append_eq_nil_iff.mp h).2), hputs]
      exact hcursor

/-- And so with any text. -/
theorem Terminal.putchars_spec (hf : Fits W H s₀) (hsize : W * H ≤ 2^16)
    (hw : View W H s₀ s t.vga) (chs : List (BitVec 32)) :
    ∃ t', t.putchars chs = some t' ∧ Printed W H s₀ s t chs t' := by
  induction chs generalizing s t with
  | nil => exact ⟨t, rfl, Printed.nil hw⟩
  | cons ch chs ih =>
    obtain ⟨t₁, h₁, hp₁⟩ := Printed.putchar hf hsize hw ch
    obtain ⟨t', ht', hp'⟩ := ih hp₁.view
    refine ⟨t', ?_, hp₁.append hp'⟩
    calc t.putchars (ch :: chs) = (t.putchar ch).bind (fun t => t.putchars chs) := rfl
      _ = some t' := by rw [h₁, Option.bind_some, ht']

variable {str : ℕ → BitVec 8} {n i k fuel : ℕ}

/-- The characters of a string, from its place `i` on. -/
def charsFrom (str : ℕ → BitVec 8) (i k : ℕ) : List (BitVec 32) :=
  (List.range' i k).map (fun i => (str i).signExtend 32)

/-- The loop from its place `i` on prints the rest of the string. -/
theorem putstrLoop_spec (fuel : ℕ) (hf : Fits W H s₀) (hsize : W * H ≤ 2^16)
    (hw : View W H s₀ s t.vga) (htext : ∀ j < i + k, str j ≠ 0)
    (hend : str (i + k) = 0) (hfuel : k < fuel) :
    ∃ t', Terminal.putstrLoop str fuel i t = some (i + k, t') ∧
      Printed W H s₀ s t (charsFrom str i k) t' := by
  induction k generalizing i s t fuel with
  | zero =>
    obtain ⟨fuel, rfl⟩ : ∃ m, fuel = m + 1 := ⟨fuel - 1, by omega⟩
    rw [Nat.add_zero] at hend
    refine ⟨t, ?_, Printed.nil hw⟩
    rw [Terminal.putstrLoop, if_neg (not_not.mpr hend)]
    rfl
  | succ k ih =>
    obtain ⟨fuel, rfl⟩ : ∃ m, fuel = m + 1 := ⟨fuel - 1, by omega⟩
    have hnext : i + (k + 1) = i + 1 + k := by omega
    rw [hnext] at htext hend
    obtain ⟨t₁, h₁, hp₁⟩ := Printed.putchar hf hsize hw ((str i).signExtend 32)
    obtain ⟨t', ht', hp'⟩ := ih (i := i + 1) fuel hp₁.view htext hend (by omega)
    refine ⟨t', ?_, hp₁.append hp'⟩
    rw [Terminal.putstrLoop, if_pos (htext i (by omega)), h₁, Option.bind_some, ht', hnext]

/-- `puts` of a string of `n` characters. Behind one that is not empty comes a line feed, and the
result is the number of characters with it. Of an empty one nothing is printed, and the result is
`EOF`. -/
theorem puts_spec (hf : Fits W H s₀) (hsize : W * H ≤ 2^16) (hw : View W H s₀ s t.vga)
    (htext : ∀ j < n, str j ≠ 0) (hend : str n = 0) (hfuel : n < fuel) :
    ∃ t', t.puts str fuel = some (if n = 0 then -1 else (n : ℤ) + 1, t') ∧
      Printed W H s₀ s t (if n = 0 then [] else charsFrom str 0 n ++ [10]) t' := by
  rw [← Nat.zero_add n] at htext hend
  obtain ⟨t₁, hloop, hp₁⟩ := putstrLoop_spec fuel hf hsize hw htext hend hfuel
  rw [Nat.zero_add] at hloop
  unfold Terminal.puts
  rw [hloop, Option.bind_eq_bind, Option.bind_some]
  by_cases hn : n = 0
  · subst hn
    exact ⟨t₁, rfl, hp₁⟩
  · obtain ⟨t', ht', hp'⟩ := Printed.putchar hf hsize hp₁.view 10
    refine ⟨t', ?_, by rw [if_neg hn]; exact hp₁.append hp'⟩
    dsimp only
    rw [if_pos (Nat.pos_of_ne_zero hn), ht', if_neg hn]
    rfl

/-- A blank console of 100 columns and 37 rows. -/
def blankTerminal : Terminal := ⟨⟨fun _ => 0, 0, 0, 7, 100, 37⟩, ⟨0, fun _ => 0⟩, []⟩

theorem fits_blank : Fits 100 37 Screen.blank :=
  ⟨by decide, by decide, by decide, by decide, fun _ _ _ _ => rfl⟩

theorem view_blank : View 100 37 Screen.blank Screen.blank blankTerminal.vga :=
  ⟨⟨rfl, rfl, rfl, fun _ _ _ _ => rfl, fun _ _ _ _ => rfl⟩, rfl, by decide⟩

/-- The string "Hi". -/
theorem puts_spec_hi :
    ∃ t', blankTerminal.puts (fun i => [72, 105].getD i 0) 3 = some (3, t') ∧
      Printed 100 37 Screen.blank Screen.blank blankTerminal [72, 105, 10] t' :=
  puts_spec (n := 2) fits_blank (by norm_num) view_blank (by decide) rfl (by decide)

end Potatos
