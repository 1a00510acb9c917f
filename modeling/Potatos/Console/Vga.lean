import Mathlib.Logic.Function.Basic
import Mathlib.Data.Nat.Notation
import Mathlib.Algebra.Order.Ring.Int
import Mathlib.Tactic.Basic
import Mathlib.Tactic.Ring
import Potatos.Lib.ForLoop

/-!
# The text console

`src/drivers/vga.c`, and `putchar` of `src/lib/stdio.c`. The buffer has `VGA_WIDTH` columns and
`VGA_HEIGHT` rows, and an access outside of them is `none`. The cursor is two 16-bit numbers with a
sign; the other numbers are `int`s, which do not overflow here. The position of the cursor that the
hardware shows is left out, and so is what `putchar` sends to the serial port.
-/

namespace Potatos

open Lib

/-- The value of an `int16_t` that is assigned a number. -/
def int16 (z : ℤ) : ℤ := (z + 2^15) % 2^16 - 2^15

theorem int16_of_range {z : ℤ} (hle : -2^15 ≤ z) (hlt : z < 2^15) : int16 z = z := by
  unfold int16
  omega

def VGA_COLOR_BLACK : BitVec 8 := 0

def VGA_COLOR_LIGHT_GREY : BitVec 8 := 7

/-- `vga_entry_color`. -/
def vgaEntryColor (fg bg : BitVec 8) : BitVec 8 := fg ||| bg <<< 4

/-- `vga_entry`. -/
def vgaEntry (ch color : BitVec 8) : BitVec 16 := ch.setWidth 16 ||| color.setWidth 16 <<< 8

/-- The character code of a cell, which is its low byte. -/
def charCode (cell : BitVec 16) : BitVec 8 := cell.setWidth 8

theorem charCode_vgaEntry (ch color : BitVec 8) : charCode (vgaEntry ch color) = ch := by
  unfold charCode vgaEntry
  ext i hi
  simp only [BitVec.getElem_setWidth, BitVec.getLsbD_or, BitVec.getLsbD_setWidth,
    BitVec.getLsbD_shiftLeft, hi, decide_true, Bool.not_true, Bool.and_false, Bool.false_and,
    Bool.or_false, BitVec.getLsbD_eq_getElem]
  exact Bool.and_eq_right_iff_imp.mpr (fun _ => decide_eq_true (by omega))

/-- The globals of `vga.c`. -/
structure Vga where
  vga_buffer : ℤ → BitVec 16
  cursorX : ℤ
  cursorY : ℤ
  vga_color : BitVec 8
  VGA_WIDTH : ℤ
  VGA_HEIGHT : ℤ

namespace Vga

variable (v : Vga)

/-- The index is in the buffer. -/
def InBuffer (i : ℤ) : Prop := 0 ≤ i ∧ i < v.VGA_WIDTH * v.VGA_HEIGHT

instance (i : ℤ) : Decidable (v.InBuffer i) := inferInstanceAs (Decidable (_ ∧ _))

/-- `vga_buffer[i]`. -/
def read (i : ℤ) : Option (BitVec 16) := if v.InBuffer i then some (v.vga_buffer i) else none

/-- `vga_buffer[i] = c`. -/
def write (i : ℤ) (c : BitVec 16) : Option Vga :=
  if v.InBuffer i then some { v with vga_buffer := Function.update v.vga_buffer i c } else none

/-- The body of a loop for `i` from 0 to `n - 1`. -/
def forLoop (n : ℤ) (body : Vga → ℤ → Option Vga) : Option Vga :=
  forRange n.toNat (fun v i => body v i) v

/-- `vga_set_color`. -/
def vgaSetColor (c : BitVec 8) : Vga := { v with vga_color := c }

/-- `vga_set_cursor_pos`. -/
def vgaSetCursorPos (x y : ℤ) : Vga := { v with cursorX := int16 x, cursorY := int16 y }

/-- `vga_clear_screen`. -/
def vgaClearScreen : Option Vga := do
  let v := v.vgaSetColor (vgaEntryColor VGA_COLOR_LIGHT_GREY VGA_COLOR_BLACK)
  let max_rows := (v.VGA_HEIGHT * v.VGA_WIDTH) % 2^32
  let v ← v.forLoop max_rows (fun v i => v.write i (vgaEntry 0 v.vga_color))
  some (v.vgaSetCursorPos 0 0)

/-- `init_vga`. -/
def initVga : Option Vga := v.vgaClearScreen

/-- `vga_resize`. -/
def vgaResize (new_width new_height : ℤ) : Vga :=
  { v with VGA_WIDTH := new_width, VGA_HEIGHT := new_height }

/-- `vga_scroll_screen`. -/
def vgaScrollScreen : Option Vga := do
  let max_row_minus_one := v.VGA_WIDTH * v.VGA_HEIGHT - v.VGA_WIDTH
  let v ← v.forLoop max_row_minus_one (fun v i => do v.write i (← v.read (i + v.VGA_WIDTH)))
  v.forLoop v.VGA_WIDTH (fun v i => v.write (max_row_minus_one + i) 0)

/-- The loop of `vga_check_if_scroll_needed`. -/
def scrollLoop : ℕ → Vga → Option Vga
  | 0, _ => none
  | fuel + 1, v =>
    if v.cursorY ≥ v.VGA_HEIGHT - 1 then do
      let v ← v.vgaScrollScreen
      scrollLoop fuel { v with cursorY := int16 (v.cursorY - 1) }
    else some v

/-- `vga_check_if_scroll_needed`. After `2^16` rounds `cursorY` is what it was, and the loop does
not end. -/
def vgaCheckIfScrollNeeded : Option Vga := scrollLoop (2^16) v

/-- `vga_next_line`. -/
def vgaNextLine : Option Vga :=
  { v with cursorX := 0, cursorY := int16 (v.cursorY + 1) }.vgaCheckIfScrollNeeded

/-- `vga_write_char`. -/
def vgaWriteChar (ch : BitVec 32) (x y : ℤ) : Option Vga :=
  if ch = 10 then v.vgaNextLine
  else if ch = 14 then
    let v := if v.cursorX > 0 then { v with cursorX := int16 (v.cursorX - 1) } else v
    let i := y * v.VGA_WIDTH + v.cursorX
    v.write i (vgaEntry 32 v.vga_color)
  else do
    let i := y * v.VGA_WIDTH + x
    let v ← if i < v.VGA_WIDTH * v.VGA_HEIGHT then v.write i (vgaEntry (ch.setWidth 8) v.vga_color)
      else some v
    let v := { v with cursorX := int16 (v.cursorX + 1) }
    if v.cursorX ≥ v.VGA_WIDTH then v.vgaNextLine else some v

/-- `putchar`. -/
def putchar (ch : BitVec 32) : Option Vga := v.vgaWriteChar ch v.cursorX v.cursorY

/-- The characters one after the other. -/
def putchars (chs : List (BitVec 32)) : Option Vga := chs.foldlM putchar v

end Vga

end Potatos
