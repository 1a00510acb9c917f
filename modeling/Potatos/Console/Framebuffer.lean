import Potatos.Console.Screen
import Potatos.Lib.ByteMemory

/-!
# Drawing the console

`src/drivers/framebuffer/framebuffer.c` draws the console into a back buffer of 800 by 600 pixels,
in a font that is linked into the kernel. What a function draws is the list of its pixels, each
with its index in the back buffer. The arithmetic on coordinates is that of 32-bit values. The
back buffer is global and not checked: an index behind it is some other memory.

The sequence of `kernel_main` clears the console at 80 by 25 and draws it at 100 by 37. The last of
the 37 rows is drawn across the end of the back buffer, and it is not cleared before the console
has scrolled (`drawn_inside_iff`).
-/

namespace Potatos

open Lib

/-- The font, from `_binary_font_psf_start` on. -/
structure PsfFont where
  bytes : ByteMemory

namespace PsfFont

variable (font : PsfFont)

def headersize : ℕ := load 4 font.bytes 8
def numglyph : ℕ := load 4 font.bytes 16
def bytesperglyph : ℕ := load 4 font.bytes 20
def height : ℕ := load 4 font.bytes 24
def width : ℕ := load 4 font.bytes 28

/-- `font_bytesPerLine`. -/
def bytesPerLine : ℕ := (font.width + 7) % 2^32 / 8

/-- Where the glyph of a character starts. One without a glyph has the first. -/
def glyph (ch : BitVec 8) : ℕ :=
  font.headersize +
    (if 0 < ch.toNat ∧ ch.toNat < font.numglyph then ch.toNat else 0) * font.bytesperglyph % 2^32

/-- The test of the inner loop of `draw_character`, with the mask after `x` shifts. -/
def pixel (ch : BitVec 8) (y x : ℕ) : Bool :=
  BitVec.ofNat 32 (load 4 font.bytes (font.glyph ch + y * font.bytesPerLine)) &&&
    (1#32 <<< (font.width - 1)).sshiftRight x != 0

end PsfFont

/-- A pixel that is written: its index in the back buffer, and its colour. -/
structure Pixel where
  index : BitVec 32
  color : BitVec 32

section

variable (framebuffer_width : BitVec 32) (font : PsfFont)

/-- `plot_pixel`. -/
def plotPixel (x y : BitVec 32) (r g b : BitVec 8) : Pixel :=
  let row := y * framebuffer_width
  let column := x
  ⟨column + row, r.setWidth 32 <<< 16 ||| g.setWidth 32 <<< 8 ||| b.setWidth 32⟩

/-- `draw_character`. -/
def drawCharacter (ch : BitVec 8) (cx cy : BitVec 32) (r g b : BitVec 8) : List Pixel :=
  (List.range font.height).flatMap (fun y => (List.range font.width).flatMap (fun x =>
    if font.pixel ch y x then
      [plotPixel framebuffer_width (cx + BitVec.ofNat 32 x) (cy + BitVec.ofNat 32 y) r g b]
    else []))

/-- `strlen`. -/
def strlen (text : List (BitVec 8)) : ℕ := (text.takeWhile (· ≠ 0)).length

/-- `draw_text`. -/
def drawText (cx cy : BitVec 32) (text : List (BitVec 8)) (r g b : BitVec 8) : List Pixel :=
  (List.range (strlen text)).flatMap (fun i =>
    let ch := text.getD i 0
    drawCharacter framebuffer_width font ch (cx + BitVec.ofNat 32 (i * font.width)) cy r g b)

/-- `tempText` of `draw_vga_buffer`, for the row `py`. -/
def tempText (vga_buf : ℤ → BitVec 16) (width py : ℕ) : List (BitVec 8) :=
  (List.range width).map (fun px => charCode (vga_buf (px + py * width : ℕ))) ++ [0]

/-- `draw_vga_buffer`. -/
def drawVgaBuffer (vga_buf : ℤ → BitVec 16) (width height : ℕ) : List Pixel :=
  (List.range height).flatMap (fun py =>
    drawText framebuffer_width font 0 (BitVec.ofNat 32 (py * 16 + 16)) (tempText vga_buf width py)
      160 160 160)

end

/-- The console of `kernel_main`, on the content that the video memory has at first, after the text
was printed. -/
def printed (vga_buffer : ℤ → BitVec 16) (chs : List (BitVec 32)) : Option Vga := do
  let v ← Vga.initVga ⟨vga_buffer, 0, 0, 0, 80, 25⟩
  (v.vgaResize 100 37).putchars chs

/-- The font is 8 pixels wide and 16 high. -/
structure PsfFont.Is8x16 (font : PsfFont) : Prop where
  width : font.width = 8
  height : font.height = 16

/-- The glyph of the character has a pixel in its lower half. -/
def PsfFont.LowerHalf (font : PsfFont) (ch : BitVec 8) : Prop :=
  ∃ y x, 8 ≤ y ∧ y < 16 ∧ x < 8 ∧ font.pixel ch y x = true

variable {font : PsfFont} {vga_buf mem : ℤ → BitVec 16} {W H r c : ℕ} {s : Screen} {v : Vga}

/-! ## Where the pixels are -/

/-- A string ends at its zero byte at the latest. -/
theorem strlen_append_zero_le (l : List (BitVec 8)) : strlen (l ++ [0]) ≤ l.length := by
  induction l with
  | nil => exact Nat.le_refl 0
  | cons ch l ih =>
    unfold strlen at ih ⊢
    rw [List.cons_append, List.takeWhile_cons]
    split_ifs with h
    · exact Nat.succ_le_succ ih
    · exact Nat.zero_le _

theorem strlen_tempText_le (py : ℕ) : strlen (tempText vga_buf W py) ≤ W := by
  have hle := strlen_append_zero_le
    ((List.range W).map (fun px => charCode (vga_buf (px + py * W : ℕ))))
  rw [List.length_map, List.length_range] at hle
  exact hle

/-- The pixels of the console, by row, column, and place in the glyph. -/
theorem mem_drawVgaBuffer {w : BitVec 32} {p : Pixel} :
    p ∈ drawVgaBuffer w font vga_buf W H ↔
      ∃ py < H, ∃ i < strlen (tempText vga_buf W py), ∃ y < font.height, ∃ x < font.width,
        font.pixel ((tempText vga_buf W py).getD i 0) y x = true ∧
        p = plotPixel w (0 + BitVec.ofNat 32 (i * font.width) + BitVec.ofNat 32 x)
          (BitVec.ofNat 32 (py * 16 + 16) + BitVec.ofNat 32 y) 160 160 160 := by
  unfold drawVgaBuffer drawText drawCharacter
  simp only [List.mem_flatMap, List.mem_range, List.mem_ite_nil_right, List.mem_singleton]

/-- The index of a pixel of the console in its 800 columns. -/
theorem plotPixel_index {py i y x : ℕ} (hpy : py < 37) (hi : i < 100) (hy : y < 16) (hx : x < 8)
    (r g b : BitVec 8) :
    (plotPixel 800 (0 + BitVec.ofNat 32 (i * 8) + BitVec.ofNat 32 x)
      (BitVec.ofNat 32 (py * 16 + 16) + BitVec.ofNat 32 y) r g b).index.toNat =
      (py * 16 + 16 + y) * 800 + (i * 8 + x) := by
  have h0 : (0 : BitVec 32).toNat = 0 := rfl
  have h800 : (800 : BitVec 32).toNat = 800 := rfl
  unfold plotPixel
  simp only [BitVec.toNat_add, BitVec.toNat_mul, BitVec.toNat_ofNat, h0, h800]
  omega

/-- The pixels of the console are in the back buffer exactly when no character of its last row has
one in the lower half of its glyph. -/
theorem drawn_inside_iff_row (hfont : font.Is8x16) :
    (∀ p ∈ drawVgaBuffer 800 font vga_buf 100 37, p.index.toNat < 800 * 600) ↔
      ∀ i < strlen (tempText vga_buf 100 36),
        ¬ font.LowerHalf ((tempText vga_buf 100 36).getD i 0) := by
  constructor
  · rintro hall i hi ⟨y, x, hy, hy', hx, hpixel⟩
    have hp := hall _ (mem_drawVgaBuffer.mpr ⟨36, by omega, i, hi, y, by rw [hfont.height]; omega,
      x, by rw [hfont.width]; omega, hpixel, rfl⟩)
    have hi' : strlen (tempText vga_buf 100 36) ≤ 100 := strlen_tempText_le 36
    rw [hfont.width, plotPixel_index (by omega) (by omega) hy' hx] at hp
    omega
  · intro hrow p hp
    obtain ⟨py, hpy, i, hi, y, hy, x, hx, hpixel, rfl⟩ := mem_drawVgaBuffer.mp hp
    rw [hfont.height] at hy
    rw [hfont.width] at hx
    have hi' : strlen (tempText vga_buf 100 py) ≤ 100 := strlen_tempText_le py
    rw [hfont.width, plotPixel_index hpy (by omega) hy hx]
    -- Only the lower half of the last row is outside.
    by_cases hlast : py = 36 ∧ 8 ≤ y
    · obtain ⟨rfl, hy8⟩ := hlast
      exact absurd ⟨y, x, hy8, hy, hx, hpixel⟩ (hrow i hi)
    · omega

/-! ## What the last row shows -/

/-- Where the cursor comes to does not depend on what the cells hold. -/
theorem puts_row (chs : List (BitVec 32)) {s s' : Screen} (hrow : s.row = s'.row)
    (hcol : s.col = s'.col) : (s.puts W chs).row = (s'.puts W chs).row := by
  induction chs generalizing s s' with
  | nil => exact hrow
  | cons ch chs ih =>
    -- One character moves the cursor by what the character is and the column, whatever the cells.
    have hput : (s.put W ch).row = (s'.put W ch).row ∧ (s.put W ch).col = (s'.put W ch).col := by
      unfold Screen.put
      by_cases h10 : ch = 10
      · rw [if_pos h10, if_pos h10]
        exact ⟨congrArg Nat.succ hrow, rfl⟩
      rw [if_neg h10, if_neg h10]
      by_cases h14 : ch = 14
      · rw [if_pos h14, if_pos h14]
        exact ⟨hrow, congrArg Nat.pred hcol⟩
      rw [if_neg h14, if_neg h14]
      dsimp only
      rw [hcol]
      by_cases hlast : s'.col + 1 < W
      · rw [if_pos hlast, if_pos hlast]
        exact ⟨hrow, rfl⟩
      · rw [if_neg hlast, if_neg hlast]
        exact ⟨congrArg Nat.succ hrow, rfl⟩
    exact ih hput.1 hput.2

/-- The screen that a console shows at first. -/
def Vga.contents (v : Vga) (W H : ℕ) : Screen :=
  ⟨fun r c => if r < H then v.cell W r c else 0, 0, 0⟩

/-- `init_vga` clears 2000 cells. -/
theorem initVga_spec (mem : ℤ → BitVec 16) :
    ∃ b color, Vga.initVga ⟨mem, 0, 0, 0, 80, 25⟩ = some ⟨b, 0, 0, color, 80, 25⟩ ∧
      ∀ i : ℕ, 2000 ≤ i → b i = mem i := by
  obtain ⟨b, hb, hcells⟩ := Vga.fill
    (v := ⟨mem, 0, 0, vgaEntryColor VGA_COLOR_LIGHT_GREY VGA_COLOR_BLACK, 80, 25⟩)
    (W := 80) (H := 25) (n := 2000) (a := 0) rfl rfl (by decide) (vgaEntry 0)
  have hcount : (25 * 80 : ℤ) % 2^32 = (2000 : ℕ) := by norm_num
  simp only [Nat.cast_zero, zero_add] at hb
  refine ⟨b, vgaEntryColor VGA_COLOR_LIGHT_GREY VGA_COLOR_BLACK, ?_,
    fun i hi => (hcells i).trans (if_neg (by omega))⟩
  unfold Vga.initVga Vga.vgaClearScreen Vga.vgaSetColor
  dsimp only
  rw [hcount, hb]
  rfl

/-- The last row is blank when the text has scrolled, and holds what was there at first before. -/
theorem printed_last (mem : ℤ → BitVec 16) (chs : List (BitVec 32)) :
    ∃ v', printed mem chs = some v' ∧ ∀ c < 100, charCode (v'.vga_buffer (c + 36 * 100 : ℕ)) =
      if 36 ≤ (Screen.blank.puts 100 chs).row then 0 else charCode (mem (c + 36 * 100 : ℕ)) := by
  obtain ⟨b, color, hinit, hsame⟩ := initVga_spec mem
  let v : Vga := ⟨b, 0, 0, color, 100, 37⟩
  have hf : Fits 100 37 (v.contents 100 37) :=
    ⟨by decide, by decide, by decide, by decide, fun r hr c _ => if_neg (by omega)⟩
  have hw : View 100 37 (v.contents 100 37) (v.contents 100 37) v := by
    refine ⟨⟨rfl, rfl, rfl, fun r hr c _ => ?_, fun _ _ _ _ => rfl⟩, rfl, Nat.succ_pos 99⟩
    have htop : (v.contents 100 37).top 37 + r = r := Nat.zero_add r
    rw [htop]
    exact (if_pos hr).symm
  obtain ⟨v', hv', hw'⟩ := hw.putchars hf chs
  have hprinted : printed mem chs = some v' := by
    unfold printed
    rw [hinit]
    exact hv'
  refine ⟨v', hprinted, fun c hc => ?_⟩
  have hrow : ((v.contents 100 37).puts 100 chs).row = (Screen.blank.puts 100 chs).row :=
    puts_row chs rfl rfl
  -- The last row of the window is below the cursor, so it is one of the screen at first.
  have hbelow : ((v.contents 100 37).puts 100 chs).row <
      ((v.contents 100 37).puts 100 chs).top 37 + 36 := by
    unfold Screen.top
    omega
  have hcell := (hw'.cells 36 (by omega) c hc).trans (hw'.below _ hbelow c hc)
  unfold Vga.cell at hcell
  rw [Nat.add_comm] at hcell
  rw [hcell, ← hrow]
  split_ifs with h36
  · have hbehind : ¬ ((v.contents 100 37).puts 100 chs).top 37 + 36 < 37 := by
      unfold Screen.top
      omega
    exact if_neg hbehind
  · have htop : ((v.contents 100 37).puts 100 chs).top 37 = 0 := by
      unfold Screen.top
      omega
    have hfirst : (v.contents 100 37).cell (0 + 36) c = v.cell 100 36 c := rfl
    rw [htop, hfirst, ← hsame _ (by omega), Nat.add_comm c]
    rfl

/-- The console is drawn inside of the back buffer exactly when the text has scrolled, or when the
cells of the last row held, up to the first that is zero, no character with a pixel in the lower
half of its glyph. -/
theorem drawn_inside_iff (hfont : font.Is8x16) (mem : ℤ → BitVec 16) (chs : List (BitVec 32)) :
    ∃ v', printed mem chs = some v' ∧
      ((∀ p ∈ drawVgaBuffer 800 font v'.vga_buffer 100 37, p.index.toNat < 800 * 600) ↔
        36 ≤ (Screen.blank.puts 100 chs).row ∨ ∀ i < strlen (tempText mem 100 36),
          ¬ font.LowerHalf ((tempText mem 100 36).getD i 0)) := by
  obtain ⟨v', hv', hlast⟩ := printed_last mem chs
  refine ⟨v', hv', (drawn_inside_iff_row hfont).trans ?_⟩
  -- When the cursor has come to row 36, the last row was cleared by the last scroll.
  by_cases h36 : 36 ≤ (Screen.blank.puts 100 chs).row
  · have hempty : strlen (tempText v'.vga_buffer 100 36) = 0 := by
      unfold strlen tempText
      rw [List.range_succ_eq_map, List.map_cons, hlast 0 (by omega), if_pos h36]
      rfl
    exact iff_of_true (fun i hi => absurd hi (by omega)) (Or.inl h36)
  · have hsame : tempText v'.vga_buffer 100 36 = tempText mem 100 36 := by
      unfold tempText
      refine congrArg (· ++ [0]) (List.map_congr_left (fun c hc => ?_))
      rw [hlast c (List.mem_range.mp hc), if_neg h36]
    rw [hsame]
    exact (or_iff_right h36).symm

/-- A font of 256 glyphs with all pixels set. -/
def solidFont : PsfFont where
  bytes a := if a = 8 then 32 else if a = 17 then 1 else if a = 20 then 16 else if a = 24 then 16
    else if a = 28 then 8 else if a < 32 then 0 else 255

theorem solidFont_is8x16 : solidFont.Is8x16 := ⟨by decide, by decide⟩

/-- A line feed on a console that is not cleared. -/
theorem drawn_inside_iff_solid :
    ∃ v', printed (fun _ => 65) [10] = some v' ∧
      ((∀ p ∈ drawVgaBuffer 800 solidFont v'.vga_buffer 100 37, p.index.toNat < 800 * 600) ↔
        36 ≤ (Screen.blank.puts 100 [10]).row ∨ ∀ i < strlen (tempText (fun _ => 65) 100 36),
          ¬ solidFont.LowerHalf ((tempText (fun _ => 65) 100 36).getD i 0)) :=
  drawn_inside_iff solidFont_is8x16 (fun _ => 65) [10]

/-- With the letter A in all of the video memory, and no text. -/
theorem not_always_inside :
    ¬ ∀ (font : PsfFont) (mem : ℤ → BitVec 16) (chs : List (BitVec 32)), font.Is8x16 →
      ∃ v', printed mem chs = some v' ∧
        ∀ p ∈ drawVgaBuffer 800 font v'.vga_buffer 100 37, p.index.toNat < 800 * 600 := by
  intro hall
  obtain ⟨v', hv', hinside⟩ := hall solidFont (fun _ => 65) [] solidFont_is8x16
  obtain ⟨v'', hv'', hlast⟩ := printed_last (fun _ => 65) []
  obtain rfl := Option.some.inj (hv'.symm.trans hv'')
  -- Nothing is printed, so the last row is what the memory was.
  have hcode : ∀ c < 100, charCode (v'.vga_buffer (c + 36 * 100 : ℕ)) = 65 :=
    fun c hc => (hlast c hc).trans (by rfl)
  have htext : ∃ l, tempText v'.vga_buffer 100 36 = 65 :: l := by
    unfold tempText
    rw [List.range_succ_eq_map, List.map_cons, hcode 0 (by omega)]
    exact ⟨_, rfl⟩
  obtain ⟨l, hl⟩ := htext
  have hrow := (drawn_inside_iff_row solidFont_is8x16).mp hinside 0
  rw [hl] at hrow
  have hpixel : solidFont.pixel 65 8 0 = true := by decide
  exact hrow (Nat.succ_pos _) ⟨8, 0, by decide, by decide, by decide, hpixel⟩

end Potatos
