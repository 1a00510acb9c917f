import Potatos.Console.Framebuffer
import Potatos.Mem.BootedTables

/-!
# The picture on the screen

What `kernel_main` and `halt` repeat: the image or one colour, the title, and the console are drawn
into the back buffer, one over the other, and `flip_framebuffer` copies the back buffer to the
framebuffer. The framebuffer is at `0xffffffffbd000000`, where the boot tables map 2 MiB of it.

Every pixel of the picture is a function of the image, the font and the console alone, so nothing of
an earlier picture is left (`drawFrame_eq`, `haltFrame_eq`), and the copy gets every pixel to its
place in physical memory, once and in order (`frame_shown`). The framebuffer is one of 800 by 600
pixels of four bytes, as the multiboot header asks for, and the font is no higher than a row of the
console. What interrupts the drawing is left out.
-/

namespace Potatos

open Lib

/-! ## The code -/

/-- `framebuffer`. -/
def FRAMEBUFFER : ℕ := 0xffffffffbd000000

/-- `HEADER_PIXEL`, at a place of `header_data`: three bytes from four signed characters. -/
def headerPixel (header_data : ByteMemory) (data : ℕ) : BitVec 8 × BitVec 8 × BitVec 8 :=
  let c (i : ℕ) : BitVec 32 := (header_data (data + i)).signExtend 32 - 33
  ((c 0 <<< 2 ||| (c 1).sshiftRight 4).setWidth 8,
    ((c 1 &&& 0xF) <<< 4 ||| (c 2).sshiftRight 2).setWidth 8,
    ((c 2 &&& 0x3) <<< 6 ||| c 3).setWidth 8)

section Code

variable (framebuffer_width framebuffer_height : BitVec 32) (font : PsfFont)
  (header_data : ByteMemory)

/-- The four pixels of the image's pixel. -/
def plotQuad (x y : BitVec 32) (pixel : BitVec 8 × BitVec 8 × BitVec 8) : List Pixel :=
  if x < 800 / 2 ∧ y < 600 / 2 then
    [plotPixel framebuffer_width (x * 2) (y * 2) pixel.1 pixel.2.1 pixel.2.2,
      plotPixel framebuffer_width (x * 2 + 1) (y * 2) pixel.1 pixel.2.1 pixel.2.2,
      plotPixel framebuffer_width (x * 2) (y * 2 + 1) pixel.1 pixel.2.1 pixel.2.2,
      plotPixel framebuffer_width (x * 2 + 1) (y * 2 + 1) pixel.1 pixel.2.1 pixel.2.2]
  else []

/-- The inner loop of `draw_background_image`, with `data` and the pixels so far. -/
def drawImageRow (y : ℕ) (s : ℕ × List Pixel) : ℕ × List Pixel :=
  (List.range (800 / 2)).foldl (fun s x =>
    let pixel := headerPixel header_data s.1
    let data := s.1 + 4
    (data, s.2 ++ plotQuad framebuffer_width (BitVec.ofNat 32 x) (BitVec.ofNat 32 y) pixel)) s

/-- `draw_background_image`. -/
def drawBackgroundImage : List Pixel :=
  ((List.range (600 / 2)).foldl
    (fun s y => drawImageRow framebuffer_width header_data y s) (0, [])).2

/-- The indices that `for (uint32_t i = 0; i < size; i += 4)` goes through, four in each round. -/
def forQuads (size : ℕ) : ℕ → BitVec 32 → Option (List (BitVec 32))
  | 0, _ => none
  | fuel + 1, i =>
    if i.toNat < size then (forQuads size fuel (i + 4)).map ([i, i + 1, i + 2, i + 3] ++ ·)
    else some []

/-- `clear_framebuffer`. -/
def clearFramebuffer (fuel : ℕ) (r g b : BitVec 8) : Option (List Pixel) :=
  let size := (framebuffer_width * framebuffer_height).toNat
  let color := r.setWidth 32 <<< 16 ||| g.setWidth 32 <<< 8 ||| b.setWidth 32
  (forQuads size fuel 0).map (fun is => is.map (fun i => ⟨i, color⟩))

/-- `flip_framebuffer`: the stores to the framebuffer. -/
def flipFramebuffer (fuel : ℕ) (framebuffer_buffer : ℕ → BitVec 32) :
    Option (List (ℕ × BitVec 32)) :=
  let size := (framebuffer_width * framebuffer_height).toNat
  (forQuads size fuel 0).map (fun is =>
    is.map (fun i => (FRAMEBUFFER + 4 * i.toNat, framebuffer_buffer i.toNat)))

/-- The back buffer after some pixels. -/
def plot (framebuffer_buffer : ℕ → BitVec 32) (ps : List Pixel) : ℕ → BitVec 32 :=
  ps.foldl (fun buffer p => Function.update buffer p.index.toNat p.color) framebuffer_buffer

/-- `"PotatOS"`. -/
def title : List (BitVec 8) := [80, 111, 116, 97, 116, 79, 83, 0]

/-- What the loop of `kernel_main` draws. -/
def framePixels (vga_buf : ℤ → BitVec 16) : List Pixel :=
  drawBackgroundImage framebuffer_width header_data ++
    drawText framebuffer_width font 0 0 title 255 255 255 ++
    drawVgaBuffer framebuffer_width font vga_buf 100 37

/-- What the loop of `halt` draws. -/
def haltPixels (fuel : ℕ) (vga_buf : ℤ → BitVec 16) : Option (List Pixel) :=
  (clearFramebuffer framebuffer_width framebuffer_height fuel 128 27 26).map
    (fun ps => ps ++ drawVgaBuffer framebuffer_width font vga_buf 100 37)

end Code

/-! ## The picture -/

section Picture

variable (font : PsfFont) (header_data : ByteMemory) (vga_buf : ℤ → BitVec 16)

/-- The font is 8 pixels wide, and a glyph fits into a row of the console. -/
structure PsfFont.FitsRows : Prop where
  width : font.width = 8
  height : font.height ≤ 16

/-- A row of text has a pixel there. -/
def textPixel (text : List (BitVec 8)) (x y : ℕ) : Bool :=
  decide (x / 8 < strlen text ∧ y < font.height) && font.pixel (text.getD (x / 8) 0) y (x % 8)

/-- The colour of three bytes. -/
def colorOf (pixel : BitVec 8 × BitVec 8 × BitVec 8) : BitVec 32 :=
  pixel.1.setWidth 32 <<< 16 ||| pixel.2.1.setWidth 32 <<< 8 ||| pixel.2.2.setWidth 32

/-- The image, at twice its size. -/
def imageAt (x y : ℕ) : BitVec 32 := colorOf (headerPixel header_data (4 * (400 * (y / 2) + x / 2)))

/-- The title over the image. -/
def titledAt (x y : ℕ) : BitVec 32 :=
  if textPixel font title x y then 0xFFFFFF else imageAt header_data x y

/-- The console over what is behind it. -/
def consoleAt (behind : ℕ → ℕ → BitVec 32) (x y : ℕ) : BitVec 32 :=
  if 16 ≤ y ∧ textPixel font (tempText vga_buf 100 ((y - 16) / 16)) x ((y - 16) % 16) then 0xA0A0A0
  else behind x y

/-- The picture of `kernel_main`. -/
def pictureAt : ℕ → ℕ → BitVec 32 := consoleAt font vga_buf (titledAt font header_data)

/-- The picture of `halt`. -/
def haltPictureAt : ℕ → ℕ → BitVec 32 := consoleAt font vga_buf (fun _ _ => 0x801B1A)

end Picture

variable {font : PsfFont} {header_data : ByteMemory} {vga_buf : ℤ → BitVec 16}
  {buffer : ℕ → BitVec 32} {ps qs : List Pixel} {x y i n k fuel : ℕ} {c : BitVec 32}

/-! ## Pixels over each other -/

theorem plot_append : plot buffer (ps ++ qs) = plot (plot buffer ps) qs := List.foldl_append

/-- What no pixel is at is as it was. -/
theorem plot_of_not_mem (h : ∀ p ∈ ps, p.index.toNat ≠ i) : plot buffer ps i = buffer i := by
  induction ps generalizing buffer with
  | nil => rfl
  | cons p ps ih =>
    have hne := h p List.mem_cons_self
    show plot (Function.update buffer p.index.toNat p.color) ps i = _
    rw [ih (fun q hq => h q (List.mem_cons_of_mem _ hq)), Function.update_of_ne hne.symm]

/-- Where all pixels have one colour, it is seen. -/
theorem plot_of_mem (h : ∃ p ∈ ps, p.index.toNat = i)
    (hcolor : ∀ p ∈ ps, p.index.toNat = i → p.color = c) : plot buffer ps i = c := by
  induction ps generalizing buffer with
  | nil =>
    obtain ⟨p, hp, -⟩ := h
    cases hp
  | cons p ps ih =>
    have hrest : ∀ q ∈ ps, q.index.toNat = i → q.color = c :=
      fun q hq => hcolor q (List.mem_cons_of_mem _ hq)
    show plot (Function.update buffer p.index.toNat p.color) ps i = c
    by_cases hlater : ∃ q ∈ ps, q.index.toNat = i
    · exact ih hlater hrest
    · -- It is the last one there.
      obtain ⟨q, hq, hindex⟩ := h
      rcases List.mem_cons.mp hq with rfl | hq
      · rw [plot_of_not_mem (fun r hr heq => hlater ⟨r, hr, heq⟩), ← hindex, Function.update_self]
        exact hcolor q List.mem_cons_self hindex
      · exact absurd ⟨q, hq, hindex⟩ hlater

/-- The pixels that are drawn, by where they are and which colour they get. -/
def Draws (ps : List Pixel) (at' : ℕ → ℕ → Prop) (color : ℕ → ℕ → BitVec 32) : Prop :=
  ∀ p, p ∈ ps ↔ ∃ x y, x < 800 ∧ y < 608 ∧ at' x y ∧
    p = ⟨BitVec.ofNat 32 (y * 800 + x), color x y⟩

theorem index_toNat (hx : x < 800) (hy : y < 608) :
    (BitVec.ofNat 32 (y * 800 + x)).toNat = y * 800 + x :=
  (BitVec.toNat_ofNat ..).trans (Nat.mod_eq_of_lt (by omega))

/-- One layer over what is there. -/
theorem Draws.plot {at' : ℕ → ℕ → Prop} {color : ℕ → ℕ → BitVec 32} (h : Draws ps at' color)
    (hx : x < 800) (hy : y < 608) [Decidable (at' x y)] :
    plot buffer ps (y * 800 + x) = if at' x y then color x y else buffer (y * 800 + x) := by
  -- An index is that of one place.
  have hplace : ∀ p ∈ ps, p.index.toNat = y * 800 + x → at' x y ∧ p.color = color x y := by
    intro p hp heq
    obtain ⟨x', y', hx', hy', hat, rfl⟩ := (h p).mp hp
    have heq' : y' * 800 + x' = y * 800 + x := (index_toNat hx' hy').symm.trans heq
    obtain rfl : x' = x := by omega
    obtain rfl : y' = y := by omega
    exact ⟨hat, rfl⟩
  split_ifs with hat
  · exact plot_of_mem ⟨_, (h _).mpr ⟨x, y, hx, hy, hat, rfl⟩, index_toNat hx hy⟩
      (fun p hp heq => (hplace p hp heq).2)
  · exact plot_of_not_mem (fun p hp heq => hat (hplace p hp heq).1)

/-! ## The image -/

theorem plotPixel_eq (x y : ℕ) (r g b : BitVec 8) :
    plotPixel 800 (BitVec.ofNat 32 x) (BitVec.ofNat 32 y) r g b =
      ⟨BitVec.ofNat 32 (y * 800 + x), colorOf (r, g, b)⟩ := by
  unfold plotPixel colorOf
  rw [BitVec.ofNat_add, BitVec.ofNat_mul, BitVec.add_comm]
  rfl

/-- A pixel of the image is four pixels of the picture. -/
theorem mem_plotQuad (hx : x < 400) (hy : y < 300) (pixel : BitVec 8 × BitVec 8 × BitVec 8)
    (p : Pixel) : p ∈ plotQuad 800 (BitVec.ofNat 32 x) (BitVec.ofNat 32 y) pixel ↔
      ∃ x' y', x' / 2 = x ∧ y' / 2 = y ∧
        p = ⟨BitVec.ofNat 32 (y' * 800 + x'), colorOf pixel⟩ := by
  have hlt : BitVec.ofNat 32 x < 800 / 2 ∧ BitVec.ofNat 32 y < 600 / 2 := by
    constructor
    · exact BitVec.lt_def.mpr (by rw [BitVec.toNat_ofNat]; show x % 2^32 < 400; omega)
    · exact BitVec.lt_def.mpr (by rw [BitVec.toNat_ofNat]; show y % 2^32 < 300; omega)
  have heven : ∀ k, BitVec.ofNat 32 k * 2 = BitVec.ofNat 32 (k * 2) :=
    fun k => (BitVec.ofNat_mul ..).symm
  have hodd : ∀ k, BitVec.ofNat 32 (k * 2) + 1 = BitVec.ofNat 32 (k * 2 + 1) :=
    fun k => (BitVec.ofNat_add ..).symm
  unfold plotQuad
  rw [if_pos hlt]
  simp only [heven, hodd, plotPixel_eq, List.mem_cons, List.not_mem_nil, or_false]
  constructor
  · rintro (rfl | rfl | rfl | rfl)
    · exact ⟨x * 2, y * 2, by omega, by omega, rfl⟩
    · exact ⟨x * 2 + 1, y * 2, by omega, by omega, rfl⟩
    · exact ⟨x * 2, y * 2 + 1, by omega, by omega, rfl⟩
    · exact ⟨x * 2 + 1, y * 2 + 1, by omega, by omega, rfl⟩
  · rintro ⟨x', y', rfl, rfl, rfl⟩
    have hx' : x' = x' / 2 * 2 ∨ x' = x' / 2 * 2 + 1 := by omega
    have hy' : y' = y' / 2 * 2 ∨ y' = y' / 2 * 2 + 1 := by omega
    rcases hx' with hx' | hx' <;> rcases hy' with hy' | hy' <;> rw [← hx', ← hy'] <;> simp

/-- The pointer goes through the data, four characters for each pixel. -/
theorem foldl_quads (header_data : ByteMemory) (w : BitVec 32) (y n : ℕ) (s : ℕ × List Pixel) :
    (List.range n).foldl (fun s x => (s.1 + 4, s.2 ++ plotQuad w (BitVec.ofNat 32 x)
      (BitVec.ofNat 32 y) (headerPixel header_data s.1))) s =
      (s.1 + 4 * n, s.2 ++ (List.range n).flatMap (fun x => plotQuad w (BitVec.ofNat 32 x)
        (BitVec.ofNat 32 y) (headerPixel header_data (s.1 + 4 * x)))) := by
  induction n with
  | zero => simp
  | succ n ih =>
    rw [List.range_succ, List.foldl_append, ih, List.foldl_cons, List.foldl_nil,
      List.flatMap_append, List.flatMap_singleton, List.append_assoc]
    exact Prod.ext (by show s.1 + 4 * n + 4 = s.1 + 4 * (n + 1); omega) rfl

theorem foldl_rows (header_data : ByteMemory) (w : BitVec 32) (n : ℕ) :
    (List.range n).foldl (fun s y => drawImageRow w header_data y s) (0, []) =
      (1600 * n, (List.range n).flatMap (fun y => (List.range 400).flatMap (fun x =>
        plotQuad w (BitVec.ofNat 32 x) (BitVec.ofNat 32 y)
          (headerPixel header_data (4 * (400 * y + x)))))) := by
  induction n with
  | zero => rfl
  | succ n ih =>
    have hplace : ∀ x, 1600 * n + 4 * x = 4 * (400 * n + x) := fun x => by omega
    have hnext : 1600 * n + 4 * (800 / 2) = 1600 * (n + 1) := by omega
    rw [List.range_succ, List.foldl_append, ih, List.foldl_cons, List.foldl_nil, drawImageRow]
    dsimp only
    rw [foldl_quads, List.flatMap_append, List.flatMap_singleton, hnext]
    simp only [hplace]

/-- The image covers the picture. -/
theorem draws_image : Draws (drawBackgroundImage 800 header_data) (fun _ y => y < 600)
    (imageAt header_data) := by
  intro p
  unfold drawBackgroundImage
  rw [foldl_rows]
  simp only [List.mem_flatMap, List.mem_range]
  constructor
  · rintro ⟨y, hy, x, hx, hp⟩
    obtain ⟨x', y', rfl, rfl, rfl⟩ := (mem_plotQuad hx hy _ p).mp hp
    exact ⟨x', y', by omega, by omega, by omega, rfl⟩
  · rintro ⟨x, y, hx, -, hy, rfl⟩
    exact ⟨y / 2, by omega, x / 2, by omega,
      (mem_plotQuad (by omega) (by omega) _ _).mpr ⟨x, y, rfl, rfl, rfl⟩⟩

/-! ## Text -/

/-- The pixels of a text, by the place in its row. -/
theorem mem_drawText (hfont : font.FitsRows) {text : List (BitVec 8)} (hlen : strlen text ≤ 100)
    (cy : ℕ) (r g b : BitVec 8) (p : Pixel) :
    p ∈ drawText 800 font 0 (BitVec.ofNat 32 cy) text r g b ↔
      ∃ x y, x < 800 ∧ textPixel font text x y = true ∧
        p = ⟨BitVec.ofNat 32 ((cy + y) * 800 + x), colorOf (r, g, b)⟩ := by
  have hplot : ∀ i x y, plotPixel 800 (0 + BitVec.ofNat 32 (i * 8) + BitVec.ofNat 32 x)
      (BitVec.ofNat 32 cy + BitVec.ofNat 32 y) r g b =
        ⟨BitVec.ofNat 32 ((cy + y) * 800 + (i * 8 + x)), colorOf (r, g, b)⟩ := by
    intro i x y
    have hzero : 0 + BitVec.ofNat 32 (i * 8) = BitVec.ofNat 32 (i * 8) := BitVec.zero_add _
    rw [hzero, ← BitVec.ofNat_add, ← BitVec.ofNat_add, plotPixel_eq]
  unfold drawText drawCharacter textPixel
  simp only [List.mem_flatMap, List.mem_range, List.mem_ite_nil_right, List.mem_singleton,
    hfont.width, hplot, Bool.and_eq_true, decide_eq_true_eq]
  constructor
  · rintro ⟨i, hi, y, hy, x, hx, hpixel, rfl⟩
    have hdiv : (i * 8 + x) / 8 = i := by omega
    have hmod : (i * 8 + x) % 8 = x := by omega
    exact ⟨i * 8 + x, y, by omega, ⟨⟨by omega, hy⟩, by rw [hdiv, hmod]; exact hpixel⟩, rfl⟩
  · rintro ⟨x, y, -, ⟨⟨hi, hy⟩, hpixel⟩, rfl⟩
    have hsum : x / 8 * 8 + x % 8 = x := by omega
    exact ⟨x / 8, hi, y, hy, x % 8, by omega, hpixel, by rw [hsum]⟩

/-- A pixel of a text is in its row. -/
theorem textPixel_lt (hfont : font.FitsRows) {text : List (BitVec 8)}
    (h : textPixel font text x y = true) : y < 16 := by
  have hlt := (of_decide_eq_true (Bool.and_eq_true_iff.mp h).1).2
  exact Nat.lt_of_lt_of_le hlt hfont.height

theorem draws_title (hfont : font.FitsRows) : Draws (drawText 800 font 0 0 title 255 255 255)
    (fun x y => textPixel font title x y = true) (fun _ _ => 0xFFFFFF) := by
  have hcolor : colorOf (255, 255, 255) = 0xFFFFFF := by decide
  intro p
  refine (mem_drawText hfont (by decide) 0 255 255 255 p).trans ?_
  simp only [Nat.zero_add, hcolor]
  constructor
  · rintro ⟨x, y, hx, hpixel, rfl⟩
    have hy := textPixel_lt hfont hpixel
    exact ⟨x, y, hx, by omega, hpixel, rfl⟩
  · rintro ⟨x, y, hx, -, hpixel, rfl⟩
    exact ⟨x, y, hx, hpixel, rfl⟩

theorem draws_console (hfont : font.FitsRows) : Draws (drawVgaBuffer 800 font vga_buf 100 37)
    (fun x y => 16 ≤ y ∧
      textPixel font (tempText vga_buf 100 ((y - 16) / 16)) x ((y - 16) % 16) = true)
    (fun _ _ => 0xA0A0A0) := by
  have hcolor : colorOf (160, 160, 160) = 0xA0A0A0 := by decide
  intro p
  unfold drawVgaBuffer
  simp only [List.mem_flatMap, List.mem_range, mem_drawText hfont (strlen_tempText_le _), hcolor]
  constructor
  · rintro ⟨py, hpy, x, y, hx, hpixel, rfl⟩
    have hy := textPixel_lt hfont hpixel
    have hdiv : (py * 16 + 16 + y - 16) / 16 = py := by omega
    have hmod : (py * 16 + 16 + y - 16) % 16 = y := by omega
    refine ⟨x, py * 16 + 16 + y, hx, by omega, ⟨by omega, ?_⟩, rfl⟩
    rw [hdiv, hmod]
    exact hpixel
  · rintro ⟨x, y, hx, hy, ⟨h16, hpixel⟩, rfl⟩
    have hsum : (y - 16) / 16 * 16 + 16 + (y - 16) % 16 = y := by omega
    exact ⟨(y - 16) / 16, by omega, x, (y - 16) % 16, hx, hpixel, by rw [hsum]⟩

/-! ## The back buffer -/

/-- The back buffer of `kernel_main` is the picture, whatever it held. -/
theorem drawFrame_eq (hfont : font.FitsRows) (hx : x < 800) (hy : y < 600) :
    plot buffer (framePixels 800 font header_data vga_buf) (y * 800 + x) =
      pictureAt font header_data vga_buf x y := by
  unfold framePixels pictureAt consoleAt titledAt
  rw [plot_append, plot_append, (draws_console hfont).plot hx (by omega),
    (draws_title hfont).plot hx (by omega), draws_image.plot hx (by omega), if_pos hy]

/-- The rounds of the loops over the whole buffer. -/
theorem forQuads_eq (hn : 4 * n + 4 < 2^32) (hk : k ≤ n) (hfuel : n < k + fuel) :
    forQuads (4 * n) fuel (BitVec.ofNat 32 (4 * k)) =
      some ((List.range (4 * n - 4 * k)).map (fun j => BitVec.ofNat 32 (4 * k + j))) := by
  induction fuel generalizing k with
  | zero => omega
  | succ fuel ih =>
    have hindex : (BitVec.ofNat 32 (4 * k)).toNat = 4 * k :=
      (BitVec.toNat_ofNat ..).trans (Nat.mod_eq_of_lt (by omega))
    rw [forQuads, hindex]
    by_cases hlt : 4 * k < 4 * n
    · have hnext : BitVec.ofNat 32 (4 * k) + 4 = BitVec.ofNat 32 (4 * (k + 1)) :=
        (BitVec.ofNat_add ..).symm
      have hcount : 4 * n - 4 * k = 4 + (4 * n - 4 * (k + 1)) := by omega
      have hshift : ∀ j, 4 * (k + 1) + j = 4 * k + (4 + j) := fun j => by omega
      have hquad : [BitVec.ofNat 32 (4 * k), BitVec.ofNat 32 (4 * k) + 1,
          BitVec.ofNat 32 (4 * k) + 2, BitVec.ofNat 32 (4 * k) + 3] =
            (List.range 4).map (fun j => BitVec.ofNat 32 (4 * k + j)) := by
        simp only [BitVec.ofNat_add]
        exact congrArg (· :: _) (BitVec.add_zero _).symm
      rw [if_pos hlt, hquad, hnext, ih (by omega) (by omega), hcount, List.range_add,
        List.map_append, List.map_map]
      simp only [hshift]
      rfl
    · have hcount : 4 * n - 4 * k = 0 := by omega
      rw [if_neg hlt, hcount]
      rfl

theorem forQuads_buffer (hfuel : 120000 < fuel) : forQuads ((800 : BitVec 32) * 600).toNat fuel 0 =
    some ((List.range (800 * 600)).map (BitVec.ofNat 32)) := by
  have hsize : ((800 : BitVec 32) * 600).toNat = 4 * 120000 := by decide
  rw [hsize]
  refine (forQuads_eq (n := 120000) (k := 0) (by norm_num) (by omega) (by omega)).trans ?_
  simp only [Nat.mul_zero, Nat.zero_add, Nat.sub_zero]

theorem draws_clear (c : BitVec 32) :
    Draws (((List.range (800 * 600)).map (BitVec.ofNat 32)).map (fun i => ⟨i, c⟩))
      (fun _ y => y < 600) (fun _ _ => c) := by
  intro p
  simp only [List.mem_map, List.mem_range]
  constructor
  · rintro ⟨-, ⟨i, hi, rfl⟩, rfl⟩
    have hsum : i / 800 * 800 + i % 800 = i := by omega
    exact ⟨i % 800, i / 800, by omega, by omega, by omega, by rw [hsum]⟩
  · rintro ⟨x, y, hx, -, hy, rfl⟩
    exact ⟨_, ⟨y * 800 + x, by omega, rfl⟩, rfl⟩

/-- The back buffer of `halt`. -/
theorem haltFrame_eq (vga_buf : ℤ → BitVec 16) (hfont : font.FitsRows) (hfuel : 120000 < fuel) :
    ∃ ps, haltPixels 800 600 font fuel vga_buf = some ps ∧
      (∀ p ∈ ps, p ∈ drawVgaBuffer 800 font vga_buf 100 37 ∨ p.index.toNat < 800 * 600) ∧
      ∀ buffer x y, x < 800 → y < 600 →
        plot buffer ps (y * 800 + x) = haltPictureAt font vga_buf x y := by
  have hcolor : (128 : BitVec 8).setWidth 32 <<< 16 ||| (27 : BitVec 8).setWidth 32 <<< 8 |||
      (26 : BitVec 8).setWidth 32 = (0x801B1A : BitVec 32) := by decide
  refine ⟨((List.range (800 * 600)).map (BitVec.ofNat 32)).map (fun i => ⟨i, 0x801B1A⟩) ++
    drawVgaBuffer 800 font vga_buf 100 37, ?_, ?_, fun buffer x y hx hy => ?_⟩
  · unfold haltPixels clearFramebuffer
    dsimp only
    rw [forQuads_buffer hfuel, hcolor]
    rfl
  · intro p hp
    rcases List.mem_append.mp hp with hp | hp
    · obtain ⟨x, y, hx, -, hy, rfl⟩ := (draws_clear _ p).mp hp
      refine Or.inr ?_
      rw [index_toNat hx (by omega)]
      omega
    · exact Or.inl hp
  · unfold haltPictureAt consoleAt
    rw [plot_append, (draws_console hfont).plot hx (by omega), (draws_clear _).plot hx (by omega),
      if_pos hy]

/-! ## The screen -/

/-- The virtual address of a pixel of the framebuffer. -/
theorem translate_framebuffer {b : BootImage} {rest : PhysMem} {addr : ℕ}
    (haddr : addr + 2^21 ≤ 2^52) (haligned : addr % 4096 = 0) (hi : i < 800 * 600) :
    (b.tables (some addr) rest).translate b.p4_table (FRAMEBUFFER + 4 * i) =
      some (addr + 4 * i) := by
  have h39 : field (FRAMEBUFFER + 4 * i) 39 = 511 := field_eq (by
    show (0xffffffffbd000000 + 4 * i) / 2^39 % 512 = 511
    omega)
  have h30 : field (FRAMEBUFFER + 4 * i) 30 = 510 := field_eq (by
    show (0xffffffffbd000000 + 4 * i) / 2^30 % 512 = 510
    omega)
  have h21 : field (FRAMEBUFFER + 4 * i) 21 = 488 := field_eq (by
    show (0xffffffffbd000000 + 4 * i) / 2^21 % 512 = 488
    omega)
  have hfb : ∀ a, some addr = some a → a + 2^21 ≤ 2^52 := by
    rintro a ⟨⟩
    exact haddr
  have hsum : alignToPage addr + (FRAMEBUFFER + 4 * i) % 2^21 = addr + 4 * i := by
    unfold alignToPage FRAMEBUFFER
    omega
  rw [tables_translate hfb (by rw [h39]; decide), bootTranslate, h39, h30, h21,
    if_pos ⟨Or.inr rfl, Or.inr rfl⟩, if_neg (by decide), if_pos rfl, Option.map_some, hsum]

/-- The copy gets a picture to the framebuffer, a pixel at a time and in order. -/
theorem flip_shows {b : BootImage} {rest : PhysMem} {addr : ℕ} (haddr : addr + 2^21 ≤ 2^52)
    (haligned : addr % 4096 = 0) (hfuel : 120000 < fuel) {picture : ℕ → ℕ → BitVec 32}
    (hpicture : ∀ x y, x < 800 → y < 600 → buffer (y * 800 + x) = picture x y) :
    ∃ stores, flipFramebuffer 800 600 fuel buffer = some stores ∧
      stores.map (fun s => ((b.tables (some addr) rest).translate b.p4_table s.1, s.2)) =
        (List.range (800 * 600)).map (fun i =>
          (some (addr + 4 * i), picture (i % 800) (i / 800))) := by
  unfold flipFramebuffer
  dsimp only
  rw [forQuads_buffer hfuel]
  refine ⟨_, rfl, ?_⟩
  rw [List.map_map, List.map_map]
  refine List.map_congr_left (fun i hi => ?_)
  have hlt := List.mem_range.mp hi
  have hindex : (BitVec.ofNat 32 i).toNat = i :=
    (BitVec.toNat_ofNat ..).trans (Nat.mod_eq_of_lt (by omega))
  have hsum : i / 800 * 800 + i % 800 = i := by omega
  have hpixel := hpicture (i % 800) (i / 800) (by omega) (by omega)
  rw [hsum] at hpixel
  dsimp only [Function.comp_apply]
  rw [hindex, translate_framebuffer haddr haligned hlt, hpixel]

/-- One round of the loop of `kernel_main`, and of that of `halt`, over any back buffer. As long as
the console is drawn inside of the back buffer, everything is, and the copy then puts the whole
picture into physical memory: each pixel once, in order, and at its place. -/
theorem frame_shown {b : BootImage} {rest : PhysMem} {addr : ℕ} (haddr : addr + 2^21 ≤ 2^52)
    (haligned : addr % 4096 = 0) (hfuel : 120000 < fuel) (hfont : font.FitsRows)
    (header_data : ByteMemory) (buffer : ℕ → BitVec 32)
    (hinside : ∀ p ∈ drawVgaBuffer 800 font vga_buf 100 37, p.index.toNat < 800 * 600) :
    ((∀ p ∈ framePixels 800 font header_data vga_buf, p.index.toNat < 800 * 600) ∧
      ∃ stores, flipFramebuffer 800 600 fuel
          (plot buffer (framePixels 800 font header_data vga_buf)) = some stores ∧
        stores.map (fun s => ((b.tables (some addr) rest).translate b.p4_table s.1, s.2)) =
          (List.range (800 * 600)).map (fun i =>
            (some (addr + 4 * i), pictureAt font header_data vga_buf (i % 800) (i / 800)))) ∧
    ∃ ps, haltPixels 800 600 font fuel vga_buf = some ps ∧
      (∀ p ∈ ps, p.index.toNat < 800 * 600) ∧
      ∃ stores, flipFramebuffer 800 600 fuel (plot buffer ps) = some stores ∧
        stores.map (fun s => ((b.tables (some addr) rest).translate b.p4_table s.1, s.2)) =
          (List.range (800 * 600)).map (fun i =>
            (some (addr + 4 * i), haltPictureAt font vga_buf (i % 800) (i / 800))) := by
  obtain ⟨ps, hps, hinside', hpicture⟩ := haltFrame_eq vga_buf hfont hfuel
  refine ⟨⟨?_, flip_shows haddr haligned hfuel (fun x y hx hy => drawFrame_eq hfont hx hy)⟩, ps,
    hps, fun p hp => (hinside' p hp).elim (hinside p) id,
    flip_shows haddr haligned hfuel (hpicture buffer)⟩
  intro p hp
  rcases List.mem_append.mp hp with hp | hp
  · rcases List.mem_append.mp hp with hp | hp
    · obtain ⟨x, y, hx, -, hy, rfl⟩ := (draws_image p).mp hp
      rw [index_toNat hx (by omega)]
      omega
    · obtain ⟨x, y, hx, -, hpixel, rfl⟩ := (draws_title hfont p).mp hp
      have hy := textPixel_lt hfont hpixel
      rw [index_toNat hx (by omega)]
      omega
  · exact hinside p hp

/-- A font of 256 glyphs of 8 by 14 pixels, with all of them set. -/
def lowFont : PsfFont where
  bytes a := if a = 8 then 32 else if a = 17 then 1 else if a = 20 then 14 else if a = 24 then 14
    else if a = 28 then 8 else if a < 32 then 0 else 255

/-- A console with "Hi" in its first row. -/
def hiConsole : ℤ → BitVec 16 := fun i => if i = 0 then 0x748 else if i = 1 then 0x769 else 0

/-- "Hi" over an image of one colour, in a back buffer that was white. -/
theorem frame_shown_hi :
    (∃ stores, flipFramebuffer 800 600 120001 (plot (fun _ => 0xFFFFFF)
        (framePixels 800 lowFont (fun _ => 33) hiConsole)) = some stores ∧
      stores.map (fun s => ((imageAtOneMiB.tables (some 0xFD000000) (fun _ _ => 0)).translate
          imageAtOneMiB.p4_table s.1, s.2)) =
        (List.range (800 * 600)).map (fun i => (some (0xFD000000 + 4 * i),
          pictureAt lowFont (fun _ => 33) hiConsole (i % 800) (i / 800)))) ∧
    pictureAt lowFont (fun _ => 33) hiConsole 8 16 = 0xA0A0A0 ∧
    pictureAt lowFont (fun _ => 33) hiConsole 8 30 = 0 := by
  have hinside : ∀ p ∈ drawVgaBuffer 800 lowFont hiConsole 100 37, p.index.toNat < 800 * 600 := by
    intro p hp
    obtain ⟨py, hpy, i, hi, y, hy, x, hx, -, rfl⟩ := mem_drawVgaBuffer.mp hp
    have hi' : strlen (tempText hiConsole 100 py) ≤ 100 := strlen_tempText_le py
    have hlast : strlen (tempText hiConsole 100 36) = 0 := by decide
    have hne : py ≠ 36 := by
      rintro rfl
      omega
    have hheight : lowFont.height = 14 := by decide
    have hwidth : lowFont.width = 8 := by decide
    rw [hheight] at hy
    rw [hwidth] at hx ⊢
    rw [plotPixel_index hpy (by omega) (by omega) hx]
    omega
  exact ⟨(frame_shown (by norm_num) (by norm_num) (by omega) ⟨by decide, by decide⟩ _ _
    hinside).1.2, by decide, by decide⟩

end Potatos
