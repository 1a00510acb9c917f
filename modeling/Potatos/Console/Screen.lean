import Potatos.Console.Vga
import Mathlib.Tactic.Linarith

/-!
# The console is a window on an unbounded screen

A screen without a bottom, on which characters are written row after row. The console shows the last
rows of it that fit, with the row of the cursor always above the last one: when the cursor would
come to the last row, the window moves down by a row (`Rows.newline`). The rows below the cursor
are as they were at first, up to the `H` rows of the buffer, and behind these they are blank. What
each character does to the screen, `putchar` does to the window (`View.putchar`).
-/

namespace Potatos

open Lib

/-- The character codes of all rows, and the cursor. -/
structure Screen where
  cell : ℕ → ℕ → BitVec 8
  row : ℕ
  col : ℕ

namespace Screen

/-- The cursor to the start of the next row. -/
def newline (s : Screen) : Screen := { s with row := s.row + 1, col := 0 }

/-- A character into the cell in the row of the cursor. -/
def write (s : Screen) (col : ℕ) (ch : BitVec 8) : Screen :=
  { s with cell := fun r c => if r = s.row ∧ c = col then ch else s.cell r c }

/-- A character: a line feed, the erase code, or one that is written. -/
def put (W : ℕ) (s : Screen) (ch : BitVec 32) : Screen :=
  if ch = 10 then s.newline
  else if ch = 14 then { s.write (s.col - 1) 32 with col := s.col - 1 }
  else
    let s := { s.write s.col (ch.setWidth 8) with col := s.col + 1 }
    if s.col < W then s else s.newline

/-- The characters one after the other. -/
def puts (W : ℕ) (s : Screen) (chs : List (BitVec 32)) : Screen := chs.foldl (put W) s

/-- No character, and the cursor at the top. -/
def blank : Screen := ⟨fun _ _ => 0, 0, 0⟩

/-- The first row that a window of `H` rows shows. -/
def top (s : Screen) (H : ℕ) : ℕ := s.row - (H - 2)

end Screen

variable {W H r c y x : ℕ} {s s₀ : Screen} {v v' : Vga}

/-! ## Cells -/

/-- A cell of the buffer is in it. -/
theorem cell_lt (hr : r < H) (hc : c < W) : r * W + c < W * H := by
  calc r * W + c < r * W + W := by omega
    _ = (r + 1) * W := by ring
    _ ≤ H * W := Nat.mul_le_mul_right W hr
    _ = W * H := Nat.mul_comm H W

theorem cell_row_lt (hlt : r < y) (hc : c < W) : r * W + c < y * W + x := by
  calc r * W + c < r * W + W := by omega
    _ = (r + 1) * W := by ring
    _ ≤ y * W := Nat.mul_le_mul_right W hlt
    _ ≤ y * W + x := Nat.le_add_right _ _

/-- Two cells are the same only in the same row and column. -/
theorem cell_inj (hc : c < W) (hx : x < W) : r * W + c = y * W + x ↔ r = y ∧ c = x := by
  constructor
  · intro h
    rcases Nat.lt_trichotomy r y with hlt | rfl | hlt
    · exact absurd h (cell_row_lt hlt hc).ne
    · exact ⟨rfl, by omega⟩
    · exact absurd h (cell_row_lt hlt hx).ne'
  · rintro ⟨rfl, rfl⟩
    rfl

namespace Vga

/-- The character code in a row and a column. -/
def cell (v : Vga) (W r c : ℕ) : BitVec 8 := charCode (v.vga_buffer (r * W + c : ℕ))

theorem read_eq (hW : v.VGA_WIDTH = W) (hH : v.VGA_HEIGHT = H) {i : ℕ} (hi : i < W * H) :
    v.read i = some (v.vga_buffer i) := by
  have hin : v.InBuffer i := by
    unfold InBuffer
    rw [hW, hH]
    exact_mod_cast And.intro (Nat.zero_le i) hi
  exact if_pos hin

theorem write_eq (hW : v.VGA_WIDTH = W) (hH : v.VGA_HEIGHT = H) {i : ℕ} (hi : i < W * H)
    (a : BitVec 16) :
    v.write i a = some { v with vga_buffer := Function.update v.vga_buffer i a } := by
  have hin : v.InBuffer i := by
    unfold InBuffer
    rw [hW, hH]
    exact_mod_cast And.intro (Nat.zero_le i) hi
  exact if_pos hin

/-- A character written to a cell. -/
theorem cell_update (hc : c < W) (hx : x < W) (ch color : BitVec 8) :
    cell { v with vga_buffer :=
        Function.update v.vga_buffer (y * W + x : ℕ) (vgaEntry ch color) } W r c =
      if r = y ∧ c = x then ch else v.cell W r c := by
  unfold cell
  dsimp only
  split_ifs with h
  · obtain ⟨rfl, rfl⟩ := h
    rw [Function.update_self, charCode_vgaEntry]
  · rw [Function.update_of_ne]
    intro heq
    exact h ((cell_inj hc hx).mp (by exact_mod_cast heq))

/-! ## Scrolling -/

/-- The first loop of `vga_scroll_screen` moves every row but the first one up. Each round reads a
cell that no round before has written. -/
theorem moveUp (hW : v.VGA_WIDTH = W) (hH : v.VGA_HEIGHT = H) (hpos : 1 ≤ W) :
    ∃ b, v.forLoop (W * H - W : ℕ) (fun v i => do v.write i (← v.read (i + v.VGA_WIDTH))) =
        some { v with vga_buffer := b } ∧
      ∀ i : ℕ, b i = if i < W * H - W then v.vga_buffer (i + W : ℕ) else v.vga_buffer i := by
  have hloop := @forRange_spec _ (W * H - W)
    (fun (v : Vga) (i : ℕ) => do v.write i (← v.read (i + v.VGA_WIDTH))) v
    (fun k v' => ∃ b, v' = { v with vga_buffer := b } ∧
      ∀ i : ℕ, b i = if i < k then v.vga_buffer (i + W : ℕ) else v.vga_buffer i)
    ⟨v.vga_buffer, rfl, fun i => (if_neg (Nat.not_lt_zero i)).symm⟩ ?_
  · obtain ⟨v', hv', b, rfl, hb⟩ := hloop
    exact ⟨b, hv', hb⟩
  · rintro k hk - ⟨b, rfl, hb⟩
    have hread := read_eq (v := { v with vga_buffer := b }) hW hH (by omega : k + W < W * H)
    have hwrite := write_eq (v := { v with vga_buffer := b }) hW hH (by omega : k < W * H)
      (b (k + W : ℕ))
    have hindex : (k : ℤ) + v.VGA_WIDTH = (k + W : ℕ) := by rw [hW, Nat.cast_add]
    refine ⟨_, ?_, Function.update b k (b (k + W : ℕ)), rfl, fun i => ?_⟩
    · dsimp only
      rw [hindex, hread]
      exact hwrite
    · rcases Nat.lt_trichotomy i k with hlt | rfl | hlt
      · rw [Function.update_of_ne (by omega), hb, if_pos hlt, if_pos (by omega)]
      · rw [Function.update_self, hb, if_neg (by omega), if_pos (by omega)]
      · rw [Function.update_of_ne (by omega), hb, if_neg (by omega), if_neg (by omega)]

/-- A loop that writes the same to `n` cells from `a` on. -/
theorem fill (hW : v.VGA_WIDTH = W) (hH : v.VGA_HEIGHT = H) {n a : ℕ} (ha : a + n ≤ W * H)
    (f : BitVec 8 → BitVec 16) :
    ∃ b, v.forLoop n (fun v i => v.write (a + i) (f v.vga_color)) =
        some { v with vga_buffer := b } ∧
      ∀ i : ℕ, b i = if a ≤ i ∧ i < a + n then f v.vga_color else v.vga_buffer i := by
  have hloop := @forRange_spec _ n (fun (v : Vga) (i : ℕ) => v.write (a + i) (f v.vga_color)) v
    (fun k v' => ∃ b, v' = { v with vga_buffer := b } ∧
      ∀ i : ℕ, b i = if a ≤ i ∧ i < a + k then f v.vga_color else v.vga_buffer i)
    ⟨v.vga_buffer, rfl, fun i => (if_neg (by omega)).symm⟩ ?_
  · obtain ⟨v', hv', b, rfl, hb⟩ := hloop
    exact ⟨b, hv', hb⟩
  · rintro k hk - ⟨b, rfl, hb⟩
    have hwrite := write_eq (v := { v with vga_buffer := b }) hW hH (by omega : a + k < W * H)
      (f v.vga_color)
    refine ⟨_, ?_, Function.update b (a + k : ℕ) (f v.vga_color), rfl, fun i => ?_⟩
    · rw [← Nat.cast_add]
      exact hwrite
    · by_cases heq : i = a + k
      · rw [heq, Function.update_self, if_pos (by omega)]
      · rw [Function.update_of_ne (by omega), hb]
        exact if_congr (by omega) rfl rfl

/-- `vga_scroll_screen` moves the rows up, and the last row is blank. -/
theorem vgaScrollScreen_spec (hW : v.VGA_WIDTH = W) (hH : v.VGA_HEIGHT = H) (hpos : 1 ≤ W)
    (hrows : 1 ≤ H) :
    ∃ b, v.vgaScrollScreen = some { v with vga_buffer := b } ∧
      ∀ r < H, ∀ c < W, cell { v with vga_buffer := b } W r c =
        if r + 1 < H then v.cell W (r + 1) c else 0 := by
  have hle : W ≤ W * H := Nat.le_mul_of_pos_right W hrows
  obtain ⟨b, hb, hmove⟩ := moveUp hW hH hpos
  obtain ⟨b', hb', hclear⟩ := fill (v := { v with vga_buffer := b }) (n := W) (a := W * H - W) hW hH
    (by omega) (fun _ => 0)
  refine ⟨b', ?_, fun r hr c hc => ?_⟩
  · have hmax : v.VGA_WIDTH * v.VGA_HEIGHT - v.VGA_WIDTH = (W * H - W : ℕ) := by
      rw [hW, hH, Nat.cast_sub hle, Nat.cast_mul]
    unfold vgaScrollScreen
    rw [hmax]
    rw [← hW] at hb'
    exact Option.bind_eq_some_iff.mpr ⟨_, hb, hb'⟩
  · have hlast : W * H - W = (H - 1) * W := by rw [Nat.sub_mul, Nat.one_mul, Nat.mul_comm]
    unfold cell
    dsimp only
    rw [hclear, hlast]
    have habove : r + 1 < H → r * W + c < (H - 1) * W := by
      intro h
      have := cell_row_lt (x := 0) (by omega : r < H - 1) hc
      omega
    -- The cell is in the last row, which is cleared, or has the one below it.
    split_ifs with h1 h2 h2
    · exact absurd (habove h2) (by omega)
    · decide
    · dsimp only
      rw [hmove, hlast, if_pos (habove h2)]
      congr 3
      ring
    · have hrow : r = H - 1 := by omega
      subst hrow
      exact absurd ⟨Nat.le_add_right _ _, Nat.add_lt_add_left hc _⟩ h1

theorem vgaCheckIfScrollNeeded_of_lt (hlt : v.cursorY < v.VGA_HEIGHT - 1) :
    v.vgaCheckIfScrollNeeded = some v := by
  unfold vgaCheckIfScrollNeeded
  rw [show 2^16 = 65535 + 1 from rfl, scrollLoop, if_neg (by omega)]

theorem vgaCheckIfScrollNeeded_of_eq {b : ℤ → BitVec 16}
    (hb : v.vgaScrollScreen = some { v with vga_buffer := b })
    (heq : v.cursorY = v.VGA_HEIGHT - 1) (hle : -2^15 < v.cursorY) (hlt : v.cursorY < 2^15) :
    v.vgaCheckIfScrollNeeded = some { v with vga_buffer := b, cursorY := v.cursorY - 1 } := by
  have hdone : ∀ fuel, scrollLoop (fuel + 1)
      { v with vga_buffer := b, cursorY := v.cursorY - 1 } =
        some { v with vga_buffer := b, cursorY := v.cursorY - 1 } := by
    intro fuel
    rw [scrollLoop, if_neg (by dsimp only; omega)]
  unfold vgaCheckIfScrollNeeded
  rw [show 2^16 = 65534 + 1 + 1 from rfl, scrollLoop, if_pos (by omega), hb, Option.bind_eq_bind,
    Option.bind_some, int16_of_range (by dsimp only; omega) (by dsimp only; omega)]
  exact hdone 65534

end Vga

/-! ## The window -/

/-- Everything but the column of the cursor: the buffer shows the rows of the screen from its top
on, and the rows below the cursor are still those of `s₀`. -/
structure Rows (W H : ℕ) (s₀ s : Screen) (v : Vga) : Prop where
  width : v.VGA_WIDTH = W
  height : v.VGA_HEIGHT = H
  cursorY : v.cursorY = (s.row - s.top H : ℕ)
  cells : ∀ r < H, ∀ c < W, v.cell W r c = s.cell (s.top H + r) c
  below : ∀ r, s.row < r → ∀ c < W, s.cell r c = s₀.cell r c

/-- The console shows the screen. -/
structure View (W H : ℕ) (s₀ s : Screen) (v : Vga) : Prop extends Rows W H s₀ s v where
  cursorX : v.cursorX = s.col
  col_lt : s.col < W

/-- The sizes for which the cursor stays in its 16-bit range, and a screen that is blank behind the
rows of the buffer. -/
structure Fits (W H : ℕ) (s₀ : Screen) : Prop where
  width_pos : 1 ≤ W
  width_lt : W < 2^15
  two_le_height : 2 ≤ H
  height_le : H ≤ 2^15
  blank : ∀ r, H ≤ r → ∀ c < W, s₀.cell r c = 0

section

variable (hf : Fits W H s₀)

include hf

/-- Behind the row before the last one the window moves down by a row. -/
theorem Rows.newline (hr : Rows W H s₀ s v) :
    ∃ v', v.vgaNextLine = some v' ∧ View W H s₀ s.newline v' := by
  have hH := hf.two_le_height
  have hH' := hf.height_le
  have hbelow : ∀ r, s.newline.row < r → ∀ c < W, s.newline.cell r c = s₀.cell r c :=
    fun r hlt => hr.below r (Nat.lt_of_succ_lt hlt)
  have hrow : s.newline.row = s.row + 1 := rfl
  by_cases hlast : s.row < H - 2
  · -- The next row is above the last one.
    have htop : s.top H = 0 ∧ s.newline.top H = 0 := by
      unfold Screen.top
      omega
    have hnext : int16 (v.cursorY + 1) = (s.row + 1 : ℕ) := by
      rw [hr.cursorY, htop.1, int16_of_range (by omega) (by omega)]
      rfl
    have hdone := Vga.vgaCheckIfScrollNeeded_of_lt
      (v := { v with cursorX := 0, cursorY := (s.row + 1 : ℕ) })
      (by rw [hr.height]; dsimp only; omega)
    refine ⟨{ v with cursorX := 0, cursorY := (s.row + 1 : ℕ) }, ?_,
      ⟨hr.width, hr.height, ?_, ?_, hbelow⟩, rfl, hf.width_pos⟩
    · rw [Vga.vgaNextLine, hnext]
      exact hdone
    · rw [htop.2]
      rfl
    · rw [htop.2, ← htop.1]
      exact hr.cells
  · -- The next row is the last one, and the buffer moves up.
    have htop : s.row = s.top H + (H - 2) ∧ s.newline.top H = s.top H + 1 := by
      unfold Screen.top
      omega
    have hnext : int16 (v.cursorY + 1) = (H - 1 : ℕ) := by
      rw [hr.cursorY, int16_of_range (by omega) (by omega)]
      omega
    obtain ⟨b, hb, hcells⟩ := Vga.vgaScrollScreen_spec
      (v := { v with cursorX := 0, cursorY := (H - 1 : ℕ) }) hr.width hr.height hf.width_pos
      (by omega)
    have hdone := Vga.vgaCheckIfScrollNeeded_of_eq hb (by rw [hr.height]; dsimp only; omega)
      (by dsimp only; omega) (by dsimp only; omega)
    refine ⟨{ v with cursorX := 0, vga_buffer := b, cursorY := (H - 1 : ℕ) - 1 }, ?_,
      ⟨hr.width, hr.height, ?_, fun r hrH c hc => ?_, hbelow⟩, rfl, hf.width_pos⟩
    · rw [Vga.vgaNextLine, hnext]
      exact hdone
    · dsimp only
      omega
    · refine (hcells r hrH c hc).trans ?_
      rw [htop.2]
      split_ifs with hr'
      · refine (hr.cells (r + 1) hr' c hc).trans ?_
        rw [Nat.add_assoc, Nat.add_comm 1 r]
        rfl
      · -- The last row is one that the screen has not come to, behind the first rows.
        refine ((hr.below _ (by omega) c hc).trans (hf.blank _ (by omega) c hc)).symm

omit hf in
/-- A character written in the row of the cursor. -/
theorem Rows.write (hr : Rows W H s₀ s v) (hH : 2 ≤ H) (hx : x < W) (ch : BitVec 8) :
    ∃ v', v.write (v.cursorY * v.VGA_WIDTH + x) (vgaEntry ch v.vga_color) = some v' ∧
      v'.cursorX = v.cursorX ∧ Rows W H s₀ (s.write x ch) v' := by
  have htop : s.row = s.top H + (s.row - s.top H) ∧ s.row - s.top H < H := by
    unfold Screen.top
    omega
  have hindex : v.cursorY * v.VGA_WIDTH + x = ((s.row - s.top H) * W + x : ℕ) := by
    rw [hr.cursorY, hr.width]
    push_cast
    rfl
  have hwrite := Vga.write_eq hr.width hr.height (cell_lt htop.2 hx) (vgaEntry ch v.vga_color)
  rw [hindex]
  refine ⟨_, hwrite, rfl, hr.width, hr.height, hr.cursorY, fun r hrH c hc => ?_,
    fun r hlt c hc => ?_⟩
  · have hrow : r = s.row - s.top H ↔ s.top H + r = s.row := by omega
    rw [Vga.cell_update hc hx, hr.cells r hrH c hc]
    exact if_congr (and_congr_left' hrow) rfl rfl
  · -- The rows below the cursor are not written.
    have hne : ¬ (r = s.row ∧ c = x) := fun h => Nat.ne_of_gt hlt h.1
    exact (if_neg hne).trans (hr.below r hlt c hc)

/-- What a character does to the screen, `putchar` does to the window. -/
theorem View.putchar (hw : View W H s₀ s v) (ch : BitVec 32) :
    ∃ v', v.putchar ch = some v' ∧ View W H s₀ (s.put W ch) v' := by
  have hcol := hw.col_lt
  have hW := hf.width_lt
  have hH := hf.two_le_height
  unfold Vga.putchar Vga.vgaWriteChar Screen.put
  by_cases h10 : ch = 10
  · -- A line feed.
    rw [if_pos h10, if_pos h10]
    exact hw.toRows.newline hf
  rw [if_neg h10, if_neg h10]
  by_cases h14 : ch = 14
  · -- The erase code.
    have hback : (if v.cursorX > 0 then { v with cursorX := int16 (v.cursorX - 1) } else v) =
        { v with cursorX := (s.col - 1 : ℕ) } := by
      by_cases h0 : v.cursorX > 0
      · rw [if_pos h0]
        rw [hw.cursorX] at h0 ⊢
        rw [int16_of_range (by omega) (by omega), Nat.cast_sub (by omega), Nat.cast_one]
      · have hcursor : ((s.col - 1 : ℕ) : ℤ) = v.cursorX := by
          have := hw.cursorX
          omega
        rw [if_neg h0, hcursor]
    have hr : Rows W H s₀ s { v with cursorX := (s.col - 1 : ℕ) } :=
      ⟨hw.width, hw.height, hw.cursorY, hw.cells, hw.below⟩
    obtain ⟨v', hv', hx, hrows⟩ := hr.write hH (by omega : s.col - 1 < W) 32
    rw [if_pos h14, if_pos h14, hback]
    refine ⟨v', hv', ⟨hrows.width, hrows.height, hrows.cursorY, hrows.cells, hrows.below⟩, hx, ?_⟩
    dsimp only
    omega
  · -- Any other character.
    obtain ⟨v', hv', hx, hrows⟩ := hw.toRows.write hH hcol (ch.setWidth 8)
    have hin : v.cursorY * v.VGA_WIDTH + v.cursorX < v.VGA_WIDTH * v.VGA_HEIGHT := by
      by_contra hout
      rw [← hw.cursorX, Vga.write, if_neg (fun h => hout h.2)] at hv'
      cases hv'
    have hnext : int16 (v'.cursorX + 1) = (s.col + 1 : ℕ) := by
      rw [hx, hw.cursorX, int16_of_range (by omega) (by omega), Nat.cast_succ]
    have hrows' : Rows W H s₀ { s.write s.col (ch.setWidth 8) with col := s.col + 1 }
        { v' with cursorX := (s.col + 1 : ℕ) } :=
      ⟨hrows.width, hrows.height, hrows.cursorY, hrows.cells, hrows.below⟩
    rw [← hw.cursorX] at hv'
    rw [if_neg h14, if_neg h14, if_pos hin, hv', Option.bind_eq_bind, Option.bind_some]
    dsimp only
    have hwidth := hrows.width
    rw [hnext]
    by_cases hlast : s.col + 1 < W
    · rw [if_pos hlast, if_neg (by omega)]
      exact ⟨_, rfl, hrows', rfl, hlast⟩
    · rw [if_neg hlast, if_pos (by omega)]
      exact hrows'.newline hf

/-- And so with any text. -/
theorem View.putchars (hw : View W H s₀ s v) (chs : List (BitVec 32)) :
    ∃ v', v.putchars chs = some v' ∧ View W H s₀ (s.puts W chs) v' := by
  induction chs generalizing s v with
  | nil => exact ⟨v, rfl, hw⟩
  | cons ch chs ih =>
    obtain ⟨v₁, h₁, hw₁⟩ := hw.putchar hf ch
    obtain ⟨v', hv', hw'⟩ := ih hw₁
    refine ⟨v', ?_, hw'⟩
    calc v.putchars (ch :: chs) = (v.putchar ch).bind (fun v => v.putchars chs) := rfl
      _ = some v' := by rw [h₁, Option.bind_some, hv']

end

/-- A console without text, with the cursor at the top left. -/
structure Vga.Blank (v : Vga) (W H : ℕ) : Prop where
  width : v.VGA_WIDTH = W
  height : v.VGA_HEIGHT = H
  cursorX : v.cursorX = 0
  cursorY : v.cursorY = 0
  cells : ∀ r < H, ∀ c < W, v.cell W r c = 0

/-- What a console shows of a screen after it was given the same characters. -/
structure Vga.Shows (v : Vga) (W H : ℕ) (s : Screen) (t : ℕ) : Prop where
  cursorX : v.cursorX = s.col
  cursorY : v.cursorY = (s.row - t : ℕ)
  rows : ∀ r ≤ H - 2, ∀ c < W, v.cell W r c = s.cell (t + r) c
  last : ∀ c < W, v.cell W (H - 1) c = 0

/-- A blank console shows the last rows of what an unbounded screen has of the same characters, and
no access is outside of the buffer. -/
theorem putchars_refines (hW : 1 ≤ W) (hW' : W < 2^15) (hH : 2 ≤ H) (hH' : H ≤ 2^15)
    (hv : v.Blank W H) (chs : List (BitVec 32)) :
    ∃ v', v.putchars chs = some v' ∧
      v'.Shows W H (Screen.blank.puts W chs) ((Screen.blank.puts W chs).row - (H - 2)) := by
  have hf : Fits W H Screen.blank := ⟨hW, hW', hH, hH', fun _ _ _ _ => rfl⟩
  have hw : View W H Screen.blank Screen.blank v :=
    ⟨⟨hv.width, hv.height, hv.cursorY.trans (by simp [Screen.blank]), hv.cells,
      fun _ _ _ _ => rfl⟩, hv.cursorX, hW⟩
  obtain ⟨v', hv', hw'⟩ := hw.putchars hf chs
  refine ⟨v', hv', hw'.cursorX, hw'.cursorY, fun r hr c hc => hw'.cells r (by omega) c hc,
    fun c hc => ?_⟩
  -- The last row is below the cursor, where the screen is still blank.
  have hbelow : (Screen.blank.puts W chs).row < (Screen.blank.puts W chs).top H + (H - 1) := by
    unfold Screen.top
    omega
  exact (hw'.cells (H - 1) (by omega) c hc).trans (hw'.below _ hbelow c hc)

/-- A console of two columns and two rows. -/
theorem putchars_refines_small :
    ∃ v', Vga.putchars ⟨fun _ => 0, 0, 0, 7, 2, 2⟩ [72, 105, 10, 14] = some v' ∧
      v'.Shows 2 2 (Screen.blank.puts 2 [72, 105, 10, 14])
        ((Screen.blank.puts 2 [72, 105, 10, 14]).row - 0) :=
  putchars_refines (by decide) (by decide) (by decide) (by decide)
    ⟨rfl, rfl, rfl, rfl, fun _ _ _ _ => rfl⟩ _

/-- A line feed where the cursor stays above the last row. -/
theorem Vga.putchars_newline {y : ℤ} (hnext : int16 (v.cursorY + 1) = y)
    (hlt : y < v.VGA_HEIGHT - 1) (chs : List (BitVec 32)) :
    v.putchars (10 :: chs) = ({ v with cursorX := 0, cursorY := y } : Vga).putchars chs := by
  have hdone := vgaCheckIfScrollNeeded_of_lt (v := { v with cursorX := 0, cursorY := y }) hlt
  have hput : v.putchar 10 = v.vgaNextLine := by
    unfold putchar vgaWriteChar
    rw [if_pos rfl]
  calc v.putchars (10 :: chs) = (v.putchar 10).bind fun v => v.putchars chs := rfl
    _ = ({ v with cursorX := 0, cursorY := y } : Vga).putchars chs := by
        rw [hput, vgaNextLine, hnext, hdone, Option.bind_some]

/-- A console of one column and 40000 rows, more than a 16-bit number with a sign counts. -/
def tall : Vga := ⟨fun _ => 0, 0, 0, 7, 1, 40000⟩

/-- In its first `2^15` rows the cursor goes down with each line feed. -/
theorem putchars_tall {y n : ℕ} (hn : y + n < 2^15) (chs : List (BitVec 32)) :
    ({ tall with cursorY := y } : Vga).putchars (List.replicate n 10 ++ chs) =
      ({ tall with cursorY := (y + n : ℕ) } : Vga).putchars chs := by
  induction n generalizing y with
  | zero => rfl
  | succ n ih =>
    have hnext : int16 (y + 1) = (y + 1 : ℕ) := int16_of_range (by omega) (by omega)
    have hlt : ((y + 1 : ℕ) : ℤ) < 40000 - 1 := by omega
    have hline := Vga.putchars_newline (v := { tall with cursorY := y }) hnext hlt
      (List.replicate n 10 ++ chs)
    rw [List.replicate_succ, List.cons_append, hline, ← Nat.add_assoc, Nat.add_right_comm]
    exact ih (by omega)

/-- It is not enough that a 16-bit number counts the cells: in the row `2^15` the cursor is at a
negative number, and the next character is written before the buffer. -/
theorem not_always_refines : tall.Blank 1 40000 ∧ 1 * 40000 ≤ 2^16 ∧
    tall.putchars (List.replicate (2^15) 10 ++ [65]) = none := by
  refine ⟨⟨rfl, rfl, rfl, rfl, fun _ _ _ _ => rfl⟩, by norm_num, ?_⟩
  have hwrap : int16 ((2^15 - 1 : ℕ) + 1) = -2^15 := by decide
  have hsplit : ∀ n, List.replicate (n + 1) (10 : BitVec 32) ++ [65] =
      List.replicate n 10 ++ [10, 65] := by
    intro n
    rw [List.replicate_succ', List.append_assoc]
    rfl
  have hdown := putchars_tall (y := 0) (n := 2^15 - 1) (by norm_num) [10, 65]
  rw [Nat.zero_add] at hdown
  calc tall.putchars (List.replicate (2^15 - 1 + 1) 10 ++ [65])
      = ({ tall with cursorY := (2^15 - 1 : ℕ) } : Vga).putchars [10, 65] := by
        rw [hsplit]
        exact hdown
    _ = ({ tall with cursorX := 0, cursorY := -2^15 } : Vga).putchars [65] :=
        Vga.putchars_newline hwrap (by decide) [65]
    _ = none := by decide

end Potatos
