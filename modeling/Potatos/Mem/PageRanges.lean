import Potatos.Mem.Bitmap

/-!
# The pages of a byte range

`set_page_range_used` of `src/mem/bitmap.c` divides both ends of a range of addresses by the size of
a page, and marks the pages from the first quotient up to, and without, the second. The page that
the range ends in is left out, unless the range ends where the page begins. The rows are stored
through an `int` as in `Mem/Bitmap.lean`, and here the array may be of any size: from page `2^34` on
the row of a page is another one (`cInt_le`).

The bits that the function sets are those of the pages of the range exactly if the last page has
nothing to be marked and no row of the range is lost (`setPageRangeUsed_covers_iff`).
-/

namespace Potatos

/-- The conversion to `int` is below `2^31`. -/
theorem cInt_lt (x : ℕ) : cInt x < 2^31 := by
  unfold cInt
  have h : (x : ℤ).bmod (2^32) < ((2^32 : ℕ) + 1) / 2 := Int.bmod_lt (by norm_num)
  omega

/-- It makes nothing larger. -/
theorem cInt_le (x : ℕ) : cInt x ≤ x := by
  by_cases hx : x < 2^31
  · rw [cInt_of_lt hx]
  · have hlt := cInt_lt x
    omega

namespace Bitmap

variable (b : Bitmap) (memory_range_start memory_range_end : ℕ)

/-- A bit of the array, by its row. -/
def bit (row : ℤ) (k : ℕ) : Bool := (b.bitmap row).getLsbD k

/-- The array has a bit for the page, and a byte of the range is in the page. -/
def Touched (i : ℕ) : Prop :=
  i < b.total_pages ∧ ∃ a, memory_range_start ≤ a ∧ a < memory_range_end ∧ a / 4096 = i

/-- `set_page_range_used` sets the bits of the pages that the range touches, and no other bit. -/
def Covers : Prop :=
  ∀ row k, (b.setPageRangeUsed memory_range_start memory_range_end).bit row k = true ↔
    b.bit row k = true ∨
      ∃ i, b.Touched memory_range_start memory_range_end i ∧ row = (i / 8 : ℕ) ∧ k = i % 8

/-- In the page of the end nothing is to be marked: the range ends where the page begins, it is
empty, or the page has no bit or is used already. -/
def EndMarked : Prop :=
  memory_range_end % 4096 = 0 ∨ memory_range_start = memory_range_end ∨
    b.total_pages ≤ memory_range_end / 4096 ∨ b.isPageFree (memory_range_end / 4096) = false

/-- Nothing is lost where the row of a page is no `int`: the page is used already, and the bit that
is set instead is set already or is that of a page of the range. -/
def RowsKept : Prop :=
  ∀ i, memory_range_start / 4096 ≤ i → i < memory_range_end / 4096 → i < b.total_pages →
    2^34 ≤ i → b.isPageFree i = false ∧
      (b.bit (cInt (i / 8)) (i % 8) = true ∨
        ∃ j, b.Touched memory_range_start memory_range_end j ∧ cInt (i / 8) = (j / 8 : ℕ) ∧
          i % 8 = j % 8)

variable {b} {memory_range_start memory_range_end : ℕ} {row : ℤ} {i k : ℕ}

/-- `is_page_free` reads the bit of the page. -/
theorem isPageFree_eq_false_iff : b.isPageFree i = false ↔ b.bit (i / 8 : ℕ) (i % 8) = true := by
  rw [isPageFree_eq, Bool.not_eq_false']
  rfl

/-! ## The bits that are set -/

/-- `set_page_used` sets the bit of its index in the row that is an `int`. -/
theorem bit_setPageUsed :
    (b.setPageUsed i).bit row k = true ↔
      b.bit row k = true ∨ (i < b.total_pages ∧ row = cInt (i / 8) ∧ k = i % 8) := by
  unfold setPageUsed
  by_cases hi : b.total_pages ≤ i
  · rw [if_pos hi]
    simp only [Nat.not_lt.mpr hi, false_and, or_false]
  · have hlt : i < b.total_pages := Nat.not_le.mp hi
    rw [if_neg hi]
    unfold bit
    dsimp only
    by_cases hrow : row = cInt (i / 8)
    · have hm : i % 8 < 8 := Nat.mod_lt _ (by norm_num)
      rw [hrow, Function.update_self, BitVec.getLsbD_setWidth, BitVec.getLsbD_or,
        BitVec.getLsbD_setWidth, getLsbD_mask hm]
      by_cases hk : k < 8
      · have hk' : k < 32 := by omega
        simp only [hk, hk', hlt, decide_true, Bool.true_and, Bool.or_eq_true, decide_eq_true_eq,
          true_and]
      · -- A byte has no such bit.
        have hne : k ≠ i % 8 := by omega
        have hout : (b.bitmap (cInt (i / 8))).getLsbD k = false :=
          BitVec.getLsbD_of_ge _ _ (by omega)
        simp [hk, hne, hout]
    · rw [Function.update_of_ne hrow]
      simp only [hrow, false_and, and_false, or_false]

/-- Marking a run of indices sets the bits of each. -/
theorem bit_foldl_setPageUsed (n : ℕ) : ∀ (b : Bitmap) (s : ℕ),
    ((List.range' s n).foldl setPageUsed b).bit row k = true ↔
      b.bit row k = true ∨
        ∃ i, s ≤ i ∧ i < s + n ∧ i < b.total_pages ∧ row = cInt (i / 8) ∧ k = i % 8 := by
  induction n with
  | zero =>
    intro b s
    simp only [List.range'_zero, List.foldl_nil, iff_self_or]
    rintro ⟨i, h1, h2, -⟩
    omega
  | succ n ih =>
    intro b s
    rw [List.range'_succ, List.foldl_cons, ih, bit_setPageUsed, setPageUsed_total_pages, or_assoc]
    apply or_congr_right
    constructor
    · rintro (⟨hlt, hrow, hk⟩ | ⟨i, h1, h2, hrest⟩)
      · exact ⟨s, le_refl s, by omega, hlt, hrow, hk⟩
      · exact ⟨i, by omega, by omega, hrest⟩
    · rintro ⟨i, h1, h2, hrest⟩
      -- The first index, or one of the rest.
      rcases Nat.eq_or_lt_of_le h1 with rfl | h1
      · exact Or.inl hrest
      · exact Or.inr ⟨i, h1, by omega, hrest⟩

theorem bit_setPageRangeUsed :
    (b.setPageRangeUsed memory_range_start memory_range_end).bit row k = true ↔
      b.bit row k = true ∨ ∃ i, memory_range_start / 4096 ≤ i ∧ i < memory_range_end / 4096 ∧
        i < b.total_pages ∧ row = cInt (i / 8) ∧ k = i % 8 := by
  apply (bit_foldl_setPageUsed (memory_range_end / 4096 - memory_range_start / 4096) b
    (memory_range_start / 4096)).trans
  apply or_congr_right
  apply exists_congr
  intro i
  have hbound : memory_range_start / 4096 ≤ i →
      (i < memory_range_start / 4096 + (memory_range_end / 4096 - memory_range_start / 4096) ↔
        i < memory_range_end / 4096) := by omega
  constructor
  · rintro ⟨h1, h2, hrest⟩
    exact ⟨h1, (hbound h1).mp h2, hrest⟩
  · rintro ⟨h1, h2, hrest⟩
    exact ⟨h1, (hbound h1).mpr h2, hrest⟩

/-! ## The pages of the range -/

/-- The pages that a range touches are those that are marked, and the one that it ends in. -/
theorem touched_iff (hle : memory_range_start ≤ memory_range_end) :
    b.Touched memory_range_start memory_range_end i ↔
      i < b.total_pages ∧
        ((memory_range_start / 4096 ≤ i ∧ i < memory_range_end / 4096) ∨
          (i = memory_range_end / 4096 ∧ memory_range_end % 4096 ≠ 0 ∧
            memory_range_start ≠ memory_range_end)) := by
  apply and_congr_right
  intro _
  constructor
  · rintro ⟨a, h1, h2, rfl⟩
    omega
  · intro h
    -- The first byte of the page, or that of the range if the range begins later.
    refine ⟨max memory_range_start (i * 4096), le_max_left .., ?_, ?_⟩
    · omega
    · omega

/-- No page before it has the bit of a page, when its row is an `int`. -/
theorem row_ne_of_lt {j : ℕ} (hlt : j < i) (hbit : i % 8 = j % 8) :
    ((i / 8 : ℕ) : ℤ) ≠ cInt (j / 8) := by
  intro hrow
  have hle := cInt_le (j / 8)
  omega

/-- The page that the range ends in is not marked by the loop. -/
theorem Covers.endMarked (hle : memory_range_start ≤ memory_range_end)
    (h : b.Covers memory_range_start memory_range_end) :
    b.EndMarked memory_range_start memory_range_end := by
  unfold EndMarked
  by_contra hnot
  push Not at hnot
  obtain ⟨hend, hne, hlt, hfree⟩ := hnot
  have htouched : b.Touched memory_range_start memory_range_end (memory_range_end / 4096) :=
    (touched_iff hle).mpr ⟨hlt, Or.inr ⟨rfl, hend, hne⟩⟩
  have hset := (h _ _).mpr (Or.inr ⟨_, htouched, rfl, rfl⟩)
  rcases bit_setPageRangeUsed.mp hset with hused | ⟨j, -, hj, -, hrow, hbit⟩
  · exact hfree (isPageFree_eq_false_iff.mpr hused)
  · exact row_ne_of_lt hj hbit hrow

/-- A page whose row is no `int` has its bit set by no call, and another bit is set for it. -/
theorem Covers.rowsKept (hle : memory_range_start ≤ memory_range_end)
    (h : b.Covers memory_range_start memory_range_end) :
    b.RowsKept memory_range_start memory_range_end := by
  intro i h1 h2 hlt hlarge
  have htouched : b.Touched memory_range_start memory_range_end i :=
    (touched_iff hle).mpr ⟨hlt, Or.inl ⟨h1, h2⟩⟩
  constructor
  · have hset := (h _ _).mpr (Or.inr ⟨i, htouched, rfl, rfl⟩)
    rcases bit_setPageRangeUsed.mp hset with hused | ⟨j, -, -, -, hrow, -⟩
    · exact isPageFree_eq_false_iff.mpr hused
    · have hint := cInt_lt (j / 8)
      omega
  · exact (h _ _).mp (bit_setPageRangeUsed.mpr (Or.inr ⟨i, h1, h2, hlt, rfl, rfl⟩))

/-- A bit that is set is that of a page of the range. -/
theorem RowsKept.covered (hle : memory_range_start ≤ memory_range_end)
    (h : b.RowsKept memory_range_start memory_range_end)
    (hset : (b.setPageRangeUsed memory_range_start memory_range_end).bit row k = true) :
    b.bit row k = true ∨
      ∃ i, b.Touched memory_range_start memory_range_end i ∧ row = (i / 8 : ℕ) ∧ k = i % 8 := by
  rcases bit_setPageRangeUsed.mp hset with hused | ⟨i, h1, h2, hlt, hrow, hk⟩
  · exact Or.inl hused
  · rw [hrow, hk]
    by_cases hsmall : i < 2^34
    · have htouched : b.Touched memory_range_start memory_range_end i :=
        (touched_iff hle).mpr ⟨hlt, Or.inl ⟨h1, h2⟩⟩
      exact Or.inr ⟨i, htouched, cInt_of_lt (by omega), rfl⟩
    · exact (h i h1 h2 hlt (by omega)).2

/-- The bit of a page of the range is set. -/
theorem Touched.marked (hle : memory_range_start ≤ memory_range_end)
    (hend : b.EndMarked memory_range_start memory_range_end)
    (hrows : b.RowsKept memory_range_start memory_range_end)
    (h : b.Touched memory_range_start memory_range_end i) :
    (b.setPageRangeUsed memory_range_start memory_range_end).bit (i / 8 : ℕ) (i % 8) = true := by
  rw [bit_setPageRangeUsed]
  obtain ⟨hlt, ⟨h1, h2⟩ | ⟨rfl, hmod, hne⟩⟩ := (touched_iff hle).mp h
  · by_cases hsmall : i < 2^34
    · have hrow : cInt (i / 8) = (i / 8 : ℕ) := cInt_of_lt (by omega)
      exact Or.inr ⟨i, h1, h2, hlt, hrow.symm, rfl⟩
    · exact Or.inl (isPageFree_eq_false_iff.mp (hrows i h1 h2 hlt (by omega)).1)
  · obtain hzero | heq | htotal | hused := hend
    · exact absurd hzero hmod
    · exact absurd heq hne
    · omega
    · exact Or.inl (isPageFree_eq_false_iff.mp hused)

/-- For every size of the array, every content and every range, `set_page_range_used` marks the
pages that have a byte of the range in them if and only if nothing is to be marked in the page that
the range ends in, and no row of the range is lost. -/
theorem setPageRangeUsed_covers_iff (b : Bitmap) (memory_range_start memory_range_end : ℕ)
    (hle : memory_range_start ≤ memory_range_end) :
    b.Covers memory_range_start memory_range_end ↔
      b.EndMarked memory_range_start memory_range_end ∧
        b.RowsKept memory_range_start memory_range_end := by
  constructor
  · exact fun h => ⟨h.endMarked hle, h.rowsKept hle⟩
  · rintro ⟨hend, hrows⟩ row k
    constructor
    · exact hrows.covered hle
    · rintro (hused | ⟨i, htouched, rfl, rfl⟩)
      · exact bit_setPageRangeUsed.mpr (Or.inl hused)
      · exact htouched.marked hle hend hrows

/-- Two whole pages of eight. -/
theorem setPageRangeUsed_covers_iff_whole :
    (⟨fun _ => 0, 8⟩ : Bitmap).Covers 4096 12288 ↔
      (⟨fun _ => 0, 8⟩ : Bitmap).EndMarked 4096 12288 ∧
        (⟨fun _ => 0, 8⟩ : Bitmap).RowsKept 4096 12288 :=
  setPageRangeUsed_covers_iff ⟨fun _ => 0, 8⟩ 4096 12288 (by omega)

/-- A range of one byte, of eight free pages. -/
theorem not_always_covers :
    ¬ ∀ (b : Bitmap) (memory_range_start memory_range_end : ℕ),
      memory_range_start ≤ memory_range_end → memory_range_end < 2^64 →
      b.Covers memory_range_start memory_range_end := by
  intro h
  have hend := (h ⟨fun _ => 0, 8⟩ 0 1 (by omega) (by omega)).endMarked (by omega)
  exact absurd hend (by unfold EndMarked; decide)

end Bitmap

end Potatos
