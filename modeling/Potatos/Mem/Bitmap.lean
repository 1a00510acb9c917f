import Mathlib.Data.Int.DivMod
import Mathlib.Data.Set.Basic
import Mathlib.Data.Set.Insert
import Mathlib.Data.Nat.Find
import Mathlib.Logic.Function.Basic
import Mathlib.Tactic.Linarith
import Mathlib.Tactic.IntervalCases

/-!
# The physical page bitmap

`src/mem/bitmap.c` on the bytes that it keeps behind the kernel: one bit per 4096-byte page, eight
pages a byte (`BITS_PER_ROW`), the bit set when the page is used. The bytes are indexed by their
offset from the pointer `bitmap`, and an offset that the code holds in an `int` goes through the
conversion to 32 bits (`cInt`). The masks are computed in `int` and truncated to a byte on the
store.

The serial and console output of these functions is left out.
-/

namespace Potatos

/-- The conversion of a 64-bit value to `int`. -/
def cInt (x : ℕ) : ℤ := (x : ℤ).bmod (2^32)

/-- A value below `2^31` survives the conversion to `int`. -/
theorem cInt_of_lt {x : ℕ} (h : x < 2^31) : cInt x = x := by
  unfold cInt
  exact Int.bmod_eq_of_le (by omega) (by omega)

/-- What the linker script fixes of the image: `_kernel_physical_end`, which is `.` less
`_kern_virtual_offset` and so at most 2 GiB. -/
structure KernelImage where
  physical_end : ℕ
  le_two_gib : physical_end ≤ 0x80000000

/-- The two globals of `bitmap.c`: the bytes behind the pointer `bitmap`, and `total_pages`. -/
structure Bitmap where
  bitmap : ℤ → BitVec 8
  total_pages : ℕ

namespace Bitmap

variable (b : Bitmap)

/-- `is_page_free`: the byte of the page, masked in `int`. -/
def isPageFree (page_index : ℕ) : Bool :=
  (b.bitmap (page_index / 8 : ℕ)).setWidth 32 &&& (1#32 <<< (page_index % 8)) == 0#32

/-- `set_page_free`. -/
def setPageFree (page_index : ℕ) : Bitmap :=
  if b.total_pages ≤ page_index then b
  else
    let y := cInt (page_index / 8)
    let row := (b.bitmap y).setWidth 32 &&& ~~~(1#32 <<< (page_index % 8))
    { b with bitmap := Function.update b.bitmap y (row.setWidth 8) }

/-- `set_page_used`. -/
def setPageUsed (page_index : ℕ) : Bitmap :=
  if b.total_pages ≤ page_index then b
  else
    let y := cInt (page_index / 8)
    let row := (b.bitmap y).setWidth 32 ||| (1#32 <<< (page_index % 8))
    { b with bitmap := Function.update b.bitmap y (row.setWidth 8) }

/-- `set_page_range_used`: every page from the one of the first address up to, and without, the
one of the second. -/
def setPageRangeUsed (memory_range_start memory_range_end : ℕ) : Bitmap :=
  let page_start := memory_range_start / 4096
  let page_end := memory_range_end / 4096
  (List.range' page_start (page_end - page_start)).foldl setPageUsed b

/-- The loop of `allocate_physical_page`, with `n` indices left from `i` on: the first free
index. -/
def firstFree : ℕ → ℕ → Option ℕ
  | 0, _ => none
  | n + 1, i => if b.isPageFree i then some i else firstFree n (i + 1)

/-- The index that `allocate_physical_page` takes, if there is one. -/
def freePage : Option ℕ := b.firstFree b.total_pages 0

/-- `allocate_physical_page`: the address of the page it takes, or `0`. -/
def allocatePhysicalPage : ℕ × Bitmap :=
  match b.freePage with
  | some i => (i * 4096 % 2^64, b.setPageUsed i)
  | none => (0, b)

end Bitmap

/-- The end of the range that `init_bitmap` marks: the kernel image and 12 MiB behind it. -/
def KernelImage.reserveEnd (K : KernelImage) : ℕ := (K.physical_end + 1024 * 1024 * 12) % 2^64

/-- `init_bitmap` on whatever the memory behind the kernel holds: clear `size / 4096 / 8` bytes,
then mark the kernel image and the 12 MiB behind it. -/
def initBitmap (K : KernelImage) (ram : ℤ → BitVec 8) (size : ℕ) : Bitmap :=
  let size := size / 4096 / 8
  let cleared := (List.range size).foldl (fun m (i : ℕ) => Function.update m (i : ℤ) 0#8) ram
  Bitmap.setPageRangeUsed ⟨cleared, size * 8⟩ 0 K.reserveEnd

/-! ## The bits

`isPageFree` reads one bit of the array. Every operation is described by what it does to the bits,
and the bytes are not looked at again. -/

/-- Masking a byte with one bit, in `int`. -/
theorem mask_eq_zero_iff (x : BitVec 8) (k : ℕ) (hk : k < 8) :
    (x.setWidth 32 &&& (1#32 <<< k) == 0#32) = !x.getLsbD k := by
  have hbit : (x.setWidth 32).getLsbD k = x.getLsbD k := by
    rw [BitVec.getLsbD_setWidth, decide_eq_true (by omega : k < 32), Bool.true_and]
  have hmask : (1#32 <<< k == 0#32) = false := by
    interval_cases k <;> rfl
  rw [← BitVec.twoPow_eq] at hmask ⊢
  rw [BitVec.and_twoPow, hbit]
  cases x.getLsbD k with
  | false => rfl
  | true => exact hmask

/-- The bits of a one-bit mask. -/
theorem getLsbD_mask {m k : ℕ} (hm : m < 8) :
    (1#32 <<< m).getLsbD k = decide (k = m) := by
  rw [← BitVec.twoPow_eq, BitVec.getLsbD_twoPow, decide_eq_true (by omega : m < 32),
    Bool.true_and, decide_eq_decide]
  exact eq_comm

namespace Bitmap

variable (b : Bitmap)

/-- `isPageFree` is the complement of the page's bit. -/
theorem isPageFree_eq (i : ℕ) :
    b.isPageFree i = !(b.bitmap (i / 8 : ℕ)).getLsbD (i % 8) :=
  mask_eq_zero_iff _ _ (Nat.mod_lt _ (by norm_num))

/-- An array of this size is indexed without loss through `int`: at most `2^33` pages. -/
def Small : Prop := b.total_pages ≤ 2^33

variable {b}

/-- Inside the array the byte of an index is the one `is_page_free` reads. -/
theorem Small.cInt_row (hb : b.Small) {i : ℕ} (hi : i < b.total_pages) :
    cInt (i / 8) = ((i / 8 : ℕ) : ℤ) := by
  unfold Small at hb
  exact cInt_of_lt (by omega)

/-- The bits after storing a byte at the row of `i` that changes bit `i % 8` to `v` only. -/
theorem isPageFree_update {i j : ℕ} {x : BitVec 8} {v : Bool}
    (hx : ∀ k < 8, x.getLsbD k = if k = i % 8 then v else (b.bitmap (i / 8 : ℕ)).getLsbD k) :
    isPageFree { b with bitmap := Function.update b.bitmap (i / 8 : ℕ) x } j =
      if j = i then !v else b.isPageFree j := by
  rw [isPageFree_eq, isPageFree_eq]
  -- Only the pages of one row are in the byte that is stored.
  by_cases hrow : ((j / 8 : ℕ) : ℤ) = ((i / 8 : ℕ) : ℤ)
  · have hrow' : j / 8 = i / 8 := by exact_mod_cast hrow
    simp only [hrow', Function.update_self]
    rw [hx _ (Nat.mod_lt _ (by norm_num))]
    by_cases hji : j = i
    · simp [hji]
    · have : j % 8 ≠ i % 8 := by omega
      simp [hji, this]
  · have hji : j ≠ i := by rintro rfl; exact hrow rfl
    simp only [hji, if_false]
    rw [Function.update_of_ne hrow]

@[simp] theorem setPageUsed_total_pages (i : ℕ) :
    (b.setPageUsed i).total_pages = b.total_pages := by
  unfold setPageUsed
  split_ifs <;> rfl

/-- No call changes the number of pages, so a small bitmap stays small. -/
theorem Small.congr {b' : Bitmap} (hb : b.Small) (h : b'.total_pages = b.total_pages) :
    b'.Small := by
  unfold Small
  rw [h]
  exact hb

theorem Small.setPageUsed (hb : b.Small) (i : ℕ) : (b.setPageUsed i).Small :=
  hb.congr (setPageUsed_total_pages i)

@[simp] theorem setPageFree_total_pages (i : ℕ) :
    (b.setPageFree i).total_pages = b.total_pages := by
  unfold setPageFree
  split_ifs <;> rfl

/-- An index at or past `total_pages` is left alone. -/
theorem setPageUsed_of_le {i : ℕ} (h : b.total_pages ≤ i) : b.setPageUsed i = b := if_pos h

/-- An index at or past `total_pages` is left alone. -/
theorem setPageFree_of_le {i : ℕ} (h : b.total_pages ≤ i) : b.setPageFree i = b := if_pos h

/-- A function that stores, for an index inside the array, a byte whose bits are `hx`. -/
theorem isPageFree_store (hb : b.Small) {i : ℕ} {x : BitVec 8} {v : Bool}
    (hx : ∀ k < 8, x.getLsbD k =
      if k = i % 8 then v else (b.bitmap (cInt (i / 8))).getLsbD k) (j : ℕ) :
    isPageFree (if b.total_pages ≤ i then b
        else { b with bitmap := Function.update b.bitmap (cInt (i / 8)) x }) j =
      if j = i ∧ i < b.total_pages then !v else b.isPageFree j := by
  by_cases hi : b.total_pages ≤ i
  · rw [if_pos hi, if_neg (by omega)]
  · have hlt : i < b.total_pages := by omega
    rw [hb.cInt_row hlt] at hx ⊢
    rw [if_neg hi, isPageFree_update hx]
    simp only [hlt, and_true]

/-- `set_page_used` sets the bit of its index and no other. -/
theorem isPageFree_setPageUsed (hb : b.Small) (i j : ℕ) :
    (b.setPageUsed i).isPageFree j =
      if j = i ∧ i < b.total_pages then false else b.isPageFree j := by
  refine isPageFree_store hb (v := true) (fun k hk => ?_) j
  -- Bit by bit, where the mask has its only bit at `i % 8`.
  have hm : i % 8 < 8 := Nat.mod_lt _ (by norm_num)
  rw [BitVec.getLsbD_setWidth, BitVec.getLsbD_or, BitVec.getLsbD_setWidth, getLsbD_mask hm,
    decide_eq_true hk, decide_eq_true (by omega : k < 32)]
  by_cases hki : k = i % 8
  · simp [hki]
  · simp [hki]

/-- `set_page_free` clears the bit of its index and no other. -/
theorem isPageFree_setPageFree (hb : b.Small) (i j : ℕ) :
    (b.setPageFree i).isPageFree j =
      if j = i ∧ i < b.total_pages then true else b.isPageFree j := by
  refine isPageFree_store hb (v := false) (fun k hk => ?_) j
  -- Bit by bit, where the mask has its only zero at `i % 8`.
  have hm : i % 8 < 8 := Nat.mod_lt _ (by norm_num)
  rw [BitVec.getLsbD_setWidth, BitVec.getLsbD_and, BitVec.getLsbD_not, BitVec.getLsbD_setWidth,
    getLsbD_mask hm, decide_eq_true hk, decide_eq_true (by omega : k < 32)]
  by_cases hki : k = i % 8
  · simp [hki]
  · simp [hki]

/-! ## The two loops -/

/-- Marking a run of indices sets their bits and no other. -/
theorem foldl_setPageUsed (n : ℕ) : ∀ (b : Bitmap) (s : ℕ), b.Small →
    ((List.range' s n).foldl setPageUsed b).total_pages = b.total_pages ∧
      ∀ j, ((List.range' s n).foldl setPageUsed b).isPageFree j =
        if (s ≤ j ∧ j < s + n) ∧ j < b.total_pages then false else b.isPageFree j := by
  induction n with
  | zero =>
    intro b s _
    refine ⟨rfl, fun j => ?_⟩
    rw [if_neg (by omega)]
    rfl
  | succ n ih =>
    intro b s hb
    obtain ⟨htotal, hfree⟩ := ih (b.setPageUsed s) (s + 1) (hb.setPageUsed s)
    rw [setPageUsed_total_pages] at htotal hfree
    rw [List.range'_succ, List.foldl_cons]
    refine ⟨htotal, fun j => ?_⟩
    rw [hfree, isPageFree_setPageUsed hb]
    -- `j` is in the rest of the range, or the first page of it, or outside.
    by_cases h1 : (s + 1 ≤ j ∧ j < s + 1 + n) ∧ j < b.total_pages
    · have h2 : (s ≤ j ∧ j < s + (n + 1)) ∧ j < b.total_pages := by omega
      rw [if_pos h1, if_pos h2]
    · rw [if_neg h1]
      by_cases h2 : j = s ∧ s < b.total_pages
      · have h3 : (s ≤ j ∧ j < s + (n + 1)) ∧ j < b.total_pages := by omega
        rw [if_pos h2, if_pos h3]
      · have h3 : ¬((s ≤ j ∧ j < s + (n + 1)) ∧ j < b.total_pages) := by omega
        rw [if_neg h2, if_neg h3]

@[simp] theorem setPageRangeUsed_total_pages (hb : b.Small) (s e : ℕ) :
    (b.setPageRangeUsed s e).total_pages = b.total_pages :=
  (foldl_setPageUsed _ b _ hb).1

/-- `set_page_range_used` sets the bits of the pages from that of the first address up to that of
the second, and no other. -/
theorem isPageFree_setPageRangeUsed (hb : b.Small) (s e j : ℕ) :
    (b.setPageRangeUsed s e).isPageFree j =
      if (s / 4096 ≤ j ∧ j < e / 4096) ∧ j < b.total_pages then false else b.isPageFree j := by
  have h := (foldl_setPageUsed (e / 4096 - s / 4096) b (s / 4096) hb).2 j
  have hrange : (s / 4096 ≤ j ∧ j < s / 4096 + (e / 4096 - s / 4096)) ↔
      (s / 4096 ≤ j ∧ j < e / 4096) := by omega
  simp only [hrange] at h
  exact h

/-- The search stops at the first free index of its range, if there is one. -/
theorem firstFree_eq_some {n i k : ℕ} :
    b.firstFree n i = some k ↔
      (i ≤ k ∧ k < i + n) ∧ b.isPageFree k = true ∧
        ∀ j, i ≤ j → j < k → b.isPageFree j = false := by
  induction n generalizing i with
  | zero =>
    simp only [firstFree]
    constructor
    · intro h; cases h
    · rintro ⟨h, -⟩; omega
  | succ n ih =>
    unfold firstFree
    by_cases hi : b.isPageFree i = true
    · rw [if_pos hi]
      constructor
      · intro h
        obtain rfl := Option.some.inj h
        exact ⟨by omega, hi, fun j h1 h2 => by omega⟩
      · rintro ⟨hk, -, hleast⟩
        -- The least free page is not behind `i`.
        have : i = k := by
          by_contra hne
          rw [hleast i (le_refl i) (by omega)] at hi
          cases hi
        rw [this]
    · rw [if_neg hi, ih]
      constructor
      · rintro ⟨hk, hfree, hleast⟩
        refine ⟨by omega, hfree, fun j h1 h2 => ?_⟩
        rcases Nat.eq_or_lt_of_le h1 with rfl | h1
        · simpa using hi
        · exact hleast j h1 h2
      · rintro ⟨hk, hfree, hleast⟩
        have hne : i ≠ k := by rintro rfl; exact hi hfree
        exact ⟨by omega, hfree, fun j h1 h2 => hleast j (by omega) h2⟩

/-- The search fails when its range has no free index. -/
theorem firstFree_eq_none {n i : ℕ} :
    b.firstFree n i = none ↔ ∀ j, i ≤ j → j < i + n → b.isPageFree j = false := by
  induction n generalizing i with
  | zero => simp only [firstFree, true_iff]; intro j h1 h2; omega
  | succ n ih =>
    unfold firstFree
    by_cases hi : b.isPageFree i = true
    · rw [if_pos hi]
      constructor
      · intro h; cases h
      · intro h; rw [h i (le_refl i) (by omega)] at hi; cases hi
    · rw [if_neg hi, ih]
      constructor
      · intro h j h1 h2
        rcases Nat.eq_or_lt_of_le h1 with rfl | h1
        · simpa using hi
        · exact h j h1 (by omega)
      · intro h j h1 h2
        exact h j (by omega) (by omega)

/-- `freePage` is the least free index below `total_pages`. -/
theorem freePage_eq_some {k : ℕ} :
    b.freePage = some k ↔
      k < b.total_pages ∧ b.isPageFree k = true ∧ ∀ j < k, b.isPageFree j = false := by
  unfold freePage
  rw [firstFree_eq_some]
  simp

/-- `freePage` finds nothing when every index below `total_pages` is used. -/
theorem freePage_eq_none :
    b.freePage = none ↔ ∀ j < b.total_pages, b.isPageFree j = false := by
  unfold freePage
  rw [firstFree_eq_none]
  simp

/-- `allocate_physical_page` on a bitmap with a free page: the address of the least one, which is
then used. -/
theorem allocatePhysicalPage_of_some (hb : b.Small) {i : ℕ} (h : b.freePage = some i) :
    b.allocatePhysicalPage = (4096 * i, b.setPageUsed i) := by
  have hi := (freePage_eq_some.mp h).1
  unfold Small at hb
  have hmod : i * 4096 % 2^64 = 4096 * i := by omega
  simp only [allocatePhysicalPage, h, hmod]

/-- `allocate_physical_page` on a full bitmap: `0`, and nothing changes. -/
theorem allocatePhysicalPage_of_none (h : b.freePage = none) : b.allocatePhysicalPage = (0, b) := by
  simp only [allocatePhysicalPage, h]

end Bitmap

/-! ## `init_bitmap` -/

/-- The clearing loop writes zero to each byte of its range and leaves the others. -/
theorem foldl_clear (n : ℕ) (ram : ℤ → BitVec 8) (k : ℤ) :
    (List.range n).foldl (fun m (i : ℕ) => Function.update m (i : ℤ) 0#8) ram k =
      if 0 ≤ k ∧ k < n then 0#8 else ram k := by
  induction n with
  | zero =>
    rw [if_neg (by omega)]
    rfl
  | succ n ih =>
    rw [List.range_succ, List.foldl_append, List.foldl_cons, List.foldl_nil]
    by_cases hk : k = n
    · have : 0 ≤ k ∧ k < ((n + 1 : ℕ) : ℤ) := by omega
      rw [if_pos this, hk, Function.update_self]
    · rw [Function.update_of_ne hk, ih]
      have : (0 ≤ k ∧ k < (n : ℤ)) ↔ (0 ≤ k ∧ k < ((n + 1 : ℕ) : ℤ)) := by omega
      simp only [this]

/-- The array that `init_bitmap` clears, before it marks anything. -/
def clearedBitmap (ram : ℤ → BitVec 8) (size : ℕ) : Bitmap :=
  ⟨(List.range (size / 4096 / 8)).foldl (fun m (i : ℕ) => Function.update m (i : ℤ) 0#8) ram,
    size / 4096 / 8 * 8⟩

theorem initBitmap_eq (K : KernelImage) (ram : ℤ → BitVec 8) (size : ℕ) :
    initBitmap K ram size = (clearedBitmap ram size).setPageRangeUsed 0 K.reserveEnd := rfl

/-- Up to 32 TiB the array is small enough for its `int` indices. -/
theorem clearedBitmap_small (ram : ℤ → BitVec 8) {size : ℕ} (h : size ≤ 2^45) :
    (clearedBitmap ram size).Small := by
  have : size / 4096 / 8 * 8 ≤ 2^33 := by omega
  exact this

/-- The number of pages that `init_bitmap` manages. -/
theorem initBitmap_total_pages (K : KernelImage) (ram : ℤ → BitVec 8) {size : ℕ}
    (h : size ≤ 2^45) : (initBitmap K ram size).total_pages = size / 4096 / 8 * 8 := by
  rw [initBitmap_eq, Bitmap.setPageRangeUsed_total_pages (clearedBitmap_small ram h)]
  rfl

/-- After `init_bitmap` the used pages are those of the kernel image and the 12 MiB behind it. -/
theorem isPageFree_initBitmap (K : KernelImage) (ram : ℤ → BitVec 8) {size : ℕ}
    (h : size ≤ 2^45) {j : ℕ} (hj : j < (initBitmap K ram size).total_pages) :
    (initBitmap K ram size).isPageFree j = decide (K.reserveEnd / 4096 ≤ j) := by
  rw [initBitmap_total_pages K ram h] at hj
  -- The whole rows are cleared first, and then the pages up to `reserveEnd` are used.
  have hcleared : (clearedBitmap ram size).isPageFree j = true := by
    have hrow : (0 : ℤ) ≤ ((j / 8 : ℕ) : ℤ) ∧ ((j / 8 : ℕ) : ℤ) < ((size / 4096 / 8 : ℕ) : ℤ) := by
      omega
    rw [Bitmap.isPageFree_eq]
    unfold clearedBitmap
    dsimp only
    rw [foldl_clear, if_pos hrow]
    simp
  have htotal : (clearedBitmap ram size).total_pages = size / 4096 / 8 * 8 := rfl
  rw [initBitmap_eq, Bitmap.isPageFree_setPageRangeUsed (clearedBitmap_small ram h), hcleared,
    htotal]
  by_cases hres : K.reserveEnd / 4096 ≤ j
  · rw [if_neg (by omega)]
    simp [hres]
  · rw [if_pos (by omega)]
    simp [hres]

end Potatos
