import Potatos.Lib.Runs
import Potatos.Mem.Bitmap

/-!
# The page bitmap is a set of page indices

What the physical allocator is for, said without bytes: a `PageSet` is a set of used indices below a
total, and an allocation takes the least index that is not in it. `Bitmap.toPageSet` reads the set
off the bits, and `exec_toPageSet` shows that every operation of `bitmap.c` is the operation on
sets, with the same result. The no-double-allocation property of a run is then proved from the sets.
-/

namespace Potatos

/-- A set of used page indices below `total`. -/
@[ext]
structure PageSet where
  total : ℕ
  used : Set ℕ
  used_lt : ∀ i ∈ used, i < total

/-- The operations of `bitmap.c` after `init_bitmap`. -/
inductive PageOp where
  | allocate
  | free (page_index : ℕ)
  | use (page_index : ℕ)
  | useRange (memory_range_start memory_range_end : ℕ)

namespace PageSet

variable (S : PageSet)

/-- Use the indices of `T`, as far as they are below the total. -/
def mark (T : Set ℕ) : PageSet where
  total := S.total
  used := {j | j ∈ S.used ∨ (j ∈ T ∧ j < S.total)}
  used_lt j hj := hj.elim (S.used_lt j) (fun h => h.2)

/-- Give an index back. -/
def release (i : ℕ) : PageSet where
  total := S.total
  used := {j | j ∈ S.used ∧ j ≠ i}
  used_lt j hj := S.used_lt j hj.1

open Classical in
/-- The least unused index. -/
noncomputable def least : Option ℕ :=
  if h : ∃ i, i < S.total ∧ i ∉ S.used then some (Nat.find h) else none

open Classical in
/-- The operations on sets: the result of an allocation is an address, `0` when every index is
used. -/
noncomputable def exec : PageOp → Option ℕ × PageSet
  | .allocate =>
    match S.least with
    | some i => (some (4096 * i), S.mark {i})
    | none => (some 0, S)
  | .free i => (none, S.release i)
  | .use i => (none, S.mark {i})
  | .useRange s e => (none, S.mark {j | s / 4096 ≤ j ∧ j < e / 4096})

end PageSet

namespace Bitmap

/-- One operation on the bitmap: its result, if it has one, and the bitmap after it. -/
def exec (b : Bitmap) : PageOp → Option ℕ × Bitmap
  | .allocate => (some b.allocatePhysicalPage.1, b.allocatePhysicalPage.2)
  | .free i => (none, b.setPageFree i)
  | .use i => (none, b.setPageUsed i)
  | .useRange s e => (none, b.setPageRangeUsed s e)

/-- The used indices below `total_pages`. -/
def toPageSet (b : Bitmap) : PageSet where
  total := b.total_pages
  used := {j | j < b.total_pages ∧ b.isPageFree j = false}
  used_lt _ hj := hj.1

variable {b : Bitmap}

theorem mem_toPageSet {j : ℕ} :
    j ∈ b.toPageSet.used ↔ j < b.total_pages ∧ b.isPageFree j = false := Iff.rfl

/-- Setting bits marks the set. -/
theorem toPageSet_mark {b' : Bitmap} {T : Set ℕ} [DecidablePred (· ∈ T)]
    (htotal : b'.total_pages = b.total_pages)
    (hfree : ∀ j, b'.isPageFree j = if j ∈ T ∧ j < b.total_pages then false else b.isPageFree j) :
    b'.toPageSet = b.toPageSet.mark T := by
  apply PageSet.ext
  · exact htotal
  · ext j
    show (j < b'.total_pages ∧ b'.isPageFree j = false) ↔
      ((j < b.total_pages ∧ b.isPageFree j = false) ∨ (j ∈ T ∧ j < b.total_pages))
    rw [htotal, hfree]
    by_cases hj : j ∈ T ∧ j < b.total_pages
    · rw [if_pos hj]
      exact ⟨fun _ => Or.inr hj, fun _ => ⟨hj.2, rfl⟩⟩
    · rw [if_neg hj]
      exact ⟨Or.inl, fun h => h.resolve_right hj⟩

theorem toPageSet_setPageUsed (hb : b.Small) (i : ℕ) :
    (b.setPageUsed i).toPageSet = b.toPageSet.mark {i} := by
  classical
  refine toPageSet_mark (setPageUsed_total_pages i) (fun j => ?_)
  rw [isPageFree_setPageUsed hb]
  have : (j = i ∧ i < b.total_pages) ↔ (j ∈ ({i} : Set ℕ) ∧ j < b.total_pages) := by
    rw [Set.mem_singleton_iff]
    constructor
    · rintro ⟨rfl, h⟩; exact ⟨rfl, h⟩
    · rintro ⟨rfl, h⟩; exact ⟨rfl, h⟩
  simp only [this]

theorem toPageSet_setPageRangeUsed (hb : b.Small) (s e : ℕ) :
    (b.setPageRangeUsed s e).toPageSet =
      b.toPageSet.mark {j | s / 4096 ≤ j ∧ j < e / 4096} := by
  classical
  refine toPageSet_mark (setPageRangeUsed_total_pages hb s e) (fun j => ?_)
  rw [isPageFree_setPageRangeUsed hb]
  simp only [Set.mem_ofPred_eq]

theorem toPageSet_setPageFree (hb : b.Small) (i : ℕ) :
    (b.setPageFree i).toPageSet = b.toPageSet.release i := by
  apply PageSet.ext
  · exact setPageFree_total_pages i
  · ext j
    show (j < (b.setPageFree i).total_pages ∧ (b.setPageFree i).isPageFree j = false) ↔
      ((j < b.total_pages ∧ b.isPageFree j = false) ∧ j ≠ i)
    rw [setPageFree_total_pages, isPageFree_setPageFree hb]
    by_cases hj : j = i ∧ i < b.total_pages
    · rw [if_pos hj]
      simp [hj.1]
    · rw [if_neg hj]
      constructor
      · rintro ⟨hlt, hused⟩
        exact ⟨⟨hlt, hused⟩, fun h => hj ⟨h, h ▸ hlt⟩⟩
      · exact fun h => h.1

/-- The page that the search finds is the least unused index of the set. -/
theorem least_toPageSet : b.toPageSet.least = b.freePage := by
  classical
  unfold PageSet.least
  cases hpage : b.freePage with
  | none =>
    rw [freePage_eq_none] at hpage
    rw [dif_neg]
    rintro ⟨i, hi, hunused⟩
    exact hunused ⟨hi, hpage i hi⟩
  | some k =>
    rw [freePage_eq_some] at hpage
    obtain ⟨hk, hfree, hleast⟩ := hpage
    -- The page that the search finds is unused, and the ones before it are not.
    have hex : ∃ i, i < b.toPageSet.total ∧ i ∉ b.toPageSet.used := by
      refine ⟨k, hk, fun h => ?_⟩
      rw [mem_toPageSet, hfree] at h
      exact absurd h.2 (by simp)
    rw [dif_pos hex]
    congr 1
    rw [Nat.find_eq_iff]
    refine ⟨⟨hk, fun h => ?_⟩, fun j hj => ?_⟩
    · rw [mem_toPageSet, hfree] at h
      exact absurd h.2 (by simp)
    · rintro ⟨hlt, hunused⟩
      exact hunused ⟨hlt, hleast j hj⟩

theorem exec_allocate_of_some (hb : b.Small) {i : ℕ} (h : b.freePage = some i) :
    b.exec .allocate = (some (4096 * i), b.setPageUsed i) := by
  simp only [exec, allocatePhysicalPage_of_some hb h]

/-- Every operation of `bitmap.c` is the operation on the set of used indices, result included. -/
theorem exec_toPageSet (hb : b.Small) (op : PageOp) :
    b.toPageSet.exec op = ((b.exec op).1, (b.exec op).2.toPageSet) := by
  cases op with
  | allocate =>
    simp only [PageSet.exec, exec, least_toPageSet]
    cases hpage : b.freePage with
    | none => rw [allocatePhysicalPage_of_none hpage]
    | some i => rw [allocatePhysicalPage_of_some hb hpage, toPageSet_setPageUsed hb]
  | free i => simp only [PageSet.exec, exec, toPageSet_setPageFree hb]
  | use i => simp only [PageSet.exec, exec, toPageSet_setPageUsed hb]
  | useRange s e => simp only [PageSet.exec, exec, toPageSet_setPageRangeUsed hb]

/-- No operation changes the number of pages. -/
theorem exec_total_pages (hb : b.Small) (op : PageOp) :
    (b.exec op).2.total_pages = b.total_pages := by
  cases op with
  | allocate =>
    simp only [exec, allocatePhysicalPage]
    cases b.freePage with
    | none => rfl
    | some i => exact setPageUsed_total_pages i
  | free i => exact setPageFree_total_pages i
  | use i => exact setPageUsed_total_pages i
  | useRange s e => exact setPageRangeUsed_total_pages hb s e

theorem exec_small (hb : b.Small) (op : PageOp) : (b.exec op).2.Small :=
  hb.congr (exec_total_pages hb op)

/-- A bit that an operation clears is that of a `set_page_free` of its index. -/
theorem isPageFree_exec (hb : b.Small) {op : PageOp} {j : ℕ}
    (hfree : (b.exec op).2.isPageFree j = true) :
    b.isPageFree j = true ∨ op = .free j := by
  -- Marking a page as used frees none.
  have hmark : ∀ i, (b.setPageUsed i).isPageFree j = true → b.isPageFree j = true := by
    intro i h
    rw [isPageFree_setPageUsed hb] at h
    split_ifs at h with hc
    exact h
  cases op with
  | allocate =>
    simp only [exec, allocatePhysicalPage] at hfree
    cases hpage : b.freePage with
    | none => rw [hpage] at hfree; exact Or.inl hfree
    | some i => rw [hpage] at hfree; exact Or.inl (hmark i hfree)
  | free i =>
    simp only [exec, isPageFree_setPageFree hb] at hfree
    split_ifs at hfree with hc
    · exact Or.inr (by rw [hc.1])
    · exact Or.inl hfree
  | use i => exact Or.inl (hmark i hfree)
  | useRange s e =>
    simp only [exec, isPageFree_setPageRangeUsed hb] at hfree
    split_ifs at hfree with hc
    exact Or.inl hfree

/-- The page that an operation hands out. -/
def handsOut (b : Bitmap) : PageOp → Option ℕ
  | .allocate => b.freePage
  | _ => none

/-- An operation on one index leaves the bits of the others. -/
theorem isPageFree_exec_of_ne (hb : b.Small) {op : PageOp} {i j : ℕ}
    (hindex : op = .free i ∨ op = .use i ∨ b.handsOut op = some i) (hj : j ≠ i) :
    (b.exec op).2.isPageFree j = b.isPageFree j := by
  have hused : (b.setPageUsed i).isPageFree j = b.isPageFree j := by
    rw [isPageFree_setPageUsed hb, if_neg (fun h => hj h.1)]
  rcases hindex with rfl | rfl | hout
  · show (b.setPageFree i).isPageFree j = _
    rw [isPageFree_setPageFree hb, if_neg (fun h => hj h.1)]
  · exact hused
  · cases op with
    | allocate =>
      have hpage : b.freePage = some i := hout
      rw [exec_allocate_of_some hb hpage]
      exact hused
    | free i => cases hout
    | use i => cases hout
    | useRange s e => cases hout

end Bitmap

/-! ## Runs -/

/-- A bitmap and the pages handed out and not given back since. -/
structure PageUse where
  bitmap : Bitmap
  held : Set ℕ

namespace PageUse

/-- The page that an operation hands out. -/
abbrev handsOut (s : PageUse) (op : PageOp) : Option ℕ := s.bitmap.handsOut op

/-- The held pages after an operation. -/
def heldAfter (s : PageUse) (op : PageOp) : Set ℕ :=
  {j | (j ∈ s.held ∧ op ≠ .free j) ∨ s.handsOut op = some j}

/-- One operation, with the bookkeeping of the held pages. -/
def Step (s : PageUse) (op : PageOp) (t : PageUse) : Prop :=
  t = ⟨(s.bitmap.exec op).2, s.heldAfter op⟩

/-- After `init_bitmap` no page is held. -/
def init (K : KernelImage) (ram : ℤ → BitVec 8) (kilobytes : ℕ) : PageUse :=
  ⟨initBitmap K ram (kilobytes * 1024), ∅⟩

/-- Held pages are used. -/
def HeldUsed (s : PageUse) : Prop :=
  s.bitmap.Small ∧ ∀ j ∈ s.held, s.bitmap.isPageFree j = false

/-- The page handed out is free before, and the result is its address. -/
theorem exec_of_handsOut {s : PageUse} (hb : s.bitmap.Small) {op : PageOp} {i : ℕ}
    (h : s.handsOut op = some i) :
    (s.bitmap.exec op).1 = some (4096 * i) ∧ s.bitmap.isPageFree i = true := by
  cases op with
  | allocate =>
    have hpage : s.bitmap.freePage = some i := h
    rw [Bitmap.exec_allocate_of_some hb hpage]
    exact ⟨rfl, (Bitmap.freePage_eq_some.mp hpage).2.1⟩
  | free i => cases h
  | use i => cases h
  | useRange s e => cases h

/-- The page handed out is used afterwards. -/
theorem isPageFree_of_handsOut {s : PageUse} (hb : s.bitmap.Small) {op : PageOp} {j : ℕ}
    (h : s.handsOut op = some j) : (s.bitmap.exec op).2.isPageFree j = false := by
  cases op with
  | allocate =>
    have hpage : s.bitmap.freePage = some j := h
    have hj := (Bitmap.freePage_eq_some.mp hpage).1
    rw [Bitmap.exec_allocate_of_some hb hpage, Bitmap.isPageFree_setPageUsed hb, if_pos ⟨rfl, hj⟩]
  | free i => cases h
  | use i => cases h
  | useRange s e => cases h

/-- An allocation, and then a page is given back. -/
theorem Step.bitmap_of_allocate {s t u : PageUse} {i k : ℕ} (hb : s.bitmap.Small)
    (hpage : s.bitmap.freePage = some i) (h : Step s .allocate t) (h' : Step t (.free k) u) :
    u.bitmap = (s.bitmap.setPageUsed i).setPageFree k := by
  obtain rfl := h
  obtain rfl := h'
  show (s.bitmap.exec .allocate).2.setPageFree k = _
  rw [Bitmap.exec_allocate_of_some hb hpage]

/-- One operation keeps the held pages used. -/
theorem Step.heldUsed {s t : PageUse} {op : PageOp} (hs : s.HeldUsed) (h : Step s op t) :
    t.HeldUsed := by
  obtain rfl := h
  obtain ⟨hb, hheld⟩ := hs
  refine ⟨Bitmap.exec_small hb op, fun j hj => ?_⟩
  rcases hj with ⟨hj, hop⟩ | hj
  · by_contra hfree
    rw [Bool.not_eq_false] at hfree
    rcases Bitmap.isPageFree_exec hb hfree with h | h
    · rw [hheld j hj] at h; cases h
    · exact hop h
  · exact isPageFree_of_handsOut hb hj

/-- A page that was used at the start of a run and is free at its end was given to
`set_page_free`. -/
theorem free_mem_of_run {s u : PageUse} {ts : List (Lib.Transition PageUse PageOp)}
    (hrun : Lib.Run Step s ts u) (hb : s.bitmap.Small) {j : ℕ}
    (hused : s.bitmap.isPageFree j = false) (hfree : u.bitmap.isPageFree j = true) :
    ∃ y ∈ ts, y.label = .free j := by
  induction hrun with
  | nil s => rw [hused] at hfree; cases hfree
  | @cons s t u op ts hstep _ ih =>
    obtain rfl := hstep
    by_cases hj : (s.bitmap.exec op).2.isPageFree j = true
    · rcases Bitmap.isPageFree_exec hb hj with h | h
      · rw [hused] at h; cases h
      · exact ⟨_, List.mem_cons_self .., h⟩
    · rw [Bool.not_eq_true] at hj
      obtain ⟨y, hy, hlabel⟩ := ih (Bitmap.exec_small hb op) hj hfree
      exact ⟨y, List.mem_cons_of_mem _ hy, hlabel⟩

variable {K : KernelImage} {ram : ℤ → BitVec 8} {kilobytes : ℕ}
  {ts : List (Lib.Transition PageUse PageOp)} {last : PageUse}

/-- 12 MiB behind the image does not wrap. -/
theorem reserveEnd_eq (K : KernelImage) : K.reserveEnd = K.physical_end + 12 * 2^20 := by
  have := K.le_two_gib
  unfold KernelImage.reserveEnd
  omega

/-- The state after `init_bitmap` of a 32-bit number of kilobytes: nothing is held. -/
theorem init_heldUsed (hkb : kilobytes < 2^32) : (init K ram kilobytes).HeldUsed := by
  refine ⟨?_, fun j hj => absurd hj (by simp [init])⟩
  unfold init Bitmap.Small
  rw [initBitmap_total_pages K ram (by omega)]
  omega

/-- A page is free after `init_bitmap` if it is behind the image and the 12 MiB. -/
theorem isPageFree_init (hkb : kilobytes < 2^32) {j : ℕ}
    (hj : j < kilobytes * 1024 / 4096 / 8 * 8) :
    (init K ram kilobytes).bitmap.isPageFree j =
      decide ((K.physical_end + 12 * 2^20) / 4096 ≤ j) := by
  have hsize : kilobytes * 1024 ≤ 2^45 := by omega
  rw [← initBitmap_total_pages K ram hsize] at hj
  have hfree := isPageFree_initBitmap K ram hsize hj
  rw [reserveEnd_eq] at hfree
  exact hfree

/-- The used pages after `init_bitmap`. -/
theorem init_used (hkb : kilobytes < 2^32) :
    (init K ram kilobytes).bitmap.toPageSet.used =
      {j | j < kilobytes * 1024 / 4096 / 8 * 8 ∧ j < (K.physical_end + 12 * 2^20) / 4096} := by
  have htotal := initBitmap_total_pages K ram (by omega : kilobytes * 1024 ≤ 2^45)
  ext j
  rw [Bitmap.mem_toPageSet]
  show (j < (initBitmap K ram _).total_pages ∧ _) ↔ _
  rw [htotal]
  refine and_congr_right (fun hj => ?_)
  rw [isPageFree_init hkb hj, decide_eq_false_iff_not]
  exact Nat.not_le

/-- Each operation of a run starts from a state whose held pages are used. -/
theorem heldUsed_of_mem {s : PageUse} (hs : s.HeldUsed) (hrun : Lib.Run Step s ts last)
    {x : Lib.Transition PageUse PageOp} (hx : x ∈ ts) :
    x.pre.HeldUsed ∧ x.post = ⟨(x.pre.bitmap.exec x.label).2, x.pre.heldAfter x.label⟩ := by
  obtain ⟨l, r, -, hl, hstep, -⟩ := hrun.prefix_of_mem hx
  exact ⟨hl.invariant_all hs (fun s a t hs h => h.heldUsed hs), hstep⟩

/-- The number of pages is the same at both ends of a run. -/
theorem total_pages_of_run {s : PageUse} (hb : s.bitmap.Small) (hrun : Lib.Run Step s ts last) :
    last.bitmap.total_pages = s.bitmap.total_pages := by
  induction hrun with
  | nil s => rfl
  | @cons s t u op ts hstep _ ih =>
    obtain rfl := hstep
    exact (ih (Bitmap.exec_small hb op)).trans (Bitmap.exec_total_pages hb op)

/-- A page of the initial set is handed out only after a `set_page_free` of it. -/
theorem free_mem_of_handsOut (hkb : kilobytes < 2^32)
    (hrun : Lib.Run Step (init K ram kilobytes) ts last) {op : PageOp} {i : ℕ}
    (hout : last.handsOut op = some i) (hi : i < (K.physical_end + 12 * 2^20) / 4096) :
    ∃ y ∈ ts, y.label = .free i := by
  have hsmall := (init_heldUsed hkb : (init K ram kilobytes).HeldUsed).1
  cases op with
  | allocate =>
    obtain ⟨hlt, hfree, -⟩ := Bitmap.freePage_eq_some.mp hout
    rw [total_pages_of_run hsmall hrun] at hlt
    refine free_mem_of_run hrun hsmall ?_ hfree
    -- The page was used after `init`, so an operation of the run has freed it.
    have hmem : i ∈ (init K ram kilobytes).bitmap.toPageSet.used := by
      rw [init_used hkb]
      refine ⟨?_, hi⟩
      have htotal := initBitmap_total_pages K ram (by omega : kilobytes * 1024 ≤ 2^45)
      rw [← htotal]
      exact hlt
    exact hmem.2
  | free i => cases hout
  | use i => cases hout
  | useRange s e => cases hout

/-- The physical allocator over whole runs. From `init_bitmap`, whose set of used pages is the
kernel image and the 12 MiB behind it, every operation acts as the operation on the set of used
indices, with the same result; an operation on an index touches the bit of this index only, and
nothing for an index at or past `total_pages`; an allocation that finds no page returns `0` and
changes nothing; no page is handed out while it is held; and no page of the initial set is handed
out unless it was given to `set_page_free` before. -/
theorem bitmap_refines_page_set (K : KernelImage) (ram : ℤ → BitVec 8) (kilobytes : ℕ)
    (hkb : kilobytes < 2^32) :
    (init K ram kilobytes).bitmap.total_pages = kilobytes * 1024 / 4096 / 8 * 8 ∧
    (init K ram kilobytes).bitmap.toPageSet.used =
      {j | j < kilobytes * 1024 / 4096 / 8 * 8 ∧ j < (K.physical_end + 12 * 2^20) / 4096} ∧
    ∀ ts last, Lib.Run Step (init K ram kilobytes) ts last →
      (∀ x ∈ ts, x.pre.bitmap.toPageSet.exec x.label =
        ((x.pre.bitmap.exec x.label).1, x.post.bitmap.toPageSet)) ∧
      (∀ x ∈ ts, ∀ i,
        x.label = .free i ∨ x.label = .use i ∨ x.pre.handsOut x.label = some i →
        ∀ j, j ≠ i → x.post.bitmap.isPageFree j = x.pre.bitmap.isPageFree j) ∧
      (∀ x ∈ ts, ∀ i, x.label = .free i ∨ x.label = .use i →
        x.pre.bitmap.total_pages ≤ i → x.post.bitmap = x.pre.bitmap) ∧
      (∀ x ∈ ts, x.label = .allocate → x.pre.handsOut x.label = none →
        (x.pre.bitmap.exec x.label).1 = some 0 ∧ x.post.bitmap = x.pre.bitmap) ∧
      (∀ x ∈ ts, ∀ i, x.pre.handsOut x.label = some i →
        (x.pre.bitmap.exec x.label).1 = some (4096 * i) ∧ i ∉ x.pre.held) ∧
      (∀ l x r i, ts = l ++ x :: r → x.pre.handsOut x.label = some i →
        i < (K.physical_end + 12 * 2^20) / 4096 → ∃ y ∈ l, y.label = .free i) := by
  have hinit : (init K ram kilobytes).HeldUsed := init_heldUsed hkb
  refine ⟨initBitmap_total_pages K ram (by omega), init_used hkb, fun ts last hrun => ?_⟩
  -- In every state of the run the bitmap is small, and what is held is used.
  have hpre := fun x hx => heldUsed_of_mem hinit hrun (x := x) hx
  refine ⟨fun x hx => ?_, fun x hx i hindex j hj => ?_, fun x hx i hlabel hle => ?_,
    fun x hx hlabel hnone => ?_, fun x hx i hout => ?_, ?_⟩
  · obtain ⟨⟨hb, -⟩, hpost⟩ := hpre x hx
    rw [hpost]
    exact Bitmap.exec_toPageSet hb x.label
  · obtain ⟨⟨hb, -⟩, hpost⟩ := hpre x hx
    rw [hpost]
    exact Bitmap.isPageFree_exec_of_ne hb hindex hj
  · obtain ⟨-, hpost⟩ := hpre x hx
    rw [hpost]
    rcases hlabel with hlabel | hlabel <;> rw [hlabel]
    · exact Bitmap.setPageFree_of_le hle
    · exact Bitmap.setPageUsed_of_le hle
  · obtain ⟨-, hpost⟩ := hpre x hx
    rw [hlabel] at hnone hpost ⊢
    rw [hpost]
    have hfull := Bitmap.allocatePhysicalPage_of_none hnone
    exact ⟨congrArg some (congrArg Prod.fst hfull), congrArg Prod.snd hfull⟩
  · obtain ⟨⟨hb, hheld⟩, -⟩ := hpre x hx
    obtain ⟨hresult, hfree⟩ := exec_of_handsOut hb hout
    refine ⟨hresult, fun hi => ?_⟩
    rw [hheld i hi] at hfree
    cases hfree
  · rintro l x r i rfl hout hi
    obtain ⟨m, hl, hr⟩ := hrun.split
    have hm : m = x.pre := by cases hr; rfl
    subst hm
    exact free_mem_of_handsOut hkb hl hout hi

/-- The machine of the build file: 128 MiB, with an image that ends at 4 MiB. Page 4096, the first
one behind the 12 MiB, is handed out. Page 0, once given to `set_page_free`, is the next one. -/
theorem bitmap_refines_page_set_128M :
    (init ⟨0x400000, by decide⟩ (fun _ => 0#8) 131072).bitmap.total_pages = 32768 ∧
    ∃ ts last, Lib.Run Step (init ⟨0x400000, by decide⟩ (fun _ => 0#8) 131072) ts last ∧
      ts.map (fun x => (x.label, (x.pre.bitmap.exec x.label).1)) =
        [(.allocate, some (4096 * 4096)), (.free 0, none), (.allocate, some (4096 * 0))] ∧
      (∀ x ∈ ts, x.pre.bitmap.toPageSet.exec x.label =
        ((x.pre.bitmap.exec x.label).1, x.post.bitmap.toPageSet)) ∧
      ∀ x ∈ ts, ∀ i, x.pre.handsOut x.label = some i → i ∉ x.pre.held := by
  have hkb : 131072 < 2^32 := by decide
  obtain ⟨htotal, -, hruns⟩ := bitmap_refines_page_set ⟨0x400000, by decide⟩ (fun _ => 0#8) _ hkb
  have hfree := @isPageFree_init ⟨0x400000, by decide⟩ (fun _ => 0#8) _ hkb
  have hsmall := (@init_heldUsed ⟨0x400000, by decide⟩ (fun _ => 0#8) _ hkb).1
  generalize init ⟨0x400000, by decide⟩ (fun _ => 0#8) 131072 = s at htotal hruns hfree hsmall ⊢
  norm_num at htotal hfree
  refine ⟨htotal, ?_⟩
  -- The first allocation takes page 4096.
  have hpage : s.bitmap.freePage = some 4096 := by
    refine Bitmap.freePage_eq_some.mpr ⟨by omega, ?_, fun j hj => ?_⟩
    · rw [@hfree 4096 (by decide), decide_eq_true (le_refl 4096)]
    · rw [@hfree j (by omega), decide_eq_false (by omega)]
  have htotal₁ : (s.bitmap.setPageUsed 4096).total_pages = 32768 :=
    (Bitmap.setPageUsed_total_pages 4096).trans htotal
  have hsmall₁ : (s.bitmap.setPageUsed 4096).Small := hsmall.congr (htotal₁.trans htotal.symm)
  have htotal₂ : ((s.bitmap.setPageUsed 4096).setPageFree 0).total_pages = 32768 :=
    (Bitmap.setPageFree_total_pages 0).trans htotal₁
  have hsmall₂ : ((s.bitmap.setPageUsed 4096).setPageFree 0).Small :=
    hsmall.congr (htotal₂.trans htotal.symm)
  -- The second one takes page 0.
  have hpage₂ : ((s.bitmap.setPageUsed 4096).setPageFree 0).freePage = some 0 := by
    refine Bitmap.freePage_eq_some.mpr ⟨by omega, ?_, fun j hj => absurd hj (Nat.not_lt_zero j)⟩
    rw [Bitmap.isPageFree_setPageFree hsmall₁, if_pos ⟨rfl, by omega⟩]
  obtain ⟨s₁, h₁⟩ : ∃ t, Step s .allocate t := ⟨_, rfl⟩
  obtain ⟨s₂, h₂⟩ : ∃ t, Step s₁ (.free 0) t := ⟨_, rfl⟩
  obtain ⟨s₃, h₃⟩ : ∃ t, Step s₂ .allocate t := ⟨_, rfl⟩
  have hrun := Lib.Run.cons h₁ (.cons h₂ (.cons h₃ (.nil _)))
  obtain ⟨hrefines, -, -, -, hheld, -⟩ := hruns _ _ hrun
  refine ⟨_, _, hrun, ?_, hrefines, fun x hx i hi => (hheld x hx i hi).2⟩
  have hfirst := Bitmap.exec_allocate_of_some hsmall hpage
  have hbitmap := Step.bitmap_of_allocate hsmall hpage h₁ h₂
  have hlast := Bitmap.exec_allocate_of_some (hbitmap ▸ hsmall₂) (hbitmap ▸ hpage₂)
  show [(PageOp.allocate, (s.bitmap.exec .allocate).1), (.free 0, none),
    (.allocate, (s₂.bitmap.exec .allocate).1)] = _
  rw [hfirst, hlast]

end PageUse

end Potatos
