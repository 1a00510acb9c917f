import Mathlib.Data.List.GetD
import Mathlib.Data.List.TakeWhile
import Potatos.Lib.ByteMemory
import Potatos.Mem.Pmm

/-!
# The memory map tag

`parse_mmap` from the bytes of the multiboot2 tag on, and what it leaves in the bitmap. The number
of entries is computed from the fields `size` and `entry_size`, but the entries are read as an
array of `multiboot_mmap_entry`, which has 24 bytes.

On a sorted map the pages of the RESERVED entries inside the memory are marked and no others
(`parseMmapTag_exact`), since behind the first RESERVED entry that ends past the memory there are no
others inside. On a map in another order the loop misses what comes behind that entry
(`parseMmap_perm_iff`). `safeTag_iff` says for which tags of a loader the loop reads the
entries where they are, and the names of their types inside the table.
-/

namespace Potatos

open Lib

/-! ## The code -/

/-- `mmap_root->size`. -/
def mmapTagSize (m : ByteMemory) (mmap_root : ℕ) : ℕ := load 4 m (mmap_root + 4)

/-- `mmap_root->entry_size`. -/
def mmapEntrySize (m : ByteMemory) (mmap_root : ℕ) : ℕ := load 4 m (mmap_root + 8)

/-- The `multiboot_mmap_entry` at an address. -/
def readEntry (m : ByteMemory) (a : ℕ) : MmapEntry :=
  ⟨BitVec.ofNat 64 (load 8 m a), BitVec.ofNat 64 (load 8 m (a + 8)),
    BitVec.ofNat 32 (load 4 m (a + 16))⟩

/-- `mmap_number_of_entries`: a 64-bit difference and quotient, stored in 32 bits. A division by
zero is `none`. -/
def mmapNumberOfEntries (m : ByteMemory) (mmap_root : ℕ) : Option ℕ :=
  if mmapEntrySize m mmap_root = 0 then none
  else some ((mmapTagSize m mmap_root + 2^64 - 16) % 2^64 / mmapEntrySize m mmap_root % 2^32)

/-- `mmap_entries[i]`. -/
def mmapEntry (m : ByteMemory) (mmap_root i : ℕ) : MmapEntry :=
  readEntry m (mmap_root + 16 + 24 * i)

/-- The entries that the loop runs over. -/
def mmapEntries (m : ByteMemory) (mmap_root : ℕ) : Option (List MmapEntry) :=
  (mmapNumberOfEntries m mmap_root).map (fun n => (List.range n).map (mmapEntry m mmap_root))

/-- `parse_mmap`. -/
def parseMmapTag (m : ByteMemory) (mmap_root size_of_memory : ℕ) (b : Bitmap) : Option Bitmap :=
  (mmapEntries m mmap_root).map (fun es => parseMmap size_of_memory es b)

/-! ## The format -/

/-- Entry `i` of the tag, where the format has it. -/
def tagEntry (m : ByteMemory) (mmap_root i : ℕ) : MmapEntry :=
  readEntry m (mmap_root + 16 + mmapEntrySize m mmap_root * i)

/-- The entries of the tag. -/
def tagEntries (m : ByteMemory) (mmap_root : ℕ) : List MmapEntry :=
  (List.range ((mmapTagSize m mmap_root - 16) / mmapEntrySize m mmap_root)).map
    (tagEntry m mmap_root)

/-- Page `j` is in the entry. -/
def MmapEntry.HasPage (e : MmapEntry) (j : ℕ) : Prop :=
  e.addr.toNat ≤ 4096 * j ∧ 4096 * j + 4096 ≤ e.addr.toNat + e.len.toNat

/-- The entry is a whole number of pages, and does not wrap around. -/
structure MmapEntry.Paged (e : MmapEntry) : Prop where
  addr : e.addr.toNat % 4096 = 0
  len : e.len.toNat % 4096 = 0
  fits : e.addr.toNat + e.len.toNat < 2^64

/-- A map that is sorted by address and has no byte twice. -/
structure OrderedMap (es : List MmapEntry) : Prop where
  paged : ∀ e ∈ es, e.Paged
  sorted : es.Pairwise (fun e e' => e.addr.toNat ≤ e'.addr.toNat)
  disjoint : es.Pairwise (fun e e' => ∀ z, ¬ (e.Covers z ∧ e'.Covers z))

/-- `b'` has the same pages as `b`, and the same bits and bytes outside them. -/
structure Bitmap.SameOutside (b b' : Bitmap) : Prop where
  total_pages : b'.total_pages = b.total_pages
  bits : ∀ j, b.total_pages ≤ j → b'.isPageFree j = b.isPageFree j
  bytes : ∀ y < 0, b'.bitmap y = b.bitmap y

variable {m : ByteMemory} {mmap_root size_of_memory n i j : ℕ} {b b' b'' : Bitmap}
  {e e' : MmapEntry} {es es' : List MmapEntry}

/-! ## What `parse_mmap` leaves -/

namespace Bitmap

theorem SameOutside.refl : b.SameOutside b := ⟨rfl, fun _ _ => rfl, fun _ _ => rfl⟩

theorem SameOutside.symm (h : b.SameOutside b') : b'.SameOutside b where
  total_pages := h.total_pages.symm
  bits := fun j hj => (h.bits j (by rwa [← h.total_pages])).symm
  bytes := fun y hy => (h.bytes y hy).symm

theorem SameOutside.trans (h : b.SameOutside b') (h' : b'.SameOutside b'') : b.SameOutside b'' where
  total_pages := h'.total_pages.trans h.total_pages
  bits := fun j hj => (h'.bits j (by rwa [h.total_pages])).trans (h.bits j hj)
  bytes := fun y hy => (h'.bytes y hy).trans (h.bytes y hy)

/-- A bitmap is its bits and what is in front of its bytes. -/
theorem SameOutside.eq (h : b.SameOutside b')
    (hbits : ∀ j < b.total_pages, b'.isPageFree j = b.isPageFree j) : b' = b := by
  have hall : ∀ j, b'.isPageFree j = b.isPageFree j := by
    intro j
    rcases Nat.lt_or_ge j b.total_pages with hj | hj
    · exact hbits j hj
    · exact h.bits j hj
  have hbytes : b'.bitmap = b.bitmap := by
    funext y
    rcases lt_or_ge y 0 with hy | hy
    · exact h.bytes y hy
    · obtain ⟨y, rfl⟩ := Int.eq_ofNat_of_zero_le hy
      -- The eight bits of the byte.
      apply BitVec.eq_of_getLsbD_eq
      intro k hk
      have hbit := hall (8 * y + k)
      rw [isPageFree_eq, isPageFree_eq, Nat.mul_add_div (by norm_num), Nat.div_eq_of_lt hk,
        Nat.mul_add_mod, Nat.mod_eq_of_lt hk] at hbit
      exact Bool.not_inj hbit
  obtain ⟨bitmap, total_pages⟩ := b
  obtain ⟨bitmap', total_pages'⟩ := b'
  exact congrArg₂ Bitmap.mk hbytes h.total_pages

theorem sameOutside_setPageUsed (hb : b.Small) : b.SameOutside (b.setPageUsed i) where
  total_pages := setPageUsed_total_pages i
  bits := by
    intro j hj
    rw [isPageFree_setPageUsed hb, if_neg (by omega)]
  bytes := by
    intro y hy
    unfold setPageUsed
    split_ifs with hi
    · rfl
    · dsimp only
      rw [hb.cInt_row (Nat.lt_of_not_le hi), Function.update_of_ne (by omega)]

theorem sameOutside_setPageRangeUsed (hb : b.Small) {s e : ℕ} :
    b.SameOutside (b.setPageRangeUsed s e) := by
  unfold setPageRangeUsed
  dsimp only
  generalize e / 4096 - s / 4096 = n
  generalize s / 4096 = s
  induction n generalizing b s with
  | zero => exact SameOutside.refl
  | succ n ih =>
    rw [List.range'_succ, List.foldl_cons]
    exact (sameOutside_setPageUsed hb).trans (ih (hb.setPageUsed s) (s + 1))

end Bitmap

/-- `parse_mmap` writes no other bits than those of pages. -/
theorem sameOutside_parseMmap (hb : b.Small) : b.SameOutside (parseMmap size_of_memory es b) := by
  induction es generalizing b with
  | nil => exact Bitmap.SameOutside.refl
  | cons e es ih =>
    rw [parseMmap]
    split_ifs with htype hlast
    · exact Bitmap.SameOutside.refl
    · have hrange := Bitmap.sameOutside_setPageRangeUsed hb (s := e.addr.toNat) (e := e.last)
      exact hrange.trans (ih (hb.congr hrange.total_pages))
    · exact ih hb

/-- It marks the protected pages. -/
theorem isPageFree_parseMmap_eq_false (hb : b.Small) (hj : j < b.total_pages) :
    (parseMmap size_of_memory es b).isPageFree j = false ↔
      b.isPageFree j = false ∨ Protected size_of_memory es j := by
  have hiff := (isPageFree_parseMmap size_of_memory es b hb).2 j hj
  rw [← Bool.not_eq_true, hiff, ← Bool.not_eq_true]
  tauto

/-! ## Sorted maps -/

namespace MmapEntry

theorem Paged.last_eq (h : e.Paged) : e.last = e.addr.toNat + e.len.toNat := by
  rw [last, BitVec.toNat_add, Nat.mod_eq_of_lt h.fits]

/-- The page range of the code has the pages of the entry. -/
theorem Paged.hasPage_iff (h : e.Paged) :
    e.HasPage j ↔ e.addr.toNat / 4096 ≤ j ∧ j < e.last / 4096 := by
  have haddr := h.addr
  have hlen := h.len
  rw [h.last_eq, HasPage]
  omega

/-- Behind an entry that ends past the memory, no page is inside it. -/
theorem Paged.past (h : e.Paged) (hle : e.addr.toNat ≤ e'.addr.toNat)
    (hdisjoint : ∀ z, ¬ (e.Covers z ∧ e'.Covers z)) (hlast : size_of_memory < e.last)
    (hpage : e'.HasPage j) : size_of_memory < e'.addr.toNat + e'.len.toNat := by
  rw [h.last_eq] at hlast
  obtain ⟨hlo, hhi⟩ := hpage
  by_contra hin
  apply hdisjoint e'.addr.toNat
  constructor
  · exact ⟨hle, by omega⟩
  · exact ⟨le_refl _, by omega⟩

end MmapEntry

/-- On a sorted map, a RESERVED entry inside the memory comes before the loop breaks. -/
theorem OrderedMap.mem_takeWhile (h : OrderedMap es) (he : e ∈ es)
    (hlast : e.addr.toNat + e.len.toNat ≤ size_of_memory) (hpage : e.HasPage j) :
    e ∈ es.takeWhile (fun e => !e.breaks size_of_memory) := by
  induction es with
  | nil => exact absurd he List.not_mem_nil
  | cons first es ih =>
    obtain ⟨hpaged, hsorted, hdisjoint⟩ := h
    rw [List.forall_mem_cons] at hpaged
    rw [List.pairwise_cons] at hsorted hdisjoint
    have hin : first.breaks size_of_memory = false := by
      rw [Bool.eq_false_iff]
      intro hbreaks
      have hpast : size_of_memory < first.last := by
        rw [MmapEntry.breaks, Bool.and_eq_true, decide_eq_true_iff] at hbreaks
        exact hbreaks.2
      rcases List.mem_cons.mp he with rfl | he
      · rw [hpaged.1.last_eq] at hpast
        omega
      · have hbehind := hpaged.1.past (hsorted.1 e he) (hdisjoint.1 e he) hpast hpage
        omega
    rw [List.takeWhile_cons_of_pos (by rw [hin]; rfl)]
    rcases List.mem_cons.mp he with rfl | he
    · exact List.mem_cons_self
    · exact List.mem_cons_of_mem _ (ih ⟨hpaged.2, hsorted.2, hdisjoint.2⟩ he)

/-- On a sorted map, the protected pages are those of the RESERVED entries inside the memory. -/
theorem OrderedMap.protected_iff (h : OrderedMap es) :
    Protected size_of_memory es j ↔
      ∃ e ∈ es, e.type = MULTIBOOT_MEMORY_RESERVED ∧
        e.addr.toNat + e.len.toNat ≤ size_of_memory ∧ e.HasPage j := by
  constructor
  · rintro ⟨e, he, htype, hrange⟩
    have hmem : e ∈ es := (List.takeWhile_sublist _).mem he
    have hnot := List.mem_takeWhile_imp he
    have hpaged := h.paged e hmem
    refine ⟨e, hmem, htype, ?_, hpaged.hasPage_iff.mpr hrange⟩
    rw [← hpaged.last_eq]
    simpa [MmapEntry.breaks, htype] using hnot
  · rintro ⟨e, he, htype, hlast, hpage⟩
    exact ⟨e, h.mem_takeWhile he hlast hpage, htype, (h.paged e he).hasPage_iff.mp hpage⟩

/-- With entries of 24 bytes, the loop runs over the entries of the tag. -/
theorem mmapEntries_eq (hentry : mmapEntrySize m mmap_root = 24)
    (hsize : 16 ≤ mmapTagSize m mmap_root) :
    mmapEntries m mmap_root = some (tagEntries m mmap_root) := by
  have hlt : mmapTagSize m mmap_root < 2^32 := load_lt
  have hsub : (mmapTagSize m mmap_root + 2^64 - 16) % 2^64 = mmapTagSize m mmap_root - 16 := by
    omega
  have hcount : (mmapTagSize m mmap_root - 16) / 24 % 2^32 = (mmapTagSize m mmap_root - 16) / 24 :=
    Nat.mod_eq_of_lt (by omega)
  rw [mmapEntries, mmapNumberOfEntries, if_neg (by omega), hentry, hsub, hcount, Option.map_some]
  unfold tagEntries mmapEntry tagEntry
  rw [hentry]

/-- On a sorted map, `parse_mmap` marks the pages of the RESERVED entries inside the memory, and
changes nothing else. -/
theorem parseMmapTag_exact (hentry : mmapEntrySize m mmap_root = 24)
    (hsize : 16 ≤ mmapTagSize m mmap_root) (hmap : OrderedMap (tagEntries m mmap_root))
    (hb : b.Small) :
    ∃ b', parseMmapTag m mmap_root size_of_memory b = some b' ∧ b.SameOutside b' ∧
      ∀ j < b.total_pages, b'.isPageFree j = false ↔ b.isPageFree j = false ∨
        ∃ e ∈ tagEntries m mmap_root, e.type = MULTIBOOT_MEMORY_RESERVED ∧
          e.addr.toNat + e.len.toNat ≤ size_of_memory ∧ e.HasPage j := by
  refine ⟨parseMmap size_of_memory (tagEntries m mmap_root) b, ?_, sameOutside_parseMmap hb,
    fun j hj => ?_⟩
  · rw [parseMmapTag, mmapEntries_eq hentry hsize]
    rfl
  · rw [isPageFree_parseMmap_eq_false hb hj, hmap.protected_iff]

/-- A map of 64 KiB with two RESERVED ranges inside it, one that ends past it and one behind. -/
def sixEntries : List MmapEntry := [⟨0, 0x2000, 1⟩, ⟨0x2000, 0x1000, 2⟩, ⟨0x3000, 0x5000, 1⟩,
  ⟨0x8000, 0x2000, 2⟩, ⟨0xF000, 0x11000, 2⟩, ⟨0x100000, 0x1000, 2⟩]

/-- The tag with this map, at address 0. -/
def sixTag : ByteMemory :=
  sixEntries.zipIdx.foldl
    (fun m x => store 4 (store 8 (store 8 m (16 + 24 * x.2) x.1.addr.toNat)
      (24 + 24 * x.2) x.1.len.toNat) (32 + 24 * x.2) x.1.type.toNat)
    (store 4 (store 4 (fun _ => 0) 4 160) 8 24)

/-- The pages of the two ranges are marked, and at the fifth entry the loop breaks. -/
theorem parseMmapTag_exact_six :
    ∃ b', parseMmapTag sixTag 0 0x10000 ⟨fun _ => 0, 16⟩ = some b' ∧
      Bitmap.SameOutside ⟨fun _ => 0, 16⟩ b' ∧
      (∀ j < 16, b'.isPageFree j = false ↔ Bitmap.isPageFree ⟨fun _ => 0, 16⟩ j = false ∨
        ∃ e ∈ tagEntries sixTag 0, e.type = MULTIBOOT_MEMORY_RESERVED ∧
          e.addr.toNat + e.len.toNat ≤ 0x10000 ∧ e.HasPage j) ∧
      ((List.range 16).filter fun j => !b'.isPageFree j) = [2, 8, 9] ∧
      (tagEntries sixTag 0).map (fun e => e.breaks 0x10000) =
        [false, false, false, false, true, true] := by
  have hentries : tagEntries sixTag 0 = sixEntries := by decide +kernel
  have hapart : sixEntries.Pairwise
      (fun e e' => e.addr.toNat + e.len.toNat ≤ e'.addr.toNat) := by decide
  have hmap : OrderedMap (tagEntries sixTag 0) := by
    rw [hentries]
    refine ⟨?_, hapart.imp fun h => by omega, hapart.imp fun h z hz => ?_⟩
    · unfold sixEntries
      simp only [List.forall_mem_cons]
      refine ⟨?_, ?_, ?_, ?_, ?_, ?_, fun e he => absurd he List.not_mem_nil⟩
      all_goals exact ⟨by decide, by decide, by decide⟩
    · have hfirst := hz.1.2
      have hsecond := hz.2.1
      omega
  obtain ⟨b', hb', hsame, hused⟩ := @parseMmapTag_exact sixTag 0 0x10000
    ⟨fun _ => 0, 16⟩ (by decide +kernel) (by decide +kernel) hmap (by unfold Bitmap.Small; decide)
  have hpages : (parseMmapTag sixTag 0 0x10000 ⟨fun _ => 0, 16⟩).map
      (fun b => (List.range 16).filter fun j => !b.isPageFree j) = some [2, 8, 9] := by
    decide +kernel
  rw [hb'] at hpages
  exact ⟨b', hb', hsame, hused, Option.some.inj hpages, by rw [hentries]; decide⟩

/-! ## Other orders -/

/-- Without a RESERVED entry that ends past the memory, the order of the entries is the same for the
pages that are marked. -/
theorem protected_perm (hin : ∀ e ∈ es, e.breaks size_of_memory = false) (hperm : es'.Perm es) :
    Protected size_of_memory es' j ↔ Protected size_of_memory es j := by
  have hall : ∀ l : List MmapEntry, (∀ e ∈ l, e.breaks size_of_memory = false) →
      l.takeWhile (fun e => !e.breaks size_of_memory) = l := by
    intro l hl
    rw [List.takeWhile_eq_self_iff]
    intro e he
    rw [hl e he]
    rfl
  unfold Protected
  rw [hall es hin, hall es' (fun e he => hin e (hperm.mem_iff.mp he))]
  simp only [hperm.mem_iff]

/-- A page range that is used already. -/
theorem setPageRangeUsed_of_used (hb : b.Small) {s t : ℕ}
    (hused : ∀ j < b.total_pages, s / 4096 ≤ j → j < t / 4096 → b.isPageFree j = false) :
    b.setPageRangeUsed s t = b := by
  refine (Bitmap.sameOutside_setPageRangeUsed hb).eq (fun j hj => ?_)
  rw [Bitmap.isPageFree_setPageRangeUsed hb]
  split_ifs with hrange
  · exact (hused j hj hrange.1.1 hrange.1.2).symm
  · rfl

/-- Where all pages of the RESERVED entries inside the memory are used, nothing changes. -/
theorem parseMmap_of_used (hb : b.Small)
    (hused : ∀ e ∈ es, e.type = MULTIBOOT_MEMORY_RESERVED → e.last ≤ size_of_memory →
      ∀ j < b.total_pages, e.addr.toNat / 4096 ≤ j → j < e.last / 4096 →
        b.isPageFree j = false) : parseMmap size_of_memory es b = b := by
  induction es with
  | nil => rfl
  | cons e es ih =>
    rw [List.forall_mem_cons] at hused
    rw [parseMmap]
    split_ifs with htype hlast
    · rfl
    · rw [setPageRangeUsed_of_used hb (hused.1 htype (Nat.le_of_not_lt hlast))]
      exact ih hused.2
    · exact ih hused.2

/-- The order of the entries does not matter if and only if no RESERVED entry ends past the memory,
or the RESERVED entries inside it have no page that is free. -/
theorem parseMmap_perm_iff (hb : b.Small) :
    (∀ es', es'.Perm es → parseMmap size_of_memory es' b = parseMmap size_of_memory es b) ↔
      (∀ e ∈ es, e.type = MULTIBOOT_MEMORY_RESERVED → e.last ≤ size_of_memory) ∨
      ∀ e ∈ es, e.type = MULTIBOOT_MEMORY_RESERVED → e.last ≤ size_of_memory →
        ∀ j < b.total_pages, e.addr.toNat / 4096 ≤ j → j < e.last / 4096 →
          b.isPageFree j = false := by
  constructor
  · intro hsame
    by_contra hnot
    push Not at hnot
    obtain ⟨⟨x, hx, hxtype, hxlast⟩, y, hy, hytype, hylast, j, hj, hlo, hhi, hfree⟩ := hnot
    -- The loop leaves at `x` if `x` is first, and marks page `j` if `y` is.
    have hxfirst := hsame _ (List.perm_cons_erase hx).symm
    have hyfirst := hsame _ (List.perm_cons_erase hy).symm
    rw [parseMmap, if_pos hxtype, if_pos hxlast] at hxfirst
    have hmarked : (parseMmap size_of_memory (y :: es.erase y) b).isPageFree j = false := by
      rw [isPageFree_parseMmap_eq_false hb hj, protected_cons_of_le hytype hylast]
      exact Or.inr (Or.inl ⟨hlo, hhi⟩)
    rw [hyfirst, ← hxfirst] at hmarked
    exact hfree hmarked
  · rintro (hin | hused) es' hperm
    · have hbreaks : ∀ e ∈ es, e.breaks size_of_memory = false := by
        intro e he
        rw [Bool.eq_false_iff, MmapEntry.breaks, ne_eq, Bool.and_eq_true, decide_eq_true_iff,
          beq_iff_eq]
        rintro ⟨htype, hlast⟩
        have hle := hin e he htype
        omega
      have h : b.SameOutside (parseMmap size_of_memory es b) := sameOutside_parseMmap hb
      have h' : b.SameOutside (parseMmap size_of_memory es' b) := sameOutside_parseMmap hb
      refine (h.symm.trans h').eq (fun j hj => ?_)
      rw [h.total_pages] at hj
      rw [Bool.eq_iff_iff, (isPageFree_parseMmap _ es' b hb).2 j hj,
        (isPageFree_parseMmap _ es b hb).2 j hj, protected_perm hbreaks hperm]
    · rw [parseMmap_of_used hb hused,
        parseMmap_of_used hb (fun e he => hused e (hperm.mem_iff.mp he))]

/-- A RESERVED entry behind the memory and one inside it. -/
def reservedPair : List MmapEntry := [⟨0x100000, 0x1000, 2⟩, ⟨0, 0x1000, 2⟩]

theorem parseMmap_perm_iff_reservedPair :
    (∀ es', es'.Perm reservedPair →
      parseMmap 8192 es' ⟨fun _ => 0, 8⟩ = parseMmap 8192 reservedPair ⟨fun _ => 0, 8⟩) ↔
    (∀ e ∈ reservedPair, e.type = MULTIBOOT_MEMORY_RESERVED → e.last ≤ 8192) ∨
      ∀ e ∈ reservedPair, e.type = MULTIBOOT_MEMORY_RESERVED → e.last ≤ 8192 →
        ∀ j < 8, e.addr.toNat / 4096 ≤ j → j < e.last / 4096 →
          Bitmap.isPageFree ⟨fun _ => 0, 8⟩ j = false :=
  parseMmap_perm_iff (by unfold Bitmap.Small; decide)

/-- The page of the second entry is marked only if the two are turned around. -/
theorem parseMmap_order :
    ¬ ∀ es', es'.Perm reservedPair →
      parseMmap 8192 es' ⟨fun _ => 0, 8⟩ = parseMmap 8192 reservedPair ⟨fun _ => 0, 8⟩ := by
  have hsmall : Bitmap.Small ⟨fun _ => 0, 8⟩ := by unfold Bitmap.Small; decide
  have hbreak : parseMmap 8192 reservedPair ⟨fun _ => 0, 8⟩ = ⟨fun _ => 0, 8⟩ := by
    rw [reservedPair, parseMmap, if_pos (by decide), if_pos (by decide)]
  have hmarked : (parseMmap 8192 reservedPair.reverse ⟨fun _ => 0, 8⟩).isPageFree 0 = false := by
    rw [isPageFree_parseMmap_eq_false hsmall (by decide : 0 < 8)]
    exact Or.inr ((protected_cons_of_le rfl (by decide)).mpr (Or.inl ⟨by decide, by decide⟩))
  intro hsame
  rw [hsame _ (List.reverse_perm _), hbreak] at hmarked
  exact absurd hmarked (by decide)

/-! ## What is read -/

/-- What `parse_mmap` reads: fields in front of the entries, entries, and the table `mmap_types`. -/
inductive MmapAccess where
  | header (offset bytes : ℕ)
  /-- The fields `addr`, `len` and `type` of entry `i`. -/
  | entry (i offset : ℕ)
  | typeName (index : ℕ)

/-- The accesses of the loop, from entry `i` on. Each entry is printed before it is looked at. -/
def loopAccesses (size_of_memory : ℕ) : List MmapEntry → ℕ → List MmapAccess
  | [], _ => []
  | current_entry :: rest, i =>
    .entry i (16 + 24 * i) :: .typeName current_entry.type.toNat ::
      if current_entry.type = MULTIBOOT_MEMORY_RESERVED then
        if size_of_memory < current_entry.last then []
        else loopAccesses size_of_memory rest (i + 1)
      else loopAccesses size_of_memory rest (i + 1)

/-- The accesses of `parse_mmap`, by their offsets in the tag. -/
def mmapAccesses (m : ByteMemory) (mmap_root size_of_memory : ℕ) : Option (List MmapAccess) :=
  (mmapEntries m mmap_root).map (fun es =>
    [.header 4 4, .header 8 4] ++ loopAccesses size_of_memory es 0)

/-- The access is inside the tag, of an entry where the format has it, and of a name of the six. -/
def MmapAccess.Safe (size entry_size : ℕ) : MmapAccess → Prop
  | .header offset bytes => offset + bytes ≤ size
  | .entry i offset => offset = 16 + i * entry_size ∧ offset + 20 ≤ size
  | .typeName index => index < 6

/-- All accesses of `parse_mmap` are safe. -/
def SafeTag (m : ByteMemory) (mmap_root size_of_memory : ℕ) : Prop :=
  ∃ accesses, mmapAccesses m mmap_root size_of_memory = some accesses ∧
    ∀ a ∈ accesses, a.Safe (mmapTagSize m mmap_root) (mmapEntrySize m mmap_root)

theorem loopAccesses_cons :
    loopAccesses size_of_memory (e :: es) i =
      .entry i (16 + 24 * i) :: .typeName e.type.toNat ::
        if e.breaks size_of_memory then [] else loopAccesses size_of_memory es (i + 1) := by
  have hbreaks : e.breaks size_of_memory = true ↔
      e.type = MULTIBOOT_MEMORY_RESERVED ∧ size_of_memory < e.last := by
    rw [MmapEntry.breaks, Bool.and_eq_true, decide_eq_true_iff, beq_iff_eq]
  rw [loopAccesses]
  congr 2
  by_cases htype : e.type = MULTIBOOT_MEMORY_RESERVED
  · simp [hbreaks, htype]
  · simp [hbreaks, htype]

/-- The entries that the loop gets to are those with none before them at which it breaks. -/
theorem mem_loopAccesses {a : MmapAccess} :
    a ∈ loopAccesses size_of_memory es i ↔
      ∃ k, ∃ hk : k < es.length, (∀ j (hj : j < k), es[j].breaks size_of_memory = false) ∧
        (a = .entry (i + k) (16 + 24 * (i + k)) ∨ a = .typeName es[k].type.toNat) := by
  induction es generalizing i with
  | nil =>
    constructor
    · intro h
      exact absurd h List.not_mem_nil
    · rintro ⟨k, hk, -⟩
      exact absurd hk (Nat.not_lt_zero k)
  | cons e es ih =>
    rw [loopAccesses_cons, List.mem_cons, List.mem_cons]
    constructor
    · rintro (rfl | rfl | h)
      · exact ⟨0, Nat.succ_pos _, fun j hj => absurd hj (Nat.not_lt_zero j), Or.inl rfl⟩
      · exact ⟨0, Nat.succ_pos _, fun j hj => absurd hj (Nat.not_lt_zero j), Or.inr rfl⟩
      · split_ifs at h with hbreaks
        · exact absurd h List.not_mem_nil
        · obtain ⟨k, hk, hnone, ha⟩ := ih.mp h
          refine ⟨k + 1, Nat.succ_lt_succ hk, fun j hj => ?_, ?_⟩
          · cases j with
            | zero => exact Bool.eq_false_iff.mpr hbreaks
            | succ j => exact hnone j (Nat.lt_of_succ_lt_succ hj)
          · have hsum : i + (k + 1) = i + 1 + k := by omega
            rw [hsum]
            exact ha
    · rintro ⟨k, hk, hnone, ha⟩
      cases k with
      | zero => exact ha.imp_right Or.inl
      | succ k =>
        have hfirst : e.breaks size_of_memory = false := hnone 0 (Nat.succ_pos k)
        have hsum : i + (k + 1) = i + 1 + k := by omega
        rw [hsum] at ha
        rw [hfirst, if_neg Bool.false_ne_true]
        exact Or.inr (Or.inr (ih.mpr ⟨k, Nat.lt_of_succ_lt_succ hk,
          fun j hj => hnone (j + 1) (Nat.succ_lt_succ hj), ha⟩))

/-- The tag of a loader with `n` entries: the loop counts them right. -/
theorem mmapNumberOfEntries_eq (hentry : 24 ≤ mmapEntrySize m mmap_root)
    (hsize : mmapTagSize m mmap_root = 16 + n * mmapEntrySize m mmap_root) :
    mmapNumberOfEntries m mmap_root = some n := by
  have hlt : mmapTagSize m mmap_root < 2^32 := load_lt
  have hcount : n ≤ n * mmapEntrySize m mmap_root := Nat.le_mul_of_pos_right n (by omega)
  have hsub : (mmapTagSize m mmap_root + 2^64 - 16) % 2^64 = n * mmapEntrySize m mmap_root := by
    omega
  rw [mmapNumberOfEntries, if_neg (by omega), hsub, Nat.mul_div_cancel n (by omega),
    Nat.mod_eq_of_lt (by omega)]

/-- Safety in terms of the entries that the code takes for the tag's. -/
theorem safeTag_iff_entries (hentry : 24 ≤ mmapEntrySize m mmap_root)
    (hsize : mmapTagSize m mmap_root = 16 + n * mmapEntrySize m mmap_root) :
    SafeTag m mmap_root size_of_memory ↔
      ∀ k < n, (∀ j < k, (mmapEntry m mmap_root j).breaks size_of_memory = false) →
        24 * k = k * mmapEntrySize m mmap_root ∧ (mmapEntry m mmap_root k).type.toNat < 6 := by
  have haccesses : mmapAccesses m mmap_root size_of_memory = some ([.header 4 4, .header 8 4] ++
      loopAccesses size_of_memory ((List.range n).map (mmapEntry m mmap_root)) 0) := by
    rw [mmapAccesses, mmapEntries, mmapNumberOfEntries_eq hentry hsize]
    rfl
  constructor
  · rintro ⟨accesses, hsome, hsafe⟩ k hk hnone
    obtain rfl := Option.some.inj (haccesses.symm.trans hsome)
    have hlen : k < ((List.range n).map (mmapEntry m mmap_root)).length := by simpa using hk
    have hmem : ∀ a : MmapAccess, (a = .entry (0 + k) (16 + 24 * (0 + k)) ∨
        a = .typeName ((List.range n).map (mmapEntry m mmap_root))[k].type.toNat) →
        a.Safe (mmapTagSize m mmap_root) (mmapEntrySize m mmap_root) := by
      intro a ha
      apply hsafe
      apply List.mem_append_right
      exact mem_loopAccesses.mpr ⟨k, hlen, fun j hj => by simpa using hnone j hj, ha⟩
    have hplace := (hmem _ (Or.inl rfl)).1
    have hname := hmem _ (Or.inr rfl)
    simp only [List.getElem_map, List.getElem_range] at hname
    rw [Nat.zero_add] at hplace
    exact ⟨Nat.add_left_cancel hplace, hname⟩
  · intro hall
    refine ⟨_, haccesses, fun a ha => ?_⟩
    rcases List.mem_append.mp ha with ha | ha
    · have hheader : a = .header 4 4 ∨ a = .header 8 4 := by simpa using ha
      rcases hheader with rfl | rfl
      · show 4 + 4 ≤ _
        omega
      · show 8 + 4 ≤ _
        omega
    · obtain ⟨k, hk, hnone, ha⟩ := mem_loopAccesses.mp ha
      have hk' : k < n := by simpa using hk
      obtain ⟨hplace, hname⟩ := hall k hk' (fun j hj => by simpa using hnone j hj)
      rcases ha with rfl | rfl
      · -- The entry ends inside the tag, as each has at least 24 bytes.
        have hend : (k + 1) * 24 ≤ n * mmapEntrySize m mmap_root := Nat.mul_le_mul hk' hentry
        rw [Nat.zero_add]
        constructor
        · rw [hplace]
        · omega
      · simpa [MmapAccess.Safe] using hname

/-- Where the loop gets no further than to the first entry, that is the one it is at. -/
theorem eq_zero_of_first (breaks : ℕ → Bool) {k : ℕ} (hfirst : n ≤ 1 ∨ breaks 0 = true)
    (hk : k < n) (hnone : ∀ j < k, breaks j = false) : k = 0 := by
  by_contra hpos
  have hbreaks := hnone 0 (Nat.pos_of_ne_zero hpos)
  rcases hfirst with hn | hfirst
  · omega
  · rw [hbreaks] at hfirst
    cases hfirst

/-- `parse_mmap` is safe on a tag of a loader if and only if the entries have 24 bytes, or only the
first one is read, and the types up to the entry at which the loop breaks are in the table. -/
theorem safeTag_iff (hentry : 24 ≤ mmapEntrySize m mmap_root)
    (hsize : mmapTagSize m mmap_root = 16 + n * mmapEntrySize m mmap_root) :
    SafeTag m mmap_root size_of_memory ↔
      (mmapEntrySize m mmap_root = 24 ∨ n ≤ 1 ∨
        (tagEntry m mmap_root 0).breaks size_of_memory = true) ∧
      ∀ k < n, (∀ j < k, (tagEntry m mmap_root j).breaks size_of_memory = false) →
        (tagEntry m mmap_root k).type.toNat < 6 := by
  have hzero : tagEntry m mmap_root 0 = mmapEntry m mmap_root 0 := by
    unfold tagEntry mmapEntry
    rw [Nat.mul_zero]
  rw [safeTag_iff_entries hentry hsize]
  by_cases h24 : mmapEntrySize m mmap_root = 24
  · -- The code's entries are the tag's.
    have hsame : ∀ k, tagEntry m mmap_root k = mmapEntry m mmap_root k := by
      intro k
      unfold tagEntry mmapEntry
      rw [h24]
    simp only [hsame, h24, true_or, true_and]
    constructor
    · intro h k hk hnone
      exact (h k hk hnone).2
    · intro h k hk hnone
      exact ⟨Nat.mul_comm _ _, h k hk hnone⟩
  · constructor
    · intro h
      have hfirst : n ≤ 1 ∨ (tagEntry m mmap_root 0).breaks size_of_memory = true := by
        by_contra hnot
        rw [not_or, Bool.not_eq_true, hzero] at hnot
        obtain ⟨hn, hbreaks⟩ := hnot
        -- The loop gets to the second entry, which is not where the code reads it.
        have hsecond := h 1 (by omega) (fun j hj => by
          obtain rfl := Nat.lt_one_iff.mp hj
          exact hbreaks)
        omega
      refine ⟨Or.inr hfirst, fun k hk hnone => ?_⟩
      obtain rfl := eq_zero_of_first (fun j => (tagEntry m mmap_root j).breaks size_of_memory)
        hfirst hk hnone
      rw [hzero]
      exact (h 0 hk (fun j hj => absurd hj (Nat.not_lt_zero j))).2
    · rintro ⟨hfirst, htypes⟩ k hk hnone
      have hfirst' := hfirst.resolve_left h24
      rw [hzero] at hfirst'
      obtain rfl := eq_zero_of_first (fun j => (mmapEntry m mmap_root j).breaks size_of_memory)
        hfirst' hk hnone
      rw [← hzero]
      exact ⟨by omega, htypes 0 hk (fun j hj => absurd hj (Nat.not_lt_zero j))⟩

/-- Two AVAILABLE pages in entries of 32 bytes. -/
def wideTag : ByteMemory := fun a =>
  [6, 0, 0, 0, 80, 0, 0, 0, 32, 0, 0, 0, 0, 0, 0, 0,
    0, 0, 0, 0, 0, 0, 0, 0, 0, 16, 0, 0, 0, 0, 0, 0, 1, 0, 0, 0, 0, 0, 0, 0,
    0, 0, 0, 0, 0, 0, 0, 0, 0, 16, 0, 0, 0, 0, 0, 0, 0, 16, 0, 0, 0, 0, 0, 0,
    1, 0, 0, 0].getD a 0

theorem safeTag_iff_wideTag :
    SafeTag wideTag 0 8192 ↔
      (mmapEntrySize wideTag 0 = 24 ∨ 2 ≤ 1 ∨ (tagEntry wideTag 0 0).breaks 8192 = true) ∧
      ∀ k < 2, (∀ j < k, (tagEntry wideTag 0 j).breaks 8192 = false) →
        (tagEntry wideTag 0 k).type.toNat < 6 :=
  safeTag_iff (by decide) (by decide)

/-- The second entry is read eight bytes before it begins. -/
theorem not_safeTag_wideTag : ¬ SafeTag wideTag 0 8192 := by
  have hcode : ∀ j < 1, (mmapEntry wideTag 0 j).breaks 8192 = false := by
    intro j hj
    obtain rfl := Nat.lt_one_iff.mp hj
    decide
  intro hsafe
  have hsecond := ((safeTag_iff_entries (n := 2) (by decide) (by decide)).mp hsafe 1 (by omega)
    hcode).1
  exact absurd hsecond (by decide)

end Potatos
