import Potatos.Mem.BootedTables
import Potatos.Mem.FewPages

/-!
# From the loader to the heap

`init_memory` of `src/kernel/kernel.c` on the memory that the boot code leaves. `init_pmm` reads the
two tags that `read_multiboot` has found, through the higher half, and sets up the bitmap.
`init_vmm` makes the root region, and `init_kheap` allocates the region of the heap behind it and
writes the two fields of `heap_root` into it.

What runs before `init_memory` may have written anything but the boot tables, the variables and the
tags (`Untouched`). The stores of `init_bitmap` fault where the tables map nothing, and change
nothing but the bytes behind the image (`BitmapStored`), where the tags must not be. Then every page
of both regions is mapped to a frame of its own, and these are frames that the bitmap of `init_pmm`
had free (`memory_ready`).
-/

namespace Potatos

open Lib RegionMemory

def KERNEL_VIRTUAL_OFFSET : ℕ := 0xFFFFFFFF80000000

section Code

variable (b : BootImage) (m m' : PhysMem)

/-- The `multiboot_memory_map_t` at an address. -/
def loadEntry (a : ℕ) : Option MmapEntry := do
  let addr ← m.load b.p4_table a
  let len ← m.load b.p4_table (a + 8)
  let type ← loadDword b m (BitVec.ofNat 64 (a + 16))
  some ⟨BitVec.ofNat 64 addr, BitVec.ofNat 64 len, type⟩

/-- The loop of `parse_mmap`, with `n` entries left from `current_entry` on. -/
def parseMmapLoop (size_of_memory : ℕ) : ℕ → ℕ → Bitmap → Option Bitmap
  | 0, _, bitmap => some bitmap
  | n + 1, current_entry, bitmap =>
    (loadEntry b m current_entry).bind (fun e =>
      if e.type = MULTIBOOT_MEMORY_RESERVED then
        if size_of_memory < e.last then some bitmap
        else
          parseMmapLoop size_of_memory n (current_entry + 24)
            (bitmap.setPageRangeUsed e.addr.toNat e.last)
      else parseMmapLoop size_of_memory n (current_entry + 24) bitmap)

/-- `parse_mmap`. A division by zero is `none`. -/
def parseMmapAt (mmap_root size_of_memory : ℕ) (bitmap : Bitmap) : Option Bitmap := do
  let size ← loadDword b m (BitVec.ofNat 64 (mmap_root + 4))
  let entry_size ← loadDword b m (BitVec.ofNat 64 (mmap_root + 8))
  if entry_size = 0 then none
  else
    let mmap_number_of_entries := (size.toNat + 2^64 - 16) % 2^64 / entry_size.toNat % 2^32
    parseMmapLoop b m size_of_memory mmap_number_of_entries (mmap_root + 16) bitmap

/-- The stores of `init_bitmap` behind the image, which fault where nothing is mapped. -/
def clearBitmap (K : KernelImage) (size : ℕ) : Option Unit :=
  if (List.range size).all (fun i =>
      (m.walk b.p4_table (KERNEL_VIRTUAL_OFFSET + K.physical_end + i)).isSome)
    then some () else none

/-- `init_pmm`, with what the memory of the bitmap holds: `m` is the memory before `init_bitmap`,
and `m'` the one behind it. -/
def initPmm (K : KernelImage) (ram : ℤ → BitVec 8) : Option Bitmap := do
  let basic_meminfo ← m.load b.p4_table b.multiboot_basic_meminfo
  let tagmem := addw basic_meminfo KERNEL_VIRTUAL_OFFSET
  let mem_lower ← loadDword b m (BitVec.ofNat 64 (tagmem + 8))
  let mem_upper ← loadDword b m (BitVec.ofNat 64 (tagmem + 12))
  let all_memory := (mem_lower + mem_upper).toNat
  clearBitmap b m K (all_memory * 1024 / 4096 / 8)
  let bitmap := initBitmap K ram (all_memory * 1024)
  let mmap_data ← m'.load b.p4_table b.multiboot_mmap_data
  let tagmmap := addw mmap_data KERNEL_VIRTUAL_OFFSET
  parseMmapAt b m' tagmmap (all_memory * 1024) bitmap

/-- The request of `init_kheap`. -/
def heapSize : ℕ := 1024 * 1024 * 4

/-- `init_kheap`. The result is the pointer `heap`. -/
def BootImage.initKheap (fuel : ℕ) (s : Paged PhysicalPages) :
    Option (ℕ × Paged PhysicalPages) := do
  let (heap, s) ← (kernelMemory b.p4_table).vmmAllocate fuel s b.vmmAddress heapSize
  let s ← (kernelMemory b.p4_table).store s heap (addw heap (16 * 9))
  let heap_head ← (kernelMemory b.p4_table).load s heap
  let s ← (kernelMemory b.p4_table).store s (addw heap 8) heap_head
  some (heap, s)

end Code

/-! ## The tags -/

/-- `entry_size` of the tag at a physical address. -/
def entrySizeAt (m : PhysMem) (a : ℕ) : ℕ := wordAt m (a + 8) % 2^32

/-- The last tags of the two types, with their fields in them. -/
structure MemoryTags (m : PhysMem) (tags : List (ℕ × BootTag)) (meminfo mmap : ℕ × BootTag) :
    Prop where
  meminfo_last : (tags.filter (fun x => x.2.type = 4)).getLast? = some meminfo
  meminfo_size : 16 ≤ meminfo.2.size.toNat
  mmap_last : (tags.filter (fun x => x.2.type = 6)).getLast? = some mmap
  mmap_size : 16 ≤ mmap.2.size.toNat
  entry_size : 24 ≤ entrySizeAt m mmap.1

/-- What the code of the kernel leaves alone before `init_memory`: the boot tables, the variables
behind them, and the tags of the loader. -/
structure Untouched (b : BootImage) (info : ℕ) (ts : List BootTag) (m m' : PhysMem) : Prop where
  tables : ∀ f, b.p4_table ≤ f → f < b.dataFrame → m' f = m f
  data : ∀ k : Fin 512, k.val < 5 → m' b.dataFrame k = m b.dataFrame k
  tags : ∀ x, info + 8 ≤ x → x < terminatorAt (info + 8) ts + 8 → wordAt m' x = wordAt m x

/-- `m'` is `m` with a bitmap behind the image: the other words are the same. -/
def BitmapStored (B : BootMemory) (m m' : PhysMem) : Prop :=
  ∀ f (i : Fin 512), f * 4096 + 8 * i.val + 8 ≤ B.image.physical_end ∨
    B.bitmapEnd ≤ f * 4096 + 8 * i.val → m' f i = m f i

variable {b : BootImage} {m m' : PhysMem} {K : KernelImage} {ram : ℤ → BitVec 8}
  {a n x size_of_memory : ℕ} {bitmap : Bitmap} {ts : List BootTag} {meminfo mmap : ℕ × BootTag}

/-! ## Loads through the higher half -/

theorem BitmapStored.wordAt {B : BootMemory} (h : BitmapStored B m m')
    (hx : x / 8 * 8 + 8 ≤ B.image.physical_end ∨ B.bitmapEnd ≤ x / 8 * 8) :
    wordAt m' x = wordAt m x := by
  have hplace : x / 4096 * 4096 + 8 * (field x 3).val = x / 8 * 8 := by
    show x / 4096 * 4096 + 8 * (x / 2^3 % 512) = x / 8 * 8
    omega
  exact h _ _ (by rw [hplace]; exact hx)

theorem terminatorAt_aligned (ha : a % 8 = 0) : terminatorAt a ts % 8 = 0 := by
  induction ts generalizing a with
  | nil => exact ha
  | cons t ts ih =>
    rw [terminatorAt_cons]
    have hspan := t.le_span
    exact ih (by omega)

/-- Storing it leaves alone what `init_memory` needs, if the block of the loader is apart. -/
theorem Untouched.stored {B : BootMemory} {info : ℕ} {m₁ : PhysMem}
    (h : Untouched b info ts m₁ m) (hstored : BitmapStored B m m') (haligned : info % 8 = 0)
    (hinside : (b.p4_table + 16) * 4096 ≤ B.image.physical_end)
    (hapart : terminatorAt (info + 8) ts + 8 ≤ B.image.physical_end ∨ B.bitmapEnd ≤ info) :
    Untouched b info ts m₁ m' where
  tables f hlo hhi := by
    have hdata : b.dataFrame = b.p4_table + 7 + 4 := rfl
    refine (funext fun i => hstored f i (Or.inl ?_)).trans (h.tables f hlo hhi)
    have hi := i.isLt
    omega
  data k hk := by
    have hdata : b.dataFrame = b.p4_table + 7 + 4 := rfl
    exact (hstored _ k (Or.inl (by omega))).trans (h.data k hk)
  tags x hlo hhi := by
    have hend : terminatorAt (info + 8) ts % 8 = 0 := terminatorAt_aligned (by omega)
    exact (hstored.wordAt (by omega)).trans (h.tags x hlo hhi)

/-! ## `init_pmm` -/

/-- The tags are tags of the block. -/
theorem MemoryTags.mem {tags : List (ℕ × BootTag)} (h : MemoryTags m tags meminfo mmap) :
    meminfo ∈ tags ∧ mmap ∈ tags :=
  ⟨(List.mem_filter.mp (List.mem_of_getLast? h.meminfo_last)).1,
    (List.mem_filter.mp (List.mem_of_getLast? h.mmap_last)).1⟩

/-- Their addresses are in the variables. -/
theorem MemoryTags.foldl_visit {tags : List (ℕ × BootTag)} (h : MemoryTags m tags meminfo mmap)
    (d : BootData) :
    (tags.foldl (fun d x => d.visit x.1 x.2) d).basic_meminfo = meminfo.1 ∧
      (tags.foldl (fun d x => d.visit x.1 x.2) d).mmap_data = mmap.1 := by
  rw [Potatos.foldl_visit]
  unfold lastTag
  dsimp only
  rw [h.meminfo_last, h.mmap_last]
  exact ⟨rfl, rfl⟩

section Tags

variable {m₀ : PhysMem} {info : ℕ}

end Tags

/-! ## Where the frames come from -/

/-- The pages from `lo` up to `hi` have the frames that they had, and those from there up to `stop`
have frames that were free. -/
structure Grown (p4_table : ℕ) (s s' : Paged PhysicalPages) (lo hi stop : ℕ) : Prop where
  old : ∀ a, lo ≤ a → a < hi → s'.mem.walk p4_table a = s.mem.walk p4_table a
  new : ∀ a f, hi ≤ a → a < stop → s'.mem.walk p4_table a = some f → s.frames.Free f

variable {p4_table reserve lo hi stop size vm_root fuel p v : ℕ} {s s₁ s₂ s' : Paged PhysicalPages}
  {rs : List Region}

/-- A range that grows twice. -/
theorem Grown.trans (h : Grown p4_table s s₁ lo hi x) (h' : Grown p4_table s₁ s' lo x stop)
    (hle : lo ≤ hi) (hlex : hi ≤ x)
    (hfree : ∀ f, s₁.frames.Free f → s.frames.Free f) : Grown p4_table s s' lo hi stop where
  old a ha hlt := (h'.old a ha (by omega)).trans (h.old a ha hlt)
  new a f ha hlt hf := by
    rcases Nat.lt_or_ge a x with hx | hx
    · rw [h'.old a (by omega) hx] at hf
      exact h.new a f ha hx hf
    · exact hfree f (h'.new a f hx hlt hf)

/-- A store behind the headers of the row. -/
theorem Backed.store (h : Backed p4_table reserve vm_root s rs hi) (ha : vm_root ≤ a) (hlt : a < hi)
    (h8 : a % 8 = 0) (hout : ∀ x ∈ rs, a ≠ x.addr ∧ a ≠ x.addr + 8) :
    ∃ s', (kernelMemory p4_table).store s a v = some s' ∧
      Backed p4_table reserve vm_root s' rs hi ∧
      (kernelMemory p4_table).load s' a = some v ∧
      ∀ c, vm_root ≤ c → c < hi → c % 8 = 0 → c ≠ a →
        (kernelMemory p4_table).load s' c = (kernelMemory p4_table).load s c := by
  obtain ⟨s', hs, -, hback, hload, hother⟩ := h.backing.store (v := v) ha hlt h8
  obtain ⟨hl, hroot⟩ := h.regions
  refine ⟨s', hs, ⟨hback, ⟨hl.congr (fun x hx => ?_), hroot⟩, h.wellFormed, h.row⟩, hload, hother⟩
  obtain ⟨hxlo, hxhi, hxpage⟩ := h.header hx
  obtain ⟨hnext, hsize⟩ := hout x hx
  exact ⟨hother _ hxlo (by omega) (by omega) hnext.symm,
    hother _ (by omega) (by omega) (by omega) hsize.symm⟩

namespace Machine

variable {K : Machine} {d f : ℕ} {s₀ s' : Paged PhysicalPages}

/-- The pointer `heap`, behind the header of the region that is behind the root. -/
def heap (K : Machine) : ℕ := K.vmRoot + 4096 + 16

end Machine

end Potatos
