import Potatos.Mem.Kheap

/-!
# Regions of virtual memory

`src/mem/vmm.c` over the operations that it needs of the memory: a load and a store of eight bytes
at a virtual address, and one page of `vmm_allocate_area`. Each of them may fault, which is `none`.
A `vmm_region` is packed, with `next` at offset 0 and `size` at offset 8.

The walks over the list may not end when the list bends back, so they take a fuel. The flags of a
region are computed and not used, and are left out.
-/

namespace Potatos

open Lib

def PAGE_SIZE : ℕ := 4096

/-- `sizeof(vmm_region)`. -/
def sizeofVmmRegion : ℕ := 16

/-- `align_to_nearest_page`, in 64 bits. -/
def alignToNearestPage (value : ℕ) : ℕ := (value + PAGE_SIZE - 1) % 2^64 / PAGE_SIZE * PAGE_SIZE

/-- The size of the region for a request, its header included. -/
def regionSize (n : ℕ) : ℕ := alignToNearestPage (addw n sizeofVmmRegion)

/-- A region is a number of pages, also where the request wraps. -/
theorem regionSize_page (n : ℕ) : regionSize n % PAGE_SIZE = 0 := Nat.mul_mod_left ..

theorem regionSize_lt (n : ℕ) : regionSize n < 2^64 := by
  unfold regionSize alignToNearestPage PAGE_SIZE
  omega

theorem regionSize_ge {n : ℕ} (hpos : 0 < regionSize n) : PAGE_SIZE ≤ regionSize n := by
  have hpage := regionSize_page n
  unfold PAGE_SIZE at *
  omega

theorem regionSize_eq (hn : n + 16 + 4095 < 2^64) :
    regionSize n = (n + 16 + 4095) / 4096 * 4096 := by
  unfold regionSize alignToNearestPage sizeofVmmRegion PAGE_SIZE
  rw [addw_of_lt (by omega)]
  omega

/-- A request that does not wrap fits in its region. -/
theorem le_regionSize (hn : n + 16 + 4095 < 2^64) : n + 16 ≤ regionSize n := by
  rw [regionSize_eq hn]
  omega

/-- What `vmm.c` needs of the memory. -/
structure RegionMemory (σ : Type) where
  load : σ → ℕ → Option ℕ
  store : σ → ℕ → ℕ → Option σ
  /-- `allocate_physical_page`, and `map_page` of the address to it. -/
  page : σ → ℕ → Option σ

namespace RegionMemory

variable {σ : Type} (M : RegionMemory σ)

/-- `current->next`. -/
def next (s : σ) (current : ℕ) : Option ℕ := M.load s current

/-- `current->size`. -/
def size (s : σ) (current : ℕ) : Option ℕ := M.load s (current + 8)

/-- `current->next = v`. -/
def setNext (s : σ) (current v : ℕ) : Option σ := M.store s current v

/-- `current->size = v`. -/
def setSize (s : σ) (current v : ℕ) : Option σ := M.store s (current + 8) v

/-- `vmm_allocate_area`. -/
def vmmAllocateArea (s : σ) (new_virtual_address size : ℕ) : Option σ :=
  (List.range ((size + PAGE_SIZE - 1) / PAGE_SIZE)).foldlM
    (fun s i => M.page s (addw new_virtual_address (i * PAGE_SIZE))) s

/-- The branch of `vmm_allocate` for a gap behind `prev`. The pointer is a `vmm_region *` when
`sizeof(vmm_region)` is added to it. -/
def insertInGap (s : σ) (size prev : ℕ) : Option (ℕ × σ) := do
  let prev_size ← M.size s prev
  let current := addw prev prev_size
  let s ← M.setSize s current size
  let next ← M.next s prev
  let s ← M.setNext s current next
  let s ← M.setNext s prev current
  let s ← M.vmmAllocateArea s current size
  let s ← M.setSize s current size
  let s ← M.setNext s prev current
  some (addw current (sizeofVmmRegion * sizeofVmmRegion), s)

/-- The end of `vmm_allocate`: a new region behind the last one, `prev`. -/
def appendRegion (s : σ) (size prev : ℕ) : Option (ℕ × σ) := do
  let prev_size ← M.size s prev
  let new_virtual_address := addw prev prev_size
  let s ← M.vmmAllocateArea s new_virtual_address size
  let s ← M.setNext s new_virtual_address 0
  let s ← M.setSize s new_virtual_address size
  let s ← M.setNext s prev new_virtual_address
  some (addw new_virtual_address sizeofVmmRegion, s)

/-- The loop of `vmm_allocate` from `current` on, behind `prev`. -/
def allocateLoop (size : ℕ) : ℕ → σ → ℕ → ℕ → Option (ℕ × σ)
  | 0, _, _, _ => none
  | fuel + 1, s, current, prev =>
    if current = 0 then M.appendRegion s size prev
    else if prev = 0 then do
      let next ← M.next s current
      allocateLoop size fuel s next current
    else do
      let prev_size ← M.size s prev
      let gap_area := subw current (addw prev prev_size)
      if gap_area ≥ size then M.insertInGap s size prev
      else do
        let next ← M.next s current
        allocateLoop size fuel s next current

/-- The start of `vmm_allocate`: a root whose size reads as zero gets a page. -/
def fixRoot (s : σ) (vm_root : ℕ) : Option σ := do
  let size ← M.size s vm_root
  if size = 0 then M.setSize s vm_root PAGE_SIZE else some s

/-- `vmm_allocate`: the pointer, and the memory. -/
def vmmAllocate (fuel : ℕ) (s : σ) (vm_root size : ℕ) : Option (ℕ × σ) := do
  let size := alignToNearestPage (addw size sizeofVmmRegion)
  let s ← M.fixRoot s vm_root
  M.allocateLoop size fuel s vm_root 0

/-- The loop of `vmm_free` from `current` on, behind `prev`. `release` is `set_page_free` of the
frame of the address, and `map_page` of the address to nothing. -/
def freeLoop (release : σ → ℕ → Option σ) (target_address : ℕ) : ℕ → σ → ℕ → ℕ → Option σ
  | 0, _, _, _ => none
  | fuel + 1, s, current, prev =>
    if current = 0 then some s
    else if current = target_address then do
      let next ← M.next s current
      let s ← M.setNext s prev next
      release s target_address
    else do
      let next ← M.next s current
      freeLoop release target_address fuel s next current

/-- `vmm_free`. -/
def vmmFree (release : σ → ℕ → Option σ) (fuel : ℕ) (s : σ) (vm_root address : ℕ) : Option σ :=
  M.freeLoop release (subw address sizeofVmmRegion) fuel s vm_root 0

end RegionMemory

end Potatos
