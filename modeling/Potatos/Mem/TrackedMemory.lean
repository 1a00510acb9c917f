import Potatos.Lib.Faulting
import Potatos.Mem.PhysicalAddress

/-!
# What the kernel has written

The memory of the kernel with a record of its run: which bytes the code has stored since the start,
by virtual address, and whether it has dereferenced a pointer that it had read from bytes that it
had not stored. A page that is mapped once stays where it is, so the address tells the byte.

The loads and stores of `kheap.c` and `scheluder.c` are of bytes, as their structures are packed or
lie behind packed ones, and go through the page tables. `vmm.c` is as before: `trackedRegions` does
what `kernelMemory` does and keeps the record (`vmmAllocate_erase`).
-/

namespace Potatos

open Lib Faulting

/-- The memory and the allocator, with the record of the run. -/
structure Tracked where
  paged : Paged PhysicalPages
  written : ℕ → Bool
  stray : Bool

namespace Tracked

variable (s : Tracked)

/-- The `n` bytes from `a` on have been stored. -/
def wrote (a n : ℕ) : Bool := (List.range n).all (fun i => s.written (addw a i))

/-- The `n` bytes from `a` on are stored. -/
def mark (a n : ℕ) : Tracked :=
  { s with written := fun x => (decide (a ≤ x) && decide (x < a + n)) || s.written x }

/-- The pointer in the eight bytes from `cell` on is dereferenced. -/
def follow (cell : ℕ) : Tracked := { s with stray := s.stray || !s.wrote cell 8 }

end Tracked

/-! ## Bytes -/

/-- The byte `k` of a word. -/
def wordByte (w k : ℕ) : ℕ := w / 256^k % 256

/-- The word with the low byte of `v` in the place of its byte `k`. -/
def setWordByte (w k v : ℕ) : ℕ := w / 256^(k + 1) * 256^(k + 1) + v % 256 * 256^k + w % 256^k

namespace Tracked

section Code

variable (p4_table : ℕ)

/-- The byte at an address. -/
def loadByte (a : ℕ) : Faulting Tracked ℕ := step fun s =>
  (s.paged.mem.walk p4_table a).map (fun f => (wordByte (s.paged.mem f (field a 3)) (a % 8), s))

/-- Write the byte at an address. -/
def storeByte (a v : ℕ) : Faulting Tracked Unit := step fun s =>
  (s.paged.mem.walk p4_table a).map fun f =>
    let word := setWordByte (s.paged.mem f (field a 3)) (a % 8) v
    ((), { s with paged := { s.paged with mem := s.paged.mem.set f (field a 3) word } }.mark a 1)

/-- The number in the `n` bytes from `a` on, the low byte first. -/
def loadBytes : ℕ → ℕ → Faulting Tracked ℕ
  | 0, _ => pure 0
  | n + 1, a => do
    let low ← loadByte p4_table a
    let rest ← loadBytes n (addw a 1)
    pure (low + 256 * rest)

/-- Write the low `n` bytes of `v` from `a` on, the low byte first. -/
def storeBytes : ℕ → ℕ → ℕ → Faulting Tracked Unit
  | 0, _, _ => pure ()
  | n + 1, a, v => do
    storeByte p4_table a v
    storeBytes n (addw a 1) (v / 256)

/-- The pointer at `cell`, for an access through it. -/
def followPointer (cell : ℕ) : Faulting Tracked ℕ := do
  step fun s => some ((), s.follow cell)
  loadBytes p4_table 8 cell

/-- `map_if_not_mapped`. -/
def mapIfNotMapped (address : ℕ) : Faulting Tracked Unit := step fun s => do
  let mapped ← isVirtualMemoryMapped p4_table s.paged.mem address
  if mapped = PT_NOT_MAPPED then
    let paged ← mapFreshPage p4_table s.paged address
    some ((), { s with paged := paged })
  else some ((), s)

/-! ## The regions -/

/-- The memory of `vmm.c` with the record. -/
def trackedRegions : RegionMemory Tracked where
  load s a := (kernelMemory p4_table).load s.paged a
  store s a v := ((kernelMemory p4_table).store s.paged a v).map
    (fun paged => { s with paged := paged }.mark a 8)
  page s a := ((kernelMemory p4_table).page s.paged a).map (fun paged => { s with paged := paged })

/-- Where the links are that the loop of `vmm_allocate` follows: `current`, which it has read at
`prev`, is dereferenced when it goes on behind it. -/
def linksFollowed {σ : Type} (M : RegionMemory σ) (size : ℕ) : ℕ → σ → ℕ → ℕ → List ℕ
  | 0, _, _, _ => []
  | fuel + 1, s, current, prev =>
    if current = 0 then []
    else if prev = 0 then
      (M.next s current).elim [] (fun next => linksFollowed M size fuel s next current)
    else
      (M.size s prev).elim [] fun prev_size =>
        if subw current (addw prev prev_size) ≥ size then []
        else
          prev :: (M.next s current).elim []
            (fun next => linksFollowed M size fuel s next current)

/-- `vmm_allocate`. -/
def vmmAllocate (fuel vm_root size : ℕ) : Faulting Tracked ℕ := do
  step fun s =>
    let links := ((trackedRegions p4_table).fixRoot s vm_root).elim []
      (fun t => linksFollowed (trackedRegions p4_table) (regionSize size) fuel t vm_root 0)
    some ((), links.foldl follow s)
  step fun s => (trackedRegions p4_table).vmmAllocate fuel s vm_root size

end Code

end Tracked

/-! ## The record changes nothing

Where the operations of two memories do the same, up to a map of the states, `vmm_allocate` does. -/

namespace RegionMemory

variable {σ τ : Type} {M : RegionMemory σ} {N : RegionMemory τ} {π : σ → τ}

/-- The operations of `N` are those of `M`, seen through `π`. -/
structure Erases (M : RegionMemory σ) (N : RegionMemory τ) (π : σ → τ) : Prop where
  load : ∀ s a, N.load (π s) a = M.load s a
  store : ∀ s a v, N.store (π s) a v = (M.store s a v).map π
  page : ∀ s a, N.page (π s) a = (M.page s a).map π

theorem Erases.vmmAllocateArea (h : Erases M N π) (s : σ) (a n : ℕ) :
    N.vmmAllocateArea (π s) a n = (M.vmmAllocateArea s a n).map π := by
  unfold RegionMemory.vmmAllocateArea
  generalize List.range ((n + PAGE_SIZE - 1) / PAGE_SIZE) = is
  induction is generalizing s with
  | nil => rfl
  | cons i is ih =>
    rw [List.foldlM_cons, List.foldlM_cons, h.page]
    cases M.page s (addw a (i * PAGE_SIZE)) with
    | none => rfl
    | some t => exact ih t

theorem Erases.appendRegion (h : Erases M N π) (s : σ) (size prev : ℕ) :
    N.appendRegion (π s) size prev = (M.appendRegion s size prev).map (Prod.map id π) := by
  simp only [RegionMemory.appendRegion, RegionMemory.size, setNext, setSize, h.load, h.store,
    h.vmmAllocateArea, Option.bind_eq_bind, Option.bind_map, Option.map_bind, Function.comp_def,
    Option.map_some, Prod.map, id]

theorem Erases.insertInGap (h : Erases M N π) (s : σ) (size prev : ℕ) :
    N.insertInGap (π s) size prev = (M.insertInGap s size prev).map (Prod.map id π) := by
  simp only [RegionMemory.insertInGap, RegionMemory.size, next, setNext, setSize, h.load, h.store,
    h.vmmAllocateArea, Option.bind_eq_bind, Option.bind_map, Option.map_bind, Function.comp_def,
    Option.map_some, Prod.map, id]

theorem Erases.allocateLoop (h : Erases M N π) {size fuel : ℕ} (s : σ) (current prev : ℕ) :
    N.allocateLoop size fuel (π s) current prev =
      (M.allocateLoop size fuel s current prev).map (Prod.map id π) := by
  induction fuel generalizing current prev with
  | zero => rfl
  | succ fuel ih =>
    -- both loops take the same branch, as they read the same
    rw [RegionMemory.allocateLoop, RegionMemory.allocateLoop]
    split
    · exact h.appendRegion s size prev
    · split
      · simp only [next, h.load, ih, Option.bind_eq_bind, Option.map_bind, Function.comp_def]
      · simp only [next, RegionMemory.size, h.load, ih, Option.bind_eq_bind, Option.map_bind,
          Function.comp_def]
        congr 1
        funext prev_size
        split
        · exact h.insertInGap s size prev
        · rw [Option.map_bind]
          rfl

theorem Erases.vmmAllocate (h : Erases M N π) (fuel : ℕ) (s : σ) (vm_root n : ℕ) :
    N.vmmAllocate fuel (π s) vm_root n =
      (M.vmmAllocate fuel s vm_root n).map (Prod.map id π) := by
  have hfix : N.fixRoot (π s) vm_root = (M.fixRoot s vm_root).map π := by
    simp only [fixRoot, RegionMemory.size, setSize, h.load, h.store, Option.bind_eq_bind,
      Option.map_bind, Function.comp_def]
    congr 1
    funext size
    split
    · rfl
    · rfl
  simp only [RegionMemory.vmmAllocate, hfix, h.allocateLoop, Option.bind_eq_bind, Option.bind_map,
    Option.map_bind, Function.comp_def]

end RegionMemory

namespace Tracked

variable {p4_table : ℕ}

theorem erases : RegionMemory.Erases (trackedRegions p4_table) (kernelMemory p4_table) paged := by
  refine ⟨fun s a => rfl, fun s a v => ?_, fun s a => ?_⟩
  · rw [trackedRegions, Option.map_map]
    exact Option.map_id'.symm
  · rw [trackedRegions, Option.map_map]
    exact Option.map_id'.symm

/-- Without its record, the call does what `vmm_allocate` does on the kernel's memory. -/
theorem vmmAllocate_erase (fuel : ℕ) (s : Tracked) (vm_root size : ℕ) :
    (kernelMemory p4_table).vmmAllocate fuel s.paged vm_root size =
      ((trackedRegions p4_table).vmmAllocate fuel s vm_root size).map (Prod.map id paged) :=
  erases.vmmAllocate fuel s vm_root size

/-! ## A flag that stays up -/

end Tracked

end Potatos
