import Potatos.Lib.ByteMemory

/-!
# The kernel heap

`src/mem/kheap.c` on bytes. A `heap_node` is packed: eight bytes of size and one of status, nine in
all, in the same memory as the payloads behind them. `heap_root` holds where the chain of nodes
starts and `heap_head`, at which the walks stop. Pointers and sizes are 64-bit, and their sums wrap.

The mapping requests of `kmalloc` (its calls of `map_if_not_mapped`) do not touch the heap's bytes;
they are returned in order beside the pointer. The two loops may not end on a chain that a wrapped
size bends back, so they take a fuel and return `none` when it runs out. The console output is left
out.
-/

namespace Potatos

open Lib

/-- The sum of two 64-bit values, in 64 bits. -/
def addw (a b : ℕ) : ℕ := (a + b) % 2^64

/-- The difference of two 64-bit values, in 64 bits. -/
def subw (a b : ℕ) : ℕ := (a + 2^64 - b) % 2^64

theorem addw_of_lt {a b : ℕ} (h : a + b < 2^64) : addw a b = a + b := Nat.mod_eq_of_lt h

theorem subw_of_le {a b : ℕ} (h : b ≤ a) (ha : a < 2^64) : subw a b = a - b := by
  unfold subw
  omega

def HEAP_ALLOCATION_USED : BitVec 8 := 1

def HEAP_ALLOCATION_FREE : BitVec 8 := 0

/-- The memory, and the two fields of `heap_root`. -/
structure Heap where
  mem : ByteMemory
  heap_head : ℕ
  heap_start : ℕ

namespace Heap

variable (h : Heap)

/-- `node->size`. -/
def size (node : ℕ) : ℕ := load 8 h.mem node

/-- `node->status`. -/
def status (node : ℕ) : BitVec 8 := h.mem (node + 8)

/-- `node->size = v`. -/
def setSize (node v : ℕ) : Heap := { h with mem := store 8 h.mem node v }

/-- `node->status = v`. -/
def setStatus (node : ℕ) (v : BitVec 8) : Heap :=
  { h with mem := Function.update h.mem (node + 8) v }

/-- The address behind the payload of a node, as both walks compute it. -/
def nextAddress (node : ℕ) : ℕ := addw node (addw (h.size node) 9)

/-- `split`: `A` is the node itself, and `B` the one behind the first `size` bytes of payload. -/
def split (starting_address size leftover : ℕ) : Heap :=
  let splitting_address := addw (addw starting_address size) 9
  (((h.setSize starting_address size).setStatus starting_address HEAP_ALLOCATION_USED).setSize
    splitting_address leftover).setStatus splitting_address HEAP_ALLOCATION_FREE

/-- The addresses that `range_map` passes to `map_if_not_mapped`. -/
def rangeMap (start_address end_address : ℕ) : List ℕ :=
  let start_address := start_address / 4096 * 4096
  let end_address := end_address / 4096 * 4096
  (List.range ((end_address - start_address + 4095) / 4096)).map (fun i => start_address + i * 4096)

/-- What `kmalloc` leaves: the pointer it returns, the heap, and its mapping requests. -/
structure Allocation where
  ptr : ℕ
  heap : Heap
  maps : List ℕ

/-- The branch of `kmalloc` that takes a free node, splitting it where there is room. -/
def reuse (size current_node : ℕ) : Allocation :=
  let h := h.setStatus current_node HEAP_ALLOCATION_USED
  let size_we_need := addw size 9
  let size_of_gap := h.size current_node
  let leftover_size := subw size_of_gap size_we_need
  let return_address := addw current_node 9
  let h := if size_we_need < size_of_gap then h.split current_node size leftover_size else h
  ⟨return_address, h, return_address :: rangeMap current_node return_address⟩

/-- The end of `kmalloc`: a new node where the walk stopped, whose payload becomes `heap_head`. -/
def append (size current_node : ℕ) : Allocation :=
  let h := (h.setSize current_node size).setStatus current_node HEAP_ALLOCATION_USED
  let return_address := addw current_node 9
  ⟨return_address, { h with heap_head := return_address },
    return_address :: rangeMap current_node return_address⟩

/-- A free node that is large enough. -/
def fits (size node : ℕ) : Bool :=
  decide (size ≤ h.size node) && (h.status node == HEAP_ALLOCATION_FREE)

/-- The loop of `kmalloc` from `current_node` on. -/
def kmallocLoop (size : ℕ) : ℕ → ℕ → Option Allocation
  | 0, _ => none
  | fuel + 1, current_node =>
    if current_node < h.heap_head then
      if h.fits size current_node then some (h.reuse size current_node)
      else
        let next_address := h.nextAddress current_node
        (kmallocLoop size fuel next_address).map
          (fun r => { r with maps := next_address :: r.maps })
    else some (h.append size current_node)

/-- `kmalloc`, of a 32-bit size. -/
def kmalloc (fuel : ℕ) (size : BitVec 32) : Option Allocation :=
  h.kmallocLoop size.toNat fuel h.heap_start

/-- `kheap_merge`, with `NULL` as `0`. -/
def kheapMerge (current_node next previous : ℕ) : Heap :=
  let h :=
    if next ≠ 0 ∧ h.status next = HEAP_ALLOCATION_FREE then
      h.setSize current_node (addw (h.size current_node) (addw (h.size next) 9))
    else h
  if previous ≠ 0 ∧ h.status previous = HEAP_ALLOCATION_FREE then
    h.setSize previous (addw (h.size previous) (addw (h.size current_node) 9))
  else h

/-- The loop of `kfree` from `current_node` on; a node that is not found changes nothing. -/
def kfreeLoop (node : ℕ) : ℕ → ℕ → ℕ → Option Heap
  | 0, _, _ => none
  | fuel + 1, current_node, previous =>
    if current_node < h.heap_head then
      let next := h.nextAddress current_node
      if current_node = node ∧ h.status current_node = HEAP_ALLOCATION_USED then
        some ((h.setStatus current_node HEAP_ALLOCATION_FREE).kheapMerge current_node next previous)
      else kfreeLoop node fuel next current_node
    else some h

/-- `kfree`. -/
def kfree (fuel ptr : ℕ) : Option Heap := h.kfreeLoop (subw ptr 9) fuel h.heap_start 0

end Heap

/-- `init_kheap` on the memory that `vmm_allocate` returned at `heap`, all zero: the pointer
arithmetic on `heap_root` puts the first node nine `heap_root`s behind it. -/
def initKheap (heap : ℕ) : Heap where
  mem := fun _ => 0
  heap_head := addw heap (16 * 9)
  heap_start := addw heap (16 * 9)

end Potatos
