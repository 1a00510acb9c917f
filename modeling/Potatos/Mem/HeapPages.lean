import Potatos.Mem.KheapRuns
import Potatos.Mem.PhysicalAddress

/-!
# The pages of the heap

`kmalloc` and `kfree` with the pages that are mapped. A byte of a header that is read or written on
a page that is not mapped is a fault, and the call is `none`. `map_if_not_mapped` adds the page of
an address, as physical memory does not run out here.

Apart from the pages that were mapped before, `kmalloc` maps the page of the first byte of the node
and the page of the first byte of the payload, whatever the size is, and it maps them after it has
written the header. So a call is right if and only if the other pages that it hands out, and the
ones of a header at a new place, are mapped already (`maps_iff_provided`).
-/

namespace Potatos

open Lib

/-- The heap, and the pages that are mapped, by number. -/
structure PagedHeap where
  heap : Heap
  mapped : ℕ → Bool

namespace PagedHeap

section Code

variable (s : PagedHeap)

/-- The byte at an address is mapped. -/
def Mapped (x : ℕ) : Prop := s.mapped (x / 4096) = true

/-- The `n` bytes from `a` on are mapped. -/
def covers (a n : ℕ) : Bool := (List.range n).all (fun i => s.mapped ((a + i) / 4096))

/-- An access to the `n` bytes from `a` on. -/
def access {α : Type} (a n : ℕ) (v : α) : Option α := if s.covers a n then some v else none

/-- `node->size`. -/
def size (node : ℕ) : Option ℕ := s.access node 8 (s.heap.size node)

/-- `node->status`. -/
def status (node : ℕ) : Option (BitVec 8) := s.access (node + 8) 1 (s.heap.status node)

/-- `node->size = v`. -/
def setSize (node v : ℕ) : Option PagedHeap :=
  s.access node 8 { s with heap := s.heap.setSize node v }

/-- `node->status = v`. -/
def setStatus (node : ℕ) (v : BitVec 8) : Option PagedHeap :=
  s.access (node + 8) 1 { s with heap := s.heap.setStatus node v }

/-- `map_if_not_mapped`. -/
def mapIfNotMapped (address : ℕ) : PagedHeap :=
  if s.mapped (address / 4096) then s
  else { s with mapped := Function.update s.mapped (address / 4096) true }

/-- `range_map`. -/
def rangeMap (start_address end_address : ℕ) : PagedHeap :=
  (Heap.rangeMap start_address end_address).foldl mapIfNotMapped s

/-- `split`. -/
def split (starting_address size leftover : ℕ) : Option PagedHeap := do
  let splitting_address := addw (addw starting_address size) 9
  let s ← s.setSize starting_address size
  let s ← s.setStatus starting_address HEAP_ALLOCATION_USED
  let s ← s.setSize splitting_address leftover
  s.setStatus splitting_address HEAP_ALLOCATION_FREE

/-- The end of both branches of `kmalloc`: the mapping requests, and the pointer it returns. -/
def handOut (current_node : ℕ) : ℕ × PagedHeap :=
  let return_address := addw current_node 9
  (return_address, (s.mapIfNotMapped return_address).rangeMap current_node return_address)

/-- The branch of `kmalloc` that takes a free node. -/
def reuse (size current_node : ℕ) : Option (ℕ × PagedHeap) := do
  let s ← s.setStatus current_node HEAP_ALLOCATION_USED
  let size_we_need := addw size 9
  let size_of_gap ← s.size current_node
  let leftover_size := subw size_of_gap size_we_need
  let s ← if size_we_need < size_of_gap then s.split current_node size leftover_size else some s
  some (s.handOut current_node)

/-- The end of `kmalloc`. -/
def append (size current_node : ℕ) : Option (ℕ × PagedHeap) := do
  let s ← s.setSize current_node size
  let s ← s.setStatus current_node HEAP_ALLOCATION_USED
  let s := { s with heap := { s.heap with heap_head := addw current_node 9 } }
  some (s.handOut current_node)

/-- A free node that is large enough; the status of a smaller one is not read. -/
def fits (size node : ℕ) : Option Bool := do
  let node_size ← s.size node
  if size ≤ node_size then
    let status ← s.status node
    some (status == HEAP_ALLOCATION_FREE)
  else some false

/-- The address behind the payload of a node. -/
def nextAddress (node : ℕ) : Option ℕ := do
  let node_size ← s.size node
  some (addw node (addw node_size 9))

end Code

/-- The loop of `kmalloc` from `current_node` on. -/
def kmallocLoop (size : ℕ) : ℕ → PagedHeap → ℕ → Option (ℕ × PagedHeap)
  | 0, _, _ => none
  | fuel + 1, s, current_node =>
    if current_node < s.heap.heap_head then do
      let room ← s.fits size current_node
      if room then s.reuse size current_node
      else
        let next_address ← s.nextAddress current_node
        kmallocLoop size fuel (s.mapIfNotMapped next_address) next_address
    else s.append size current_node

/-- `kmalloc`. -/
def kmalloc (s : PagedHeap) (fuel : ℕ) (size : BitVec 32) : Option (ℕ × PagedHeap) :=
  kmallocLoop size.toNat fuel s s.heap.heap_start

/-- One half of `kheap_merge`: `other` is the neighbour that is read, and `first` and `second` are
the nodes that are joined. -/
def join (s : PagedHeap) (other first second : ℕ) : Option PagedHeap :=
  if other ≠ 0 then do
    let status ← s.status other
    if status = HEAP_ALLOCATION_FREE then
      let first_size ← s.size first
      let second_size ← s.size second
      s.setSize first (addw first_size (addw second_size 9))
    else some s
  else some s

/-- `kheap_merge`. -/
def kheapMerge (s : PagedHeap) (current_node next previous : ℕ) : Option PagedHeap := do
  let s ← s.join next current_node next
  s.join previous previous current_node

/-- The loop of `kfree` from `current_node` on. -/
def kfreeLoop (node : ℕ) : ℕ → PagedHeap → ℕ → ℕ → Option PagedHeap
  | 0, _, _, _ => none
  | fuel + 1, s, current_node, previous =>
    if current_node < s.heap.heap_head then do
      let next ← s.nextAddress current_node
      if current_node = node then
        let status ← s.status current_node
        if status = HEAP_ALLOCATION_USED then
          let s ← s.setStatus current_node HEAP_ALLOCATION_FREE
          s.kheapMerge current_node next previous
        else kfreeLoop node fuel s next current_node
      else kfreeLoop node fuel s next current_node
    else some s

/-- `kfree`. -/
def kfree (s : PagedHeap) (fuel ptr : ℕ) : Option PagedHeap :=
  kfreeLoop (subw ptr 9) fuel s s.heap.heap_start 0

variable {s s' : PagedHeap} {a n p v x e cur fuel node : ℕ} {h : Heap} {nd : Node}
  {nodes suffix : List Node}

/-! ## Accesses -/

theorem covers_iff : s.covers a n = true ↔ ∀ x, a ≤ x → x < a + n → s.Mapped x := by
  unfold covers Mapped
  rw [List.all_eq_true]
  constructor
  · intro h x hlo hhi
    have hx := h (x - a) (List.mem_range.mpr (by omega))
    rwa [Nat.add_sub_cancel' hlo] at hx
  · intro h i hi
    exact h (a + i) (Nat.le_add_right ..) (Nat.add_lt_add_left (List.mem_range.mp hi) a)

theorem covers_mono (hmapped : ∀ x, s.Mapped x → s'.Mapped x) (h : s.covers a n = true) :
    s'.covers a n = true :=
  covers_iff.mpr (fun x hlo hhi => hmapped x (covers_iff.mp h x hlo hhi))

theorem access_eq_some {α : Type} {v w : α} :
    s.access a n v = some w ↔ s.covers a n = true ∧ v = w := by
  unfold access
  by_cases h : s.covers a n = true
  · simp [h]
  · simp [h]

theorem access_of_covers {α : Type} {v : α} (h : s.covers a n = true) : s.access a n v = some v :=
  if_pos h

/-- A header is mapped. -/
def HasHeader (s : PagedHeap) (node : ℕ) : Prop := s.covers node 9 = true

theorem HasHeader.size (h : s.HasHeader node) : s.covers node 8 = true :=
  covers_iff.mpr (fun x hlo hhi => covers_iff.mp h x hlo (by omega))

theorem HasHeader.status (h : s.HasHeader node) : s.covers (node + 8) 1 = true :=
  covers_iff.mpr (fun x hlo hhi => covers_iff.mp h x (by omega) (by omega))

/-- The contents of the heap do not matter. -/
theorem hasHeader_congr : HasHeader ⟨h, s.mapped⟩ node ↔ s.HasHeader node := Iff.rfl

theorem hasHeader_iff :
    s.HasHeader node ↔ s.covers node 8 = true ∧ s.covers (node + 8) 1 = true := by
  constructor
  · intro h
    exact ⟨h.size, h.status⟩
  · rintro ⟨hsize, hstatus⟩
    refine covers_iff.mpr (fun x hlo hhi => ?_)
    by_cases hx : x < node + 8
    · exact covers_iff.mp hsize x hlo hx
    · exact covers_iff.mp hstatus x (by omega) (by omega)

/-! ## Mapping requests -/

/-- A request adds the page of its address. -/
theorem mapped_mapIfNotMapped :
    (s.mapIfNotMapped a).Mapped x ↔ s.Mapped x ∨ x / 4096 = a / 4096 := by
  unfold mapIfNotMapped Mapped
  by_cases ha : s.mapped (a / 4096) = true
  · rw [if_pos ha]
    constructor
    · exact Or.inl
    · rintro (hx | hx)
      · exact hx
      · rwa [hx]
  · rw [if_neg ha]
    by_cases hx : x / 4096 = a / 4096
    · simp [hx]
    · simp [hx]

/-- One for a page that is mapped changes nothing. -/
theorem mapIfNotMapped_of_mapped (h : s.Mapped a) : s.mapIfNotMapped a = s := if_pos h

@[simp] theorem heap_mapIfNotMapped : (s.mapIfNotMapped a).heap = s.heap := by
  unfold mapIfNotMapped
  split <;> rfl

theorem foldl_mapIfNotMapped (as : List ℕ) :
    (as.foldl mapIfNotMapped s).heap = s.heap ∧
      ((as.foldl mapIfNotMapped s).Mapped x ↔
        s.Mapped x ∨ ∃ a ∈ as, x / 4096 = a / 4096) := by
  induction as generalizing s with
  | nil => exact ⟨rfl, by simp⟩
  | cons a as ih =>
    obtain ⟨hheap, hmapped⟩ := ih (s := s.mapIfNotMapped a)
    constructor
    · exact hheap.trans heap_mapIfNotMapped
    · rw [List.foldl_cons, hmapped, mapped_mapIfNotMapped, or_assoc, List.exists_mem_cons_iff]

section Tables

variable {p4_table reserve : ℕ} {t t' : Paged PhysicalPages}

/-- `map_if_not_mapped`, on the page tables. -/
def mapOnTables (p4_table : ℕ) (t : Paged PhysicalPages) (address : ℕ) :
    Option (Paged PhysicalPages) := do
  let mapped ← isVirtualMemoryMapped p4_table t.mem address
  if mapped = PT_NOT_MAPPED then mapFreshPage p4_table t address else some t

/-- The pages are those that the tables map. -/
def OnTables (p4_table : ℕ) (t : Paged PhysicalPages) (s : PagedHeap) : Prop :=
  ∀ a, InWindow a → (s.Mapped a ↔ t.mem.walk p4_table a ≠ none)

/-- As long as the allocator does not run out, a request does to the pages what `map_if_not_mapped`
does to the tables. -/
theorem OnTables.request (h : OnTables p4_table t s) (hin : InOrder p4_table reserve t)
    (ha : InWindow a) (hres : mapOnTables p4_table t a = some t')
    (hgood : t'.frames.ran_out ≠ true) :
    InOrder p4_table reserve t' ∧ OnTables p4_table t' (s.mapIfNotMapped a) := by
  rw [mapOnTables, isVirtualMemoryMapped_eq hin.paged.self, Option.bind_eq_bind,
    Option.bind_some] at hres
  by_cases hnone : t.mem.walk p4_table a = none
  · -- A page is taken for the address.
    rw [if_pos hnone, if_pos rfl] at hres
    have hgood₁ : t.frames.allocate.2.ran_out ≠ true :=
      fun hout => hgood (PhysicalPages.ran_out_of_calls (mapPage_frames hres) hout)
    obtain ⟨d, haddr, -, hdata, hkeeps⟩ := hin.take hgood₁
    have hres' : mapPage PhysicalPages.allocate p4_table ⟨t.mem, t.frames.allocate.2⟩ a
        (d * 4096) 3 = some t' := haddr ▸ hres
    have hsmall := hkeeps.inOrder.small
    have hlt := hdata.lt
    unfold Bitmap.Small at hsmall
    obtain ⟨hkeeps', hnew, hother⟩ := hkeeps.inOrder.mapped ha (by omega) hnone hres' hgood
    refine ⟨hkeeps'.inOrder, fun x hx => ?_⟩
    rw [mapped_mapIfNotMapped, h x hx]
    by_cases hpage : x / 4096 = a / 4096
    · rw [(walk_congr (m := t'.mem) hpage).trans hnew]
      simp [hpage]
    · rw [hother x hx hpage]
      simp [hpage]
  · rw [if_neg hnone, if_neg (by decide)] at hres
    obtain rfl := Option.some.inj hres
    rw [mapIfNotMapped_of_mapped ((h a ha).mpr hnone)]
    exact ⟨hin, h⟩

end Tables

/-! ## The branches -/

/-- At the chain end: it faults where the new header is not mapped. -/
theorem append_eq_some {r : ℕ × PagedHeap} : s.append n node = some r ↔
    s.HasHeader node ∧ r = handOut ⟨(s.heap.append n node).heap, s.mapped⟩ node := by
  unfold append setSize setStatus
  simp only [Option.bind_eq_bind, Option.bind_eq_some_iff, access_eq_some, Option.some.injEq]
  constructor
  · rintro ⟨_, ⟨hsize, rfl⟩, _, ⟨hstatus, rfl⟩, rfl⟩
    exact ⟨hasHeader_iff.mpr ⟨hsize, hstatus⟩, rfl⟩
  · rintro ⟨hnode, rfl⟩
    exact ⟨_, ⟨hnode.size, rfl⟩, _, ⟨hnode.status, rfl⟩, rfl⟩

/-- A node with a header that is mapped is split where the other header is. -/
theorem split_eq_some (hnode : s.HasHeader a) {size leftover : ℕ} :
    s.split a size leftover = some s' ↔ s.HasHeader (addw (addw a size) 9) ∧
      s' = ⟨s.heap.split a size leftover, s.mapped⟩ := by
  unfold split setSize setStatus
  simp only [Option.bind_eq_bind, Option.bind_eq_some_iff, access_eq_some]
  constructor
  · rintro ⟨_, ⟨-, rfl⟩, _, ⟨-, rfl⟩, _, ⟨hsize, rfl⟩, hstatus, rfl⟩
    exact ⟨hasHeader_iff.mpr ⟨hsize, hstatus⟩, rfl⟩
  · rintro ⟨hother, rfl⟩
    exact ⟨_, ⟨hnode.size, rfl⟩, _, ⟨hnode.status, rfl⟩, _, ⟨hother.size, rfl⟩, hother.status, rfl⟩

/-- Taking such a node comes down to the split. -/
theorem reuse_eq (hnode : s.HasHeader node) :
    s.reuse n node =
      (if addw n 9 < s.heap.size node then
        PagedHeap.split ⟨s.heap.setStatus node HEAP_ALLOCATION_USED, s.mapped⟩ node n
          (subw (s.heap.size node) (addw n 9))
      else some ⟨s.heap.setStatus node HEAP_ALLOCATION_USED, s.mapped⟩).map
        (fun t => t.handOut node) := by
  have hsize : (s.heap.setStatus node HEAP_ALLOCATION_USED).size node = s.heap.size node :=
    Heap.size_setStatus
  have hload : PagedHeap.size ⟨s.heap.setStatus node HEAP_ALLOCATION_USED, s.mapped⟩ node =
      some (s.heap.size node) := by
    rw [size, hsize]
    exact access_of_covers hnode.size
  rw [reuse, setStatus, access_of_covers hnode.status, Option.bind_eq_bind, Option.bind_some]
  dsimp only
  rw [hload, Option.bind_eq_bind, Option.bind_some, Option.map_eq_bind]
  by_cases hroom : addw n 9 < s.heap.size node
  · rw [if_pos hroom, if_pos hroom]
    rfl
  · rw [if_neg hroom, if_neg hroom]
    rfl

/-- It faults where the header behind what it takes is not mapped. -/
theorem reuse_eq_some (hnode : s.HasHeader node) {r : ℕ × PagedHeap} :
    s.reuse n node = some r ↔
      (addw n 9 < s.heap.size node → s.HasHeader (addw (addw node n) 9)) ∧
        r = handOut ⟨(s.heap.reuse n node).heap, s.mapped⟩ node := by
  have hsize : (s.heap.setStatus node HEAP_ALLOCATION_USED).size node = s.heap.size node :=
    Heap.size_setStatus
  have hnode' : HasHeader ⟨s.heap.setStatus node HEAP_ALLOCATION_USED, s.mapped⟩ node :=
    hasHeader_congr.mpr hnode
  have hheap : (s.heap.reuse n node).heap = if addw n 9 < s.heap.size node then
      (s.heap.setStatus node HEAP_ALLOCATION_USED).split node n
        (subw (s.heap.size node) (addw n 9))
      else s.heap.setStatus node HEAP_ALLOCATION_USED := by
    unfold Heap.reuse
    dsimp only
    rw [hsize]
  rw [reuse_eq hnode, hheap, Option.map_eq_some_iff]
  by_cases hroom : addw n 9 < s.heap.size node
  · rw [if_pos hroom, if_pos hroom]
    simp only [split_eq_some hnode', hasHeader_congr]
    constructor
    · rintro ⟨t, ⟨hother, rfl⟩, rfl⟩
      exact ⟨fun _ => hother, rfl⟩
    · rintro ⟨hother, rfl⟩
      exact ⟨_, ⟨hother hroom, rfl⟩, rfl⟩
  · rw [if_neg hroom, if_neg hroom]
    constructor
    · rintro ⟨t, ht, rfl⟩
      obtain rfl := Option.some.inj ht
      exact ⟨fun hroom' => absurd hroom' hroom, rfl⟩
    · rintro ⟨-, rfl⟩
      exact ⟨_, rfl, rfl⟩

/-! ## Calls that return

A call that returns does what the same call does without pages, and no page is unmapped. -/

theorem fits_erase {room : Bool} (hfits : s.fits n node = some room) :
    s.heap.fits n node = room ∧ (room = true → s.HasHeader node) := by
  simp only [fits, size, Option.bind_eq_bind, Option.bind_eq_some_iff, access_eq_some] at hfits
  obtain ⟨_, ⟨hsize, rfl⟩, hfits⟩ := hfits
  unfold Heap.fits
  by_cases hn : n ≤ s.heap.size node
  · simp only [if_pos hn, status, Option.bind_eq_some_iff, access_eq_some] at hfits
    obtain ⟨_, ⟨hstatus, rfl⟩, hroom⟩ := hfits
    obtain rfl := Option.some.inj hroom
    constructor
    · rw [decide_eq_true hn, Bool.true_and]
    · exact fun _ => hasHeader_iff.mpr ⟨hsize, hstatus⟩
  · rw [if_neg hn] at hfits
    obtain rfl := Option.some.inj hfits
    constructor
    · rw [decide_eq_false hn, Bool.false_and]
    · exact fun hroom => absurd hroom Bool.false_ne_true

theorem nextAddress_erase (hnext : s.nextAddress node = some a) : s.heap.nextAddress node = a := by
  simp only [nextAddress, size, Option.bind_eq_bind, Option.bind_eq_some_iff,
    access_eq_some] at hnext
  obtain ⟨_, ⟨-, rfl⟩, hnext⟩ := hnext
  exact Option.some.inj hnext

theorem handOut_erase {t : PagedHeap} (hr : (p, t) = handOut ⟨h, s.mapped⟩ node) :
    p = addw node 9 ∧ t.heap = h ∧ ∀ x, s.Mapped x → t.Mapped x := by
  obtain ⟨rfl, rfl⟩ := Prod.mk.inj hr
  refine ⟨rfl, (foldl_mapIfNotMapped (x := 0) _).1.trans heap_mapIfNotMapped, fun x hx => ?_⟩
  exact (foldl_mapIfNotMapped _).2.mpr (Or.inl (mapped_mapIfNotMapped.mpr (Or.inl hx)))

theorem kmallocLoop_erase {t : PagedHeap} (hr : kmallocLoop n fuel s cur = some (p, t)) :
    ∃ r, s.heap.kmallocLoop n fuel cur = some r ∧ r.ptr = p ∧ r.heap = t.heap ∧
      ∀ x, s.Mapped x → t.Mapped x := by
  induction fuel generalizing s cur with
  | zero => cases hr
  | succ fuel ih =>
    rw [kmallocLoop] at hr
    rw [Heap.kmallocLoop]
    by_cases hcur : cur < s.heap.heap_head
    · rw [if_pos hcur, Option.bind_eq_bind, Option.bind_eq_some_iff] at hr
      obtain ⟨room, hfits, hr⟩ := hr
      obtain ⟨hroom, hheader⟩ := fits_erase hfits
      rw [if_pos hcur, hroom]
      by_cases hroom : room = true
      · -- the node is taken
        rw [if_pos hroom, reuse_eq_some (hheader hroom)] at hr
        obtain ⟨hptr, hheap, hmapped⟩ := handOut_erase hr.2
        rw [if_pos hroom]
        exact ⟨s.heap.reuse n cur, rfl, hptr.symm, hheap.symm, hmapped⟩
      · -- the walk goes on
        rw [if_neg hroom, Option.bind_eq_bind, Option.bind_eq_some_iff] at hr
        obtain ⟨next, hnext, hr⟩ := hr
        obtain ⟨r, hr, hptr, hheap, hmapped⟩ := ih hr
        rw [heap_mapIfNotMapped] at hr
        rw [if_neg hroom, nextAddress_erase hnext]
        dsimp only
        rw [hr]
        exact ⟨_, rfl, hptr, hheap,
          fun x hx => hmapped x (mapped_mapIfNotMapped.mpr (Or.inl hx))⟩
    · -- the chain end
      rw [if_neg hcur, append_eq_some] at hr
      obtain ⟨hptr, hheap, hmapped⟩ := handOut_erase hr.2
      rw [if_neg hcur]
      exact ⟨s.heap.append n cur, rfl, hptr.symm, hheap.symm, hmapped⟩

theorem join_erase {other first second : ℕ} (hr : s.join other first second = some s') :
    s'.heap = (if other ≠ 0 ∧ s.heap.status other = HEAP_ALLOCATION_FREE then
        s.heap.setSize first (addw (s.heap.size first) (addw (s.heap.size second) 9))
      else s.heap) ∧ s'.mapped = s.mapped := by
  unfold join at hr
  by_cases hother : other ≠ 0
  · rw [if_pos hother, status, Option.bind_eq_bind, Option.bind_eq_some_iff] at hr
    simp only [access_eq_some] at hr
    obtain ⟨_, ⟨-, rfl⟩, hr⟩ := hr
    by_cases hfree : s.heap.status other = HEAP_ALLOCATION_FREE
    · simp only [if_pos hfree, size, setSize, Option.bind_eq_bind, Option.bind_eq_some_iff,
        access_eq_some] at hr
      obtain ⟨_, ⟨-, rfl⟩, _, ⟨-, rfl⟩, -, rfl⟩ := hr
      rw [if_pos ⟨hother, hfree⟩]
      exact ⟨rfl, rfl⟩
    · rw [if_neg hfree] at hr
      obtain rfl := Option.some.inj hr
      rw [if_neg (fun hn => hfree hn.2)]
      exact ⟨rfl, rfl⟩
  · rw [if_neg hother] at hr
    obtain rfl := Option.some.inj hr
    rw [if_neg (fun hn => hother hn.1)]
    exact ⟨rfl, rfl⟩

theorem kfreeLoop_erase {previous : ℕ} (hr : kfreeLoop node fuel s cur previous = some s') :
    s.heap.kfreeLoop node fuel cur previous = some s'.heap ∧ s'.mapped = s.mapped := by
  induction fuel generalizing cur previous with
  | zero => cases hr
  | succ fuel ih =>
    rw [kfreeLoop] at hr
    rw [Heap.kfreeLoop]
    by_cases hcur : cur < s.heap.heap_head
    · rw [if_pos hcur, Option.bind_eq_bind, Option.bind_eq_some_iff] at hr
      obtain ⟨next, hnext, hr⟩ := hr
      rw [if_pos hcur, nextAddress_erase hnext]
      dsimp only
      by_cases hnode : cur = node
      · rw [if_pos hnode, Option.bind_eq_bind, Option.bind_eq_some_iff] at hr
        simp only [status, access_eq_some] at hr
        obtain ⟨_, ⟨-, rfl⟩, hr⟩ := hr
        by_cases hused : s.heap.status cur = HEAP_ALLOCATION_USED
        · -- the node is freed and joined
          simp only [if_pos hused, setStatus, kheapMerge, Option.bind_eq_bind,
            Option.bind_eq_some_iff, access_eq_some] at hr
          obtain ⟨_, ⟨-, rfl⟩, t, ht, hr⟩ := hr
          obtain ⟨hheap₁, hmapped₁⟩ := join_erase ht
          obtain ⟨hheap₂, hmapped₂⟩ := join_erase hr
          rw [if_pos ⟨hnode, hused⟩, hheap₂, hheap₁]
          exact ⟨rfl, hmapped₂.trans hmapped₁⟩
        · rw [if_neg hused] at hr
          rw [if_neg (fun hn => hused hn.2)]
          exact ih hr
      · rw [if_neg hnode] at hr
        rw [if_neg (fun hn => hnode hn.1)]
        exact ih hr
    · rw [if_neg hcur] at hr
      obtain rfl := Option.some.inj hr
      rw [if_neg hcur]
      exact ⟨rfl, rfl⟩

/-! ## The walk on a chain -/

theorem HasHeader.mapped (h : s.HasHeader node) : s.Mapped node :=
  covers_iff.mp h node (le_refl _) (by omega)

theorem HasHeader.fits (h : s.HasHeader node) : s.fits n node = some (s.heap.fits n node) := by
  unfold PagedHeap.fits PagedHeap.size PagedHeap.status Heap.fits
  rw [access_of_covers h.size, access_of_covers h.status]
  by_cases hn : n ≤ s.heap.size node
  · simp [hn]
  · simp [hn]

theorem HasHeader.nextAddress (h : s.HasHeader node) :
    s.nextAddress node = some (s.heap.nextAddress node) := by
  unfold PagedHeap.nextAddress PagedHeap.size Heap.nextAddress
  rw [access_of_covers h.size]
  rfl

/-- Where the walk has gone over a node and found none that fits, the page of the chain end is
mapped. -/
def walked (s : PagedHeap) (suffix : List Node) (e : ℕ) : PagedHeap :=
  if suffix = [] then s else s.mapIfNotMapped e

/-- What the loop comes to. -/
def finish (s : PagedHeap) (n : ℕ) (suffix : List Node) (e : ℕ) : Option (ℕ × PagedHeap) :=
  match suffix.find? (Node.fits n) with
  | some nd => s.reuse n nd.addr
  | none => (s.walked suffix e).append n e

theorem finish_of_fits (hf : nd.fits n = true) :
    s.finish n (nd :: suffix) e = s.reuse n nd.addr := by
  unfold finish
  rw [List.find?_cons_of_pos hf]

theorem finish_last (hf : ¬ nd.fits n = true) :
    s.finish n [nd] e = (s.mapIfNotMapped e).append n e := by
  unfold finish
  rw [List.find?_cons_of_neg hf]
  rfl

theorem finish_next (hf : ¬ nd.fits n = true) {y : Node} :
    s.finish n (nd :: y :: suffix) e = s.finish n (y :: suffix) e := by
  unfold finish walked
  rw [List.find?_cons_of_neg hf, if_neg (List.cons_ne_nil _ _), if_neg (List.cons_ne_nil _ _)]

/-- One step of the loop, at a node whose header is mapped. -/
theorem HasHeader.kmallocLoop (h : s.HasHeader nd.addr) (hlt : nd.addr < s.heap.heap_head)
    (hnd : s.heap.Header nd) (hend : nd.addr + nd.len < 2^64) :
    PagedHeap.kmallocLoop n (fuel + 1) s nd.addr =
      if nd.fits n = true then s.reuse n nd.addr
      else PagedHeap.kmallocLoop n fuel (s.mapIfNotMapped (nd.addr + nd.len))
        (nd.addr + nd.len) := by
  have hfits : s.heap.fits n nd.addr = nd.fits n := by
    unfold Heap.fits Node.fits
    rw [hnd.1, hnd.2]
  have hnext : s.heap.nextAddress nd.addr = nd.addr + nd.len :=
    Heap.nextAddress_eq hnd hend
  rw [PagedHeap.kmallocLoop, if_pos hlt, h.fits, hfits, Option.bind_eq_bind, Option.bind_some,
    h.nextAddress, hnext, Option.bind_eq_bind, Option.bind_some]

/-- From a point of a chain on whose headers are mapped, with enough fuel. -/
theorem kmallocLoop_eq (hle : s.heap.heap_head ≤ e) (htop : e < 2^64)
    (ht : Tiles Node.addr Node.len cur suffix e) (hh : ∀ nd ∈ suffix, s.heap.Header nd)
    (hb : ∀ nd ∈ suffix, nd.addr < s.heap.heap_head)
    (hcov : ∀ nd ∈ suffix, s.HasHeader nd.addr) :
    kmallocLoop n fuel s cur = s.finish n suffix e ∨
      fuel ≤ suffix.length ∧ kmallocLoop n fuel s cur = none := by
  induction suffix generalizing cur fuel with
  | nil =>
    have hcur : cur = e := ht
    cases fuel with
    | zero => exact Or.inr ⟨le_refl _, rfl⟩
    | succ fuel =>
      rw [kmallocLoop, if_neg (by omega), hcur]
      exact Or.inl rfl
  | cons nd suffix ih =>
    obtain ⟨rfl, hrest⟩ := ht
    have hend := hrest.le
    cases fuel with
    | zero => exact Or.inr ⟨Nat.zero_le _, rfl⟩
    | succ fuel =>
      rw [(hcov nd (List.mem_cons_self ..)).kmallocLoop (hb nd (List.mem_cons_self ..))
        (hh nd (List.mem_cons_self ..)) (by omega)]
      by_cases hf : nd.fits n = true
      · rw [if_pos hf, finish_of_fits hf]
        exact Or.inl rfl
      · rw [if_neg hf, List.length_cons]
        cases suffix with
        | nil =>
          -- The last node: the walk maps the page of the chain end, and stops there.
          have hlast : nd.addr + nd.len = e := hrest
          rw [hlast, finish_last hf]
          cases fuel with
          | zero => exact Or.inr ⟨le_refl _, rfl⟩
          | succ fuel =>
            rw [kmallocLoop, if_neg (by rw [heap_mapIfNotMapped]; omega)]
            exact Or.inl rfl
        | cons y suffix =>
          -- The next node is mapped already.
          have hy : y.addr = nd.addr + nd.len := hrest.1
          have hmapped : s.Mapped (nd.addr + nd.len) := hy ▸ (hcov y (by simp)).mapped
          rw [mapIfNotMapped_of_mapped hmapped, finish_next hf]
          rcases ih hrest (fun x hx => hh x (List.mem_cons_of_mem _ hx))
            (fun x hx => hb x (List.mem_cons_of_mem _ hx))
            (fun x hx => hcov x (List.mem_cons_of_mem _ hx)) with hdone | ⟨hfuel, hnone⟩
          · exact Or.inl hdone
          · exact Or.inr ⟨by omega, hnone⟩

/-- What `kmalloc` comes to, when it returns and with enough fuel. -/
theorem kmalloc_eq_some (hc : s.heap.Chain nodes e) (hcov : ∀ nd ∈ nodes, s.HasHeader nd.addr)
    {size : BitVec 32} {r : ℕ × PagedHeap} :
    (∃ fuel, s.kmalloc fuel size = some r) ↔ s.finish size.toNat nodes e = some r := by
  have heq : ∀ fuel, s.kmalloc fuel size = s.finish size.toNat nodes e ∨
      fuel ≤ nodes.length ∧ s.kmalloc fuel size = none :=
    fun fuel => kmallocLoop_eq hc.head_le hc.lt_top hc.tiles hc.header hc.below hcov
  constructor
  · rintro ⟨fuel, hr⟩
    rcases heq fuel with hdone | ⟨-, hnone⟩
    · rw [← hdone, hr]
    · rw [hnone] at hr
      cases hr
  · intro hr
    refine ⟨nodes.length + 1, ?_⟩
    rcases heq (nodes.length + 1) with hdone | ⟨hfuel, -⟩
    · rw [hdone, hr]
    · omega

/-- Taking a node of a chain. -/
theorem reuse_chain (hc : s.heap.Chain nodes e) (hnd : nd ∈ nodes) (hnode : s.HasHeader nd.addr)
    (hn : n ≤ nd.size) {r : ℕ × PagedHeap} :
    s.reuse n nd.addr = some r ↔ (n + 9 < nd.size → s.HasHeader (nd.addr + n + 9)) ∧
      r = handOut ⟨(s.heap.reuse n nd.addr).heap, s.mapped⟩ nd.addr := by
  have hbounds := hc.bounds hnd
  have htop := hc.lt_top
  rw [reuse_eq_some hnode, (hc.header nd hnd).1, addw_of_lt (by omega : n + 9 < 2^64)]
  by_cases hroom : n + 9 < nd.size
  · rw [addw_of_lt (by omega : nd.addr + n < 2^64),
      addw_of_lt (by omega : nd.addr + n + 9 < 2^64)]
  · simp only [hroom, false_implies]

/-- The two ways in which it returns. -/
theorem finish_cases (hc : s.heap.Chain nodes e) (hcov : ∀ nd ∈ nodes, s.HasHeader nd.addr)
    {r : ℕ × PagedHeap} (hr : s.finish n nodes e = some r) :
    (∃ nd ∈ nodes, nodes.find? (Node.fits n) = some nd ∧
      (n + 9 < nd.size → s.HasHeader (nd.addr + n + 9)) ∧
      r = handOut ⟨(s.heap.reuse n nd.addr).heap, s.mapped⟩ nd.addr) ∨
    (nodes.find? (Node.fits n) = none ∧ (s.walked nodes e).HasHeader e ∧
      r = handOut ⟨((s.walked nodes e).heap.append n e).heap, (s.walked nodes e).mapped⟩ e) := by
  unfold finish at hr
  cases hfind : nodes.find? (Node.fits n) with
  | some nd =>
    have hnd := List.mem_of_find?_eq_some hfind
    obtain ⟨hn, -⟩ := Node.fits_iff.mp (List.find?_some hfind)
    rw [hfind] at hr
    obtain ⟨hheader, hr⟩ := (reuse_chain hc hnd (hcov nd hnd) hn).mp hr
    exact Or.inl ⟨nd, hnd, rfl, hheader, hr⟩
  | none =>
    rw [hfind] at hr
    exact Or.inr ⟨rfl, append_eq_some.mp hr⟩

/-- Then the header at a new place is mapped. -/
theorem finish_header (hc : s.heap.Chain nodes e) (hcov : ∀ nd ∈ nodes, s.HasHeader nd.addr)
    {t : PagedHeap} (hr : s.finish n nodes e = some (p, t))
    (ha : Heap.newHeader n nodes e = some a) : t.HasHeader a := by
  unfold Heap.newHeader at ha
  rcases finish_cases hc hcov hr with ⟨nd, -, hfind, hheader, hr⟩ | ⟨hfind, hheader, hr⟩
  · obtain ⟨-, -, hmono⟩ := handOut_erase hr
    rw [hfind] at ha
    dsimp only at ha
    split at ha
    · rename_i hroom
      obtain rfl := Option.some.inj ha
      exact covers_mono hmono (hheader hroom)
    · cases ha
  · obtain ⟨-, -, hmono⟩ := handOut_erase hr
    rw [hfind] at ha
    obtain rfl := Option.some.inj ha
    exact covers_mono hmono hheader

end PagedHeap

/-! ## Runs -/

/-- The heap with its pages, and the live blocks. -/
structure PagedClient where
  paged : PagedHeap
  live : List (ℕ × ℕ)

namespace PagedClient

/-- The same without the pages. -/
def client (c : PagedClient) : Client := ⟨c.paged.heap, c.live⟩

/-- The state after `init_kheap`. -/
def init (heap : ℕ) (mapped : ℕ → Bool) : PagedClient := ⟨⟨initKheap heap, mapped⟩, []⟩

/-- One operation of the client, without a fault. -/
inductive Step : PagedClient → HeapOp → PagedClient → Prop where
  | malloc {c : PagedClient} {fuel p : ℕ} {size : BitVec 32} {s : PagedHeap} :
      c.paged.kmalloc fuel size = some (p, s) →
      Step c (.malloc size) ⟨s, (p, size.toNat) :: c.live⟩
  | free {c : PagedClient} {fuel p n : ℕ} {s : PagedHeap} :
      (p, n) ∈ c.live → c.paged.kfree fuel p = some s → Step c (.free p) ⟨s, c.live.erase (p, n)⟩
  | write {c : PagedClient} {p n a : ℕ} {v : BitVec 8} :
      (p, n) ∈ c.live → p ≤ a → a < p + n → c.paged.Mapped a →
      Step c (.write a v)
        ⟨⟨{ c.paged.heap with mem := Function.update c.paged.heap.mem a v }, c.paged.mapped⟩,
          c.live⟩

variable {c c' : PagedClient} {op : HeapOp} {nodes : List Node} {e : ℕ} {size : BitVec 32}

/-- The invariant of `Client`, and the headers of the chain are mapped. -/
structure Inv (c : PagedClient) (nodes : List Node) (e : ℕ) : Prop where
  owned : c.client.Owned nodes e
  headers : ∀ nd ∈ nodes, c.paged.HasHeader nd.addr

theorem inv_init {heap : ℕ} (mapped : ℕ → Bool) (hheap : heap + 2^22 ≤ 2^64) :
    (init heap mapped).Inv [] (heap + 144) :=
  ⟨Client.owned_init hheap, fun _ hnd => absurd hnd List.not_mem_nil⟩

/-- What an allocation returns, and the invariant behind it. -/
theorem Inv.malloc (hi : c.Inv nodes e) (hs : c.client.Sound (.malloc size)) {p fuel : ℕ}
    {s : PagedHeap} (hr : c.paged.kmalloc fuel size = some (p, s)) :
    p = Heap.placeOf size.toNat nodes e + 9 ∧
      ∃ nodes' e', Inv ⟨s, (p, size.toNat) :: c.live⟩ nodes' e' := by
  have hroom := hs nodes e hi.owned.chain
  obtain ⟨r, hflat, rfl, hheap, hmapped⟩ := PagedHeap.kmallocLoop_erase hr
  obtain ⟨nodes', e', hnew⟩ := hi.owned.malloc hflat hroom
  have hfinish := (PagedHeap.kmalloc_eq_some hi.owned.chain hi.headers).mp ⟨fuel, hr⟩
  refine ⟨hnew.ptr, nodes', e', ?_, fun nd hnd => ?_⟩
  · have ho := hnew.owned
    rw [hheap] at ho
    exact ho
  · rcases hnew.headers nd hnd with hold | hplace
    · obtain ⟨y, hy, haddr⟩ := List.mem_map.mp hold
      rw [← haddr]
      exact PagedHeap.covers_mono hmapped (hi.headers y hy)
    · exact PagedHeap.finish_header hi.owned.chain hi.headers hfinish hplace

/-- Every sound step keeps the invariant. -/
theorem Inv.step (hi : c.Inv nodes e) (hs : c.client.Sound op) (hstep : Step c op c') :
    ∃ nodes' e', c'.Inv nodes' e' := by
  cases hstep with
  | malloc hr => exact (hi.malloc hs hr).2
  | @free fuel p n s hlive hr =>
    obtain ⟨hflat, hmapped⟩ := PagedHeap.kfreeLoop_erase hr
    obtain ⟨nodes', e', ho, haddrs⟩ := hi.owned.free hs hlive hflat
    refine ⟨nodes', e', ho, fun nd hnd => ?_⟩
    obtain ⟨y, hy, haddr⟩ := List.mem_map.mp (haddrs (List.mem_map_of_mem hnd))
    have hmono : ∀ x, c.paged.Mapped x → s.Mapped x := by
      intro x hx
      unfold PagedHeap.Mapped
      rw [hmapped]
      exact hx
    rw [← haddr]
    exact PagedHeap.covers_mono hmono (hi.headers y hy)
  | write hlive hlo hhi hmapped =>
    refine ⟨nodes, e, hi.owned.write rfl rfl (fun x hx => Function.update_of_ne ?_ ..), hi.headers⟩
    rintro rfl
    exact hx _ hlive ⟨hlo, hhi⟩

/-- No operation unmaps a page. -/
theorem Step.mapped (hstep : Step c op c') {x : ℕ} (hx : c.paged.Mapped x) : c'.paged.Mapped x := by
  cases hstep with
  | malloc hr =>
    obtain ⟨r, -, -, -, hmono⟩ := PagedHeap.kmallocLoop_erase hr
    exact hmono x hx
  | free hlive hr =>
    obtain ⟨-, hmapped⟩ := PagedHeap.kfreeLoop_erase hr
    unfold PagedHeap.Mapped
    rw [hmapped]
    exact hx
  | write hlive hlo hhi ha => exact hx

/-- One operation, when it returns within the fuel, and is `Sound` by the nodes that the headers
give. -/
def execSound (fuel : ℕ) (c : PagedClient) (op : HeapOp) : Option PagedClient :=
  let chain := c.paged.heap.nodesFrom fuel c.paged.heap.heap_start
  if (c.paged.heap.heap_head ≤ chain.2 ∧ chain.2 < 2^64) ∧
      Client.SoundOn c.paged.heap chain.1 chain.2 op then
    match op with
    | .malloc size =>
      (c.paged.kmalloc fuel size).map (fun r => ⟨r.2, (r.1, size.toNat) :: c.live⟩)
    | .free p => (c.live.find? (fun b => b.1 == p)).bind (fun b =>
        (c.paged.kfree fuel p).map (fun s => ⟨s, c.live.erase b⟩))
    | .write a v =>
      if (∃ b ∈ c.live, b.1 ≤ a ∧ a < b.1 + b.2) ∧ c.paged.mapped (a / 4096) = true then
        some ⟨⟨{ c.paged.heap with mem := Function.update c.paged.heap.mem a v }, c.paged.mapped⟩,
          c.live⟩
      else none
  else none

theorem step_of_execSound {fuel : ℕ} (h : execSound fuel c op = some c') :
    Step c op c' ∧ c.client.Sound op := by
  obtain ⟨⟨⟨hhead, htop⟩, hsound⟩, hexec⟩ := Option.ite_none_right_eq_some.mp h
  refine ⟨?_, Client.sound_of_soundOn (c := c.client)
    (Heap.chain_of_nodesFrom rfl hhead htop) hsound⟩
  cases op with
  | malloc size =>
    obtain ⟨r, hr, rfl⟩ := Option.map_eq_some_iff.mp hexec
    exact .malloc hr
  | free p =>
    obtain ⟨b, hb, hexec⟩ := Option.bind_eq_some_iff.mp hexec
    obtain ⟨s, hs, rfl⟩ := Option.map_eq_some_iff.mp hexec
    have hp : b.1 = p := by simpa using List.find?_some hb
    -- The block that was found is the one of the pointer.
    subst hp
    exact .free (List.mem_of_find?_eq_some hb) hs
  | write a v =>
    obtain ⟨⟨⟨b, hb, hlo, hhi⟩, hmapped⟩, hexec⟩ := Option.ite_none_right_eq_some.mp hexec
    obtain rfl := Option.some.inj hexec
    exact .write hb hlo hhi hmapped

/-- The region of the heap: `0x401` pages from `0x180151000` on. -/
def regionMapped (page : ℕ) : Bool := decide (0x180151 ≤ page) && decide (page < 0x180151 + 0x401)

/-- Three blocks, of which the middle one is freed, and a byte of the first is written. -/
def gapOps (S : ℕ) : List HeapOp :=
  [.malloc 64, .malloc 0x2000, .malloc 16, .free (S + 82), .write (S + 9) 1]

/-- The nodes that they leave. -/
def gapNodes : List Node :=
  [⟨0x1801510A0, 64, HEAP_ALLOCATION_USED⟩, ⟨0x1801510E9, 0x2000, HEAP_ALLOCATION_FREE⟩,
    ⟨0x1801530F2, 16, HEAP_ALLOCATION_USED⟩]

theorem gap_run : ∃ ts c, Run Step (init 0x180151010 regionMapped) ts c ∧
    ts.map Transition.label = gapOps 0x1801510A0 ∧ (∀ x ∈ ts, x.pre.client.Sound x.label) ∧
    c.paged.heap.Chain gapNodes 0x18015310B ∧ c.paged.heap.heap_start = 0x1801510A0 ∧
    c.paged.mapped 0x180653 = false := by
  have hend : ((gapOps 0x1801510A0).foldlM (execSound 8) (init 0x180151010 regionMapped)).map
      (fun c => (c.paged.heap.nodesFrom 8 c.paged.heap.heap_start,
        decide (c.paged.heap.heap_head ≤ 0x18015310B ∧ c.paged.heap.heap_start = 0x1801510A0),
        c.paged.mapped 0x180653)) = some ((gapNodes, 0x18015310B), true, false) := by
    decide +kernel
  obtain ⟨c, hc, hvalues⟩ := Option.map_eq_some_iff.mp hend
  obtain ⟨hnodes, hrest⟩ := Prod.mk.inj hvalues
  obtain ⟨hbounds, hbehind⟩ := Prod.mk.inj hrest
  obtain ⟨hhead, hstart⟩ := of_decide_eq_true hbounds
  have hstep : ∀ s op t, execSound 8 s op = some t → Step s op t ∧ s.client.Sound op :=
    fun s op t h => step_of_execSound h
  obtain ⟨ts, hrun, hlabels, hs⟩ := Run.of_foldlM hstep hc
  exact ⟨ts, c, hrun, hlabels, hs, Heap.chain_of_nodesFrom hnodes hhead (by norm_num), hstart,
    hbehind⟩

end PagedClient

end Potatos
