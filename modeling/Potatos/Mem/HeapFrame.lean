import Potatos.Mem.HeapCalls
import Potatos.Mem.KheapRuns

/-!
# What a block of one's own leaves alone

A caller that allocates a block and frees it again. `kmalloc` keeps every byte of a USED node and
every byte outside the heap, with the room behind it that a new node may take (`Kept`), and its
block is a node between the others (`Borrowed`). `kfree` of that node writes into its header and
into those of FREE nodes (`kfree_frame`).

When the freed node is the last one, `kheap_merge` reads a header behind the chain, and what it
makes of it need not be a chain again. The walks still visit every USED node, since those are
before it (`kfree_visits`).
-/

namespace Potatos

open Lib

/-- The walks visit nothing unless the chain starts below `heap_head`. -/
theorem Client.OnChain.lt {h : Heap} {a : ℕ} (ha : OnChain h a) : h.heap_start < h.heap_head := by
  induction ha with
  | start hlt => exact hlt
  | next _ _ ih => exact ih

namespace Heap

variable {h : Heap} {n e e' cur fuel x a b : ℕ} {t y p : Node} {nodes l r : List Node}

/-! ## The nodes that are visited -/

/-- The walks visit a node when the headers before it lead to it. -/
theorem onChain_of_tiles (ht : Tiles Node.addr Node.len h.heap_start (l ++ [y]) e) (he : e < 2^64)
    (hh : ∀ z ∈ l, h.Header z) (hb : ∀ z ∈ l ++ [y], z.addr < h.heap_head) :
    Client.OnChain h y.addr := by
  have hy := hb y (by simp)
  induction l using List.reverseRecOn generalizing y e with
  | nil =>
    have hstart : y.addr = h.heap_start := ht.1
    rw [hstart] at hy ⊢
    exact Client.OnChain.start hy
  | append_singleton l z ih =>
    obtain ⟨m, hl, hm⟩ := tiles_append.mp ht
    have hz : Client.OnChain h z.addr :=
      ih hl (by have hle := hm.le; omega) (fun w hw => hh w (List.mem_append_left _ hw))
        (fun w hw => hb w (List.mem_append_left _ hw)) (hb z (by simp))
    -- The node is where the one before it ends.
    obtain ⟨m', -, hm'⟩ := tiles_append.mp hl
    have hnext : h.nextAddress z.addr = y.addr := by
      have hend : z.addr + z.len = m := hm'.1 ▸ hm'.2
      have hlast : y.addr + y.len = e := hm.1 ▸ hm.2
      have haddr : y.addr = m := hm.1
      rw [nextAddress_eq (hh z (by simp)) (by omega), hend, haddr]
    rw [← hnext] at hy ⊢
    exact Client.OnChain.next hz hy

/-- On a chain all nodes are visited. -/
theorem Chain.onChain (hc : h.Chain nodes e) (hy : y ∈ nodes) : Client.OnChain h y.addr := by
  obtain ⟨l, r, rfl⟩ := List.append_of_mem hy
  have hbounds := hc.bounds_mid
  have htop := hc.lt_top
  apply onChain_of_tiles hc.tiles.upto
  · unfold Node.len
    omega
  · exact fun z hz => hc.header z (List.mem_append_left _ hz)
  · intro z hz
    apply hc.below
    simp only [List.mem_append, List.mem_cons] at hz ⊢
    tauto

/-! ## `kmalloc` -/

/-- The byte is in a USED node, or outside the heap and what an allocation of `n` bytes may add to
it. -/
def Kept (h : Heap) (nodes : List Node) (e n x : ℕ) : Prop :=
  (∃ y ∈ nodes, y.status = HEAP_ALLOCATION_USED ∧ y.addr ≤ x ∧ x < y.addr + y.len) ∨
    x < h.heap_start ∨ e + n + 18 ≤ x

/-- What `kmalloc` of `n` bytes leaves: the block is the payload of the node `t`, between `l` and
`r`, the other USED nodes are as before, and no byte that is to be kept has changed. -/
structure Borrowed (h : Heap) (nodes : List Node) (e n : ℕ) (res : Allocation) (l : List Node)
    (t : Node) (r : List Node) (e' : ℕ) : Prop where
  chain : res.heap.Chain (l ++ t :: r) e'
  ptr : res.ptr = t.addr + 9
  used : t.status = HEAP_ALLOCATION_USED
  size_le : n ≤ t.size
  end_le : e' ≤ e + n + 9
  heap_start : res.heap.heap_start = h.heap_start
  others : ∀ y ∈ nodes, y.status = HEAP_ALLOCATION_USED → y ∈ l ++ r
  frame : ∀ x, h.Kept nodes e n x → res.heap.mem x = h.mem x
  length_le : (l ++ t :: r).length ≤ nodes.length + 1

/-- A taken node is a USED node, and at most one behind it. -/
theorem takeNode_cons (hn : n ≤ t.size) : ∃ k rest,
    takeNode n a t = ⟨t.addr, k, HEAP_ALLOCATION_USED⟩ :: rest ∧ n ≤ k ∧ rest.length ≤ 1 := by
  unfold takeNode
  split_ifs
  · exact ⟨n, _, rfl, le_refl n, le_refl 1⟩
  · exact ⟨n, [], rfl, le_refl n, Nat.zero_le 1⟩
  · exact ⟨t.size, [], rfl, hn, Nat.zero_le 1⟩

theorem reuse_heap_start : (h.reuse n cur).heap.heap_start = h.heap_start := by
  unfold reuse
  dsimp only
  split_ifs
  · rfl
  · rfl

/-- The branch of `kmalloc` that takes a free node. -/
theorem Chain.borrowed_reuse (hc : h.Chain (l ++ t :: r) e) (hfits : t.fits n = true)
    {res : Allocation} (hptr : res.ptr = (h.reuse n t.addr).ptr)
    (hheap : res.heap = (h.reuse n t.addr).heap) :
    ∃ l' t' r' e', h.Borrowed (l ++ t :: r) e n res l' t' r' e' := by
  obtain ⟨hn, hfree⟩ := Node.fits_iff.mp hfits
  have hbounds := hc.bounds_mid
  have htop := hc.lt_top
  obtain ⟨k, rest, htake, hk, hrest⟩ := takeNode_cons (a := h.heap_head) hn
  have hchain := hc.reuse hn
  rw [htake, List.cons_append, ← hheap] at hchain
  refine ⟨l, ⟨t.addr, k, HEAP_ALLOCATION_USED⟩, rest ++ r, takenEnd n h.heap_head t e, ?_⟩
  constructor
  case chain => exact hchain
  case ptr => exact hptr.trans (reuse_ptr (by omega))
  case used => rfl
  case size_le => exact hk
  case end_le => exact hc.takenEnd_le.trans (by omega)
  case heap_start =>
    rw [hheap]
    exact reuse_heap_start
  case others =>
    -- The node was FREE, so the USED nodes are the others.
    intro y hy hused
    have hrest : y ∈ l ++ r := mem_rest hy (Node.ne_of_used hused hfree)
    simp only [List.mem_append] at hrest ⊢
    tauto
  case frame =>
    intro x hx
    rw [hheap]
    apply hc.reuse_frame hn
    unfold Node.len
    rcases hx with ⟨y, hy, hused, h1, h2⟩ | hx
    · have hne : y ≠ t := Node.ne_of_used hused hfree
      have hapart := (hc.eq_or_apart hy (by simp)).resolve_left hne
      unfold Node.len at h2
      omega
    · omega
  case length_le =>
    simp only [List.length_append, List.length_cons]
    omega

/-- The end of `kmalloc`, where no node fits. -/
theorem Chain.borrowed_append (hc : h.Chain nodes e) (hroom : e + n + 18 ≤ 2^64)
    {res : Allocation} (hptr : res.ptr = (h.append n e).ptr)
    (hheap : res.heap = (h.append n e).heap) :
    h.Borrowed nodes e n res nodes ⟨e, n, HEAP_ALLOCATION_USED⟩ [] (e + 9 + n) := by
  obtain ⟨hp, hchain⟩ := hc.append (n := n) (by omega)
  constructor
  case chain =>
    rw [hheap]
    exact hchain
  case ptr => exact hptr.trans hp
  case used => rfl
  case size_le => exact le_refl n
  case end_le => omega
  case heap_start =>
    rw [hheap]
    rfl
  case others => exact fun y hy _ => List.mem_append_left _ hy
  case frame =>
    intro x hx
    rw [hheap]
    have hout : x < e ∨ e + 9 ≤ x := by
      rcases hx with ⟨y, hy, -, -, h2⟩ | hx
      · have hbound := hc.bounds hy
        unfold Node.len at h2
        omega
      · have hle := hc.tiles.le
        omega
    exact (setSize_only.trans setStatus_only).1 x hout
  case length_le => simp

/-- `kmalloc` on a chain, with room behind it. -/
theorem kmalloc_borrowed (hc : h.Chain nodes e) {size : BitVec 32}
    (hroom : e + size.toNat + 18 ≤ 2^64) :
    ∃ res l t r e', (∀ fuel, nodes.length < fuel → h.kmalloc fuel size = some res) ∧
      h.Borrowed nodes e size.toNat res l t r e' := by
  obtain ⟨res, hres⟩ := hc.kmalloc_ends size
  rcases kmalloc_chain hc (hres (nodes.length + 1) (by omega)) with
    ⟨l, t, r, rfl, -, hfits, hptr, hheap⟩ | ⟨-, hptr, hheap⟩
  · obtain ⟨l', t', r', e', hborrowed⟩ := hc.borrowed_reuse hfits hptr hheap
    exact ⟨res, l', t', r', e', hres, hborrowed⟩
  · exact ⟨res, nodes, _, [], _, hres, hc.borrowed_append hroom hptr hheap⟩

/-- The USED nodes are nodes of the new chain. -/
theorem Borrowed.mem_of_used {res : Allocation} (hb : h.Borrowed nodes e n res l t r e')
    (hy : y ∈ nodes) (hused : y.status = HEAP_ALLOCATION_USED) : y ∈ l ++ t :: r :=
  mem_of_rest (hb.others y hy hused)

/-- A byte that is to be kept is in no FREE node, and not in the one of the block. -/
theorem Borrowed.apart {res : Allocation} (hb : h.Borrowed nodes e n res l t r e')
    (hx : h.Kept nodes e n x) (hy : y ∈ l ++ t :: r)
    (hkind : y = t ∨ y.status = HEAP_ALLOCATION_FREE) : x < y.addr ∨ y.addr + 9 + y.size ≤ x := by
  rcases hx with ⟨z, hz, hused, h1, h2⟩ | hx
  · unfold Node.len at h2
    rcases hkind with rfl | hfree
    · rcases List.mem_append.mp (hb.others z hz hused) with hz' | hz'
      · have hapart := hb.chain.around.1 z hz'
        omega
      · have hapart := hb.chain.around.2 z hz'
        omega
    · have hne : z ≠ y := Node.ne_of_used hused hfree
      have hapart := (hb.chain.eq_or_apart (hb.mem_of_used hz hused) hy).resolve_left hne
      omega
  · have hbounds := hb.chain.bounds hy
    have hstart := hb.heap_start
    have hend := hb.end_le
    omega

/-! ## `kfree` -/

/-- The first half of `kheap_merge` writes the header of the freed node only. -/
theorem mergeNext_only : OnlyHeader h (h.mergeNext cur a) cur := by
  unfold mergeNext
  split_ifs
  · exact setSize_only
  · exact ⟨fun _ _ => rfl, rfl, rfl⟩

/-- The second half writes the header of the node before, if that is FREE. -/
theorem mergePrevious_frame (hx : a ≠ 0 → h.status a = HEAP_ALLOCATION_FREE → x < a ∨ a + 9 ≤ x) :
    (h.mergePrevious cur a).mem x = h.mem x := by
  unfold mergePrevious
  split_ifs with hfree
  · exact setSize_only.1 x (hx hfree.1 hfree.2)
  · rfl

theorem mergePrevious_root : (h.mergePrevious cur a).heap_head = h.heap_head ∧
    (h.mergePrevious cur a).heap_start = h.heap_start := by
  unfold mergePrevious
  split_ifs
  · exact ⟨rfl, rfl⟩
  · exact ⟨rfl, rfl⟩

/-- The heap after `kfree` of the node `t`, with `l` before it. -/
def freed (h : Heap) (l : List Node) (t : Node) : Heap :=
  ((h.setStatus t.addr HEAP_ALLOCATION_FREE).mergeNext t.addr (t.addr + t.len)).mergePrevious t.addr
    (lastAddr 0 l)

/-- `kfree` of a USED node ends. -/
theorem kfree_freed (hc : h.Chain (l ++ t :: r) e) (hused : t.status = HEAP_ALLOCATION_USED) :
    ∀ fuel, (l ++ t :: r).length < fuel → h.kfree fuel (t.addr + 9) = some (h.freed l t) := by
  intro fuel hfuel
  have hbounds := hc.bounds_mid
  have htop := hc.lt_top
  have hptr : subw (t.addr + 9) 9 = t.addr := by
    unfold subw
    omega
  obtain ⟨res, hres, -⟩ := hc.kfreeLoop_ends t.addr
  have hrun := hres fuel hfuel
  rw [Heap.kfree, hptr, hrun, kfreeLoop_chain hc.tiles hc.lt_top hc.header hc.below hused hrun]
  rfl

theorem freed_root : (h.freed l t).heap_head = h.heap_head ∧
    (h.freed l t).heap_start = h.heap_start := by
  obtain ⟨-, hhead, hstart⟩ := setStatus_only.trans
    (mergeNext_only (h := h.setStatus t.addr HEAP_ALLOCATION_FREE) (a := t.addr + t.len))
  unfold freed
  exact ⟨mergePrevious_root.1.trans hhead, mergePrevious_root.2.trans hstart⟩

/-- `kfree` leaves the bytes outside the headers of the freed node and of the one before it, if that
is FREE. -/
theorem kfree_frame (hc : h.Chain (l ++ t :: r) e) (ht : x < t.addr ∨ t.addr + 9 ≤ x)
    (hlast : ∀ p ∈ l.getLast?, p.status = HEAP_ALLOCATION_FREE → x < p.addr ∨ p.addr + 9 ≤ x) :
    (h.freed l t).mem x = h.mem x := by
  have honly := setStatus_only.trans
    (mergeNext_only (h := h.setStatus t.addr HEAP_ALLOCATION_FREE) (a := t.addr + t.len))
  unfold freed
  rw [mergePrevious_frame, honly.1 x ht]
  intro hne hstatus
  -- The address is that of the last node before, whose header is still as it was.
  rcases List.eq_nil_or_concat l with rfl | ⟨l, p, rfl⟩
  · exact absurd rfl hne
  · have haddr : lastAddr 0 (l.concat p) = p.addr := by simp [lastAddr]
    have hp : p ∈ l.concat p := by simp
    have hbefore := hc.around.1 p hp
    rw [haddr] at hstatus ⊢
    have hsame : SameHeader h _ p.addr := honly.same (by omega)
    rw [hsame.status_eq, (hc.header p (List.mem_append_left _ hp)).2] at hstatus
    exact hlast p (by simp) hstatus

/-- The other nodes have their headers, but for a FREE one before the freed one. -/
theorem kfree_header (hc : h.Chain (l ++ t :: r) e) (hy : y ∈ l ++ r)
    (hlast : ∀ p ∈ l.getLast?, p.status = HEAP_ALLOCATION_FREE → y ≠ p) :
    (h.freed l t).Header y := by
  have hmem : y ∈ l ++ t :: r := mem_of_rest hy
  have hsame : SameHeader h (h.freed l t) y.addr := by
    intro x h1 h2
    apply kfree_frame hc
    · -- The nodes before and behind the freed one are apart from it.
      rcases List.mem_append.mp hy with hy | hy
      · have hapart := hc.around.1 y hy
        omega
      · have hapart := hc.around.2 y hy
        omega
    · intro p hp hfree
      have hmem' : p ∈ l ++ t :: r := List.mem_append_left _ (List.mem_of_getLast? hp)
      have hapart := (hc.eq_or_apart hmem hmem').resolve_left (hlast p hp hfree)
      omega
  exact hsame.header (hc.header y hmem)

/-- The USED nodes but the freed one are visited. -/
theorem kfree_visits (hc : h.Chain (l ++ t :: r) e) (hroom : e + 9 ≤ 2^64)
    (ht : t.status = HEAP_ALLOCATION_USED) (hy : y ∈ l ++ r)
    (hused : y.status = HEAP_ALLOCATION_USED) : Client.OnChain (h.freed l t) y.addr := by
  have hrun := kfree_freed hc ht _ (Nat.lt_succ_self _)
  rcases List.eq_nil_or_concat r with rfl | ⟨r, z, rfl⟩
  · -- Behind the last node there may be anything, and the USED nodes are before it.
    rw [List.append_nil] at hy
    obtain ⟨l₁, l₂, rfl⟩ := List.append_of_mem hy
    have hc' : h.Chain (l₁ ++ y :: (l₂ ++ [t])) e := by simpa using hc
    have hbounds := hc'.bounds_mid
    have hupto : Tiles Node.addr Node.len (h.freed (l₁ ++ y :: l₂) t).heap_start (l₁ ++ [y])
        (y.addr + y.len) := by
      rw [freed_root.2]
      exact hc'.tiles.upto
    have htop := hc.lt_top
    apply onChain_of_tiles hupto (by unfold Node.len; omega)
    · intro z hz
      apply kfree_header hc (by simp [hz])
      intro p hp _ heq
      -- The node before the freed one is not before the USED node.
      rw [List.getLast?_append_cons] at hp
      have hbefore := hc'.around.1 z hz
      rcases List.mem_cons.mp (List.mem_of_getLast? hp) with rfl | hp
      · rw [heq] at hbefore
        omega
      · have hbehind := hc'.around.2 p (List.mem_append_left _ hp)
        rw [heq] at hbefore
        omega
    · intro z hz
      rw [freed_root.1]
      apply hc'.below
      simp only [List.mem_append, List.mem_cons] at hz ⊢
      tauto
  · have hend : r.concat z = [] → h.EndJoins t e := fun hnil => absurd hnil (by simp)
    obtain ⟨nodes', e', hchain, -, -, -, hkeep⟩ := hc.kfree hroom ht hend hrun
    exact hchain.onChain (hkeep y hy hused)

end Heap

end Potatos
