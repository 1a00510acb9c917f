import Mathlib.Data.List.Chain
import Potatos.Mem.KheapOps

/-!
# One call on a chain

What `kmalloc` and `kfree` do to a chain of nodes, with nothing left open. `kmalloc` takes the
lowest free node that is large enough, and splits it where there is room for a header, or appends a
node at the chain end. `kfree` joins a node with its free neighbours, and leaves the heap alone when
the pointer is not that of a USED node.

`kheap_merge` takes the address 0 for the absence of a node before. On a chain that starts there it
does not join a node with the first one (`not_always_coalesces`).
-/

namespace Potatos

open Lib

namespace Heap

variable {h : Heap} {n e cur fuel p : ℕ} {nd x y : Node} {nodes l r suffix : List Node}
  {size : BitVec 32}

/-! ## The walks end -/

/-- The walk of `kmalloc` ends after one step for each node, and one more. -/
theorem kmallocLoop_ends (hle : h.heap_head ≤ e) (htop : e < 2^64)
    (ht : Tiles Node.addr Node.len cur suffix e) (hh : ∀ nd ∈ suffix, h.Header nd)
    (hb : ∀ nd ∈ suffix, nd.addr < h.heap_head) :
    ∃ res, ∀ fuel, suffix.length < fuel → h.kmallocLoop n fuel cur = some res := by
  induction suffix generalizing cur with
  | nil =>
    -- At the chain end the loop appends.
    have hcur : cur = e := ht
    refine ⟨h.append n cur, fun fuel hfuel => ?_⟩
    obtain ⟨fuel, rfl⟩ := Nat.exists_eq_add_of_lt hfuel
    rw [kmallocLoop, if_neg (by omega)]
  | cons nd suffix ih =>
    obtain ⟨hnd, hh⟩ := List.forall_mem_cons.mp hh
    obtain ⟨hlt, hb⟩ := List.forall_mem_cons.mp hb
    have hnext := nextAddress_of_tiles ht htop hnd
    obtain ⟨rfl, hrest⟩ := ht
    obtain ⟨res, hres⟩ := ih hrest hh hb
    -- A node that fits ends the loop, and behind any other there are fewer nodes.
    by_cases hf : h.fits n nd.addr = true
    · refine ⟨h.reuse n nd.addr, fun fuel hfuel => ?_⟩
      obtain ⟨fuel, rfl⟩ := Nat.exists_eq_add_of_lt hfuel
      rw [kmallocLoop, if_pos hlt, if_pos hf]
    · refine ⟨{ res with maps := (nd.addr + nd.len) :: res.maps }, fun fuel hfuel => ?_⟩
      obtain ⟨fuel, rfl⟩ := Nat.exists_eq_add_of_lt hfuel
      rw [kmallocLoop, if_pos hlt, if_neg hf, hnext]
      exact congrArg (Option.map _) (hres _ (by rw [List.length_cons]; omega))

/-- The walk of `kfree` ends as well. -/
theorem kfreeLoop_ends {node previous : ℕ} (hle : h.heap_head ≤ e) (htop : e < 2^64)
    (ht : Tiles Node.addr Node.len cur suffix e) (hh : ∀ nd ∈ suffix, h.Header nd)
    (hb : ∀ nd ∈ suffix, nd.addr < h.heap_head) :
    ∃ res, (∀ fuel, suffix.length < fuel → h.kfreeLoop node fuel cur previous = some res) ∧
      ((∀ x ∈ suffix, x.addr = node → x.status ≠ HEAP_ALLOCATION_USED) → res = h) := by
  induction suffix generalizing cur previous with
  | nil =>
    have hcur : cur = e := ht
    refine ⟨h, fun fuel hfuel => ?_, fun _ => rfl⟩
    obtain ⟨fuel, rfl⟩ := Nat.exists_eq_add_of_lt hfuel
    rw [kfreeLoop, if_neg (by omega)]
  | cons nd suffix ih =>
    obtain ⟨hnd, hh⟩ := List.forall_mem_cons.mp hh
    obtain ⟨hlt, hb⟩ := List.forall_mem_cons.mp hb
    have hnext := nextAddress_of_tiles ht htop hnd
    obtain ⟨rfl, hrest⟩ := ht
    -- The loop ends at the USED node of the address, and otherwise goes on.
    by_cases hf : nd.addr = node ∧ h.status nd.addr = HEAP_ALLOCATION_USED
    · refine ⟨(h.setStatus nd.addr HEAP_ALLOCATION_FREE).kheapMerge nd.addr
        (h.nextAddress nd.addr) previous, fun fuel hfuel => ?_, fun hnone => ?_⟩
      · obtain ⟨fuel, rfl⟩ := Nat.exists_eq_add_of_lt hfuel
        rw [kfreeLoop, if_pos hlt, if_pos hf]
      · exact absurd (hnd.2.symm.trans hf.2) (hnone nd (List.mem_cons_self ..) hf.1)
    · obtain ⟨res, hres, hsame⟩ := ih hrest hh hb
      refine ⟨res, fun fuel hfuel => ?_,
        fun hnone => hsame (fun x hx => hnone x (List.mem_cons_of_mem _ hx))⟩
      obtain ⟨fuel, rfl⟩ := Nat.exists_eq_add_of_lt hfuel
      rw [kfreeLoop, if_pos hlt, if_neg hf, hnext]
      exact hres _ (by rw [List.length_cons]; omega)

/-- On a chain both calls end. -/
theorem Chain.kmalloc_ends (hc : h.Chain nodes e) (size : BitVec 32) :
    ∃ res, ∀ fuel, nodes.length < fuel → h.kmalloc fuel size = some res :=
  kmallocLoop_ends hc.head_le hc.lt_top hc.tiles hc.header hc.below

theorem Chain.kfreeLoop_ends (hc : h.Chain nodes e) (node : ℕ) :
    ∃ res, (∀ fuel, nodes.length < fuel → h.kfreeLoop node fuel h.heap_start 0 = some res) ∧
      ((∀ x ∈ nodes, x.addr = node → x.status ≠ HEAP_ALLOCATION_USED) → res = h) :=
  Heap.kfreeLoop_ends hc.head_le hc.lt_top hc.tiles hc.header hc.below

/-! ## `kmalloc` -/

/-- The free node of the lowest address that is large enough. -/
structure FirstFit (n : ℕ) (nodes : List Node) (nd : Node) : Prop where
  mem : nd ∈ nodes
  free : nd.status = HEAP_ALLOCATION_FREE
  size_le : n ≤ nd.size
  lowest : ∀ x ∈ nodes, x.status = HEAP_ALLOCATION_FREE → n ≤ x.size → nd.addr ≤ x.addr

/-- The free node was taken: the nodes around it are as they were, and it is USED. With room for a
header behind the payload it is split into two parts that cover what it covered, of which the second
is on the chain when it is below `heap_head`. -/
structure Taken (h : Heap) (n : ℕ) (nodes : List Node) (nd : Node) (res : Allocation)
    (nodes' : List Node) : Prop where
  ptr : res.ptr = nd.addr + 9
  heap_head : res.heap.heap_head = h.heap_head
  others : ∃ l r parts, nodes = l ++ nd :: r ∧ nodes' = l ++ (parts ++ r) ∧
    (nd.size ≤ n + 9 → parts = [{ nd with status := HEAP_ALLOCATION_USED }]) ∧
    (n + 9 < nd.size → ∃ remainder, remainder.status = HEAP_ALLOCATION_FREE ∧
      res.heap.Header remainder ∧
      Tiles Node.addr Node.len nd.addr [⟨nd.addr, n, HEAP_ALLOCATION_USED⟩, remainder]
        (nd.addr + nd.len) ∧
      parts = if remainder.addr < h.heap_head then
          [⟨nd.addr, n, HEAP_ALLOCATION_USED⟩, remainder]
        else [⟨nd.addr, n, HEAP_ALLOCATION_USED⟩])

/-- A node was appended at the chain end. -/
structure Appended (n : ℕ) (nodes : List Node) (e : ℕ) (res : Allocation)
    (nodes' : List Node) : Prop where
  ptr : res.ptr = e + 9
  heap_head : res.heap.heap_head = e + 9
  others : nodes' = nodes ++ [⟨e, n, HEAP_ALLOCATION_USED⟩]

/-- The payload is of a USED node with at least the requested bytes, and apart from every node that
was USED before. -/
def Fresh (n : ℕ) (nodes : List Node) (res : Allocation) (nodes' : List Node) : Prop :=
  ∃ nd ∈ nodes', nd.status = HEAP_ALLOCATION_USED ∧ res.ptr = nd.addr + 9 ∧ n ≤ nd.size ∧
    ∀ x ∈ nodes, x.status = HEAP_ALLOCATION_USED →
      x.addr + x.len ≤ res.ptr ∨ res.ptr + nd.size ≤ x.addr

/-- The first node of an ordered list that fits is the lowest one. -/
theorem Chain.firstFit (hc : h.Chain (l ++ nd :: r) e) (hl : ∀ x ∈ l, x.fits n = false)
    (hnd : nd.fits n = true) : FirstFit n (l ++ nd :: r) nd where
  mem := by simp
  free := (Node.fits_iff.mp hnd).2
  size_le := (Node.fits_iff.mp hnd).1
  lowest x hx hfree hn := by
    have hfits : x.fits n = true := Node.fits_iff.mpr ⟨hn, hfree⟩
    rcases List.mem_append.mp hx with hx | hx
    · rw [hl x hx] at hfits
      cases hfits
    · rcases List.mem_cons.mp hx with rfl | hx
      · exact le_refl _
      · have := hc.around.2 x hx
        omega

theorem Chain.taken (hc : h.Chain (l ++ nd :: r) e) (hn : n ≤ nd.size) {res : Allocation}
    (hptr : res.ptr = (h.reuse n nd.addr).ptr) (hheap : res.heap = (h.reuse n nd.addr).heap) :
    h.Taken n (l ++ nd :: r) nd res (l ++ (takeNode n h.heap_head nd ++ r)) := by
  have hbounds := hc.bounds_mid
  have htop := hc.lt_top
  refine ⟨hptr.trans (reuse_ptr (by omega)), ?_, l, r, _, rfl, rfl, fun hs => ?_, fun hs => ?_⟩
  · rw [hheap]
    by_cases hs : n + 9 < nd.size
    · exact (hc.reuse_split hs).2.2.2.1
    · rw [reuse_whole hs hn hc.header_mid (by omega)]
      rfl
  · rw [takeNode, if_neg (by omega)]
  · refine ⟨⟨nd.addr + n + 9, nd.size - (n + 9), HEAP_ALLOCATION_FREE⟩, rfl, ?_, split_tiles hs, ?_⟩
    · rw [hheap]
      exact (hc.reuse_split hs).2.1
    · rw [takeNode, if_pos hs]

theorem Chain.fresh_of_taken (hc : h.Chain (l ++ nd :: r) e) (hn : n ≤ nd.size)
    (hfree : nd.status = HEAP_ALLOCATION_FREE) {res : Allocation}
    (hptr : res.ptr = (h.reuse n nd.addr).ptr) :
    Fresh n (l ++ nd :: r) res (l ++ (takeNode n h.heap_head nd ++ r)) := by
  have hbounds := hc.bounds_mid
  have htop := hc.lt_top
  obtain ⟨k, hnk, hk, hmem⟩ := takeNode_used (a := h.heap_head) hn
  rw [reuse_ptr (by omega)] at hptr
  refine ⟨_, List.mem_append_right l (List.mem_append_left r hmem), rfl, hptr, hnk, ?_⟩
  intro x hx hused
  have hne : x ≠ nd := Node.ne_of_used hused hfree
  have hapart := (hc.eq_or_apart hx (by simp)).resolve_left hne
  unfold Node.len
  dsimp only
  omega

/-- `kmalloc` on a chain: the search ends, with the lowest free node that is large enough or, when
there is none, a node at the chain end. There is a chain again, and the payload is apart from all
that was USED. -/
theorem kmalloc_firstFit (hc : h.Chain nodes e) (hroom : e + size.toNat + 18 < 2^64) :
    ∃ res nodes' e', (∀ fuel, nodes.length < fuel → h.kmalloc fuel size = some res) ∧
      res.heap.Chain nodes' e' ∧ Fresh size.toNat nodes res nodes' ∧
      ((∃ nd, FirstFit size.toNat nodes nd ∧ h.Taken size.toNat nodes nd res nodes') ∨
        ((∀ x ∈ nodes, x.status = HEAP_ALLOCATION_FREE → x.size < size.toNat) ∧
          Appended size.toNat nodes e res nodes')) := by
  obtain ⟨res, hres⟩ := hc.kmalloc_ends size
  rcases kmalloc_chain hc (hres (nodes.length + 1) (by omega)) with
    ⟨l, nd, r, rfl, hl, hnd, hptr, hheap⟩ | ⟨hnone, hptr, hheap⟩
  · -- a free node
    obtain ⟨hn, hfree⟩ := Node.fits_iff.mp hnd
    have hchain := hc.reuse hn
    rw [← hheap] at hchain
    exact ⟨res, _, _, hres, hchain, hc.fresh_of_taken hn hfree hptr,
      Or.inl ⟨nd, hc.firstFit hl hnd, hc.taken hn hptr hheap⟩⟩
  · -- the chain end
    obtain ⟨hp, hchain⟩ := hc.append (n := size.toNat) (by omega)
    rw [← hheap] at hchain
    refine ⟨res, _, _, hres, hchain, ?_, Or.inr ⟨?_, hptr.trans hp, ?_, rfl⟩⟩
    · -- The payload is behind every node of the old chain.
      refine ⟨⟨e, size.toNat, HEAP_ALLOCATION_USED⟩, by simp, rfl, hptr.trans hp, le_refl _, ?_⟩
      intro x hx _
      have hbound := hc.bounds hx
      rw [hptr, hp]
      unfold Node.len
      omega
    · intro x hx hfree
      have hfits : ¬ x.fits size.toNat = true := by
        rw [hnone x hx]
        decide
      exact Nat.lt_of_not_le (fun hle => hfits (Node.fits_iff.mpr ⟨hle, hfree⟩))
    · rw [hheap]
      exact addw_of_lt (by omega)

/-- Five nodes, two of them free. -/
def fiveNodes : List Node := [⟨4240, 32, HEAP_ALLOCATION_USED⟩, ⟨4281, 16, HEAP_ALLOCATION_FREE⟩,
  ⟨4306, 8, HEAP_ALLOCATION_USED⟩, ⟨4323, 100, HEAP_ALLOCATION_FREE⟩,
  ⟨4432, 64, HEAP_ALLOCATION_USED⟩]

/-- The heap that has these nodes. -/
def fiveHeap : Heap :=
  fiveNodes.foldl (fun h nd => (h.setSize nd.addr nd.size).setStatus nd.addr nd.status)
    ⟨fun _ => 0, 4441, 4240⟩

/-- For 64 bytes the first free node is too small, and the second one is split. -/
theorem kmalloc_firstFit_split :
    ∃ res nodes' e', (∀ fuel, 5 < fuel → fiveHeap.kmalloc fuel 64 = some res) ∧
      res.heap.Chain nodes' e' ∧ Fresh 64 fiveNodes res nodes' ∧ res.ptr = 4332 ∧
      res.heap.size 4396 = 27 ∧ ∃ nd, FirstFit 64 fiveNodes nd ∧
        fiveHeap.Taken 64 fiveNodes nd res nodes' := by
  have hc : fiveHeap.Chain fiveNodes 4505 := by
    refine ⟨⟨rfl, rfl, rfl, rfl, rfl, rfl⟩, ?_, ?_, by decide, by decide⟩
    · unfold fiveNodes
      simp only [List.forall_mem_cons]
      exact ⟨⟨by decide, by decide⟩, ⟨by decide, by decide⟩, ⟨by decide, by decide⟩,
        ⟨by decide, by decide⟩, ⟨by decide, by decide⟩, fun x hx => absurd hx List.not_mem_nil⟩
    · unfold fiveNodes
      simp only [List.forall_mem_cons]
      exact ⟨by decide, by decide, by decide, by decide, by decide,
        fun x hx => absurd hx List.not_mem_nil⟩
  have hfirst : (fiveHeap.kmalloc 6 64).map (fun res => (res.ptr, res.heap.size 4396)) =
      some (4332, 27) := by decide +kernel
  obtain ⟨res, nodes', e', hres, hchain, hfresh, htaken⟩ :=
    @kmalloc_firstFit fiveHeap 4505 fiveNodes 64 hc (by decide)
  rw [hres 6 (by decide)] at hfirst
  obtain ⟨hptr, hsize⟩ := Prod.mk.inj (Option.some.inj hfirst)
  refine ⟨res, nodes', e', hres, hchain, hfresh, hptr, hsize, htaken.resolve_right ?_⟩
  rintro ⟨hnone, -⟩
  exact absurd (hnone ⟨4323, 100, HEAP_ALLOCATION_FREE⟩ (by simp [fiveNodes]) rfl) (by decide)

/-! ## `kfree` -/

/-- A free node and what is behind it, with the node before joined to it when that is free too. -/
def joinPrevious (l : List Node) (x : Node) (r : List Node) : List Node :=
  match l.getLast? with
  | none => x :: r
  | some p =>
    if p.status = HEAP_ALLOCATION_FREE then l.dropLast ++ p.absorb x :: r else l ++ x :: r

/-- The chain after the node `nd` was freed, with `l` before it, and `y` and `r` behind it. -/
def coalesce (l : List Node) (nd y : Node) (r : List Node) : List Node :=
  let nd := { nd with status := HEAP_ALLOCATION_FREE }
  if y.status = HEAP_ALLOCATION_FREE then joinPrevious l (nd.absorb y) r
  else joinPrevious l nd (y :: r)

/-- No two free nodes follow one another. -/
def NoAdjacentFree (nodes : List Node) : Prop :=
  nodes.IsChain (fun x y => ¬ (x.status = HEAP_ALLOCATION_FREE ∧ y.status = HEAP_ALLOCATION_FREE))

theorem joinPrevious_nil : joinPrevious [] x r = x :: r := rfl

theorem joinPrevious_concat {q : Node} : joinPrevious (l ++ [q]) x r =
    if q.status = HEAP_ALLOCATION_FREE then l ++ q.absorb x :: r else l ++ q :: x :: r := by
  unfold joinPrevious
  rw [List.getLast?_concat, List.dropLast_concat, List.append_assoc]
  rfl

/-- A node in the middle has no free neighbours, or is not free. -/
theorem noAdjacentFree_mid : NoAdjacentFree (l ++ x :: r) ↔
    NoAdjacentFree l ∧ NoAdjacentFree r ∧ (x.status = HEAP_ALLOCATION_FREE →
      (∀ q ∈ l.getLast?, q.status ≠ HEAP_ALLOCATION_FREE) ∧
        ∀ y ∈ r.head?, y.status ≠ HEAP_ALLOCATION_FREE) := by
  unfold NoAdjacentFree
  rw [List.isChain_append, List.isChain_cons]
  simp only [List.head?_cons, Option.mem_some_iff]
  grind

/-- Joining a free node with the one before leaves no two free nodes that follow one another, when
only that one may be free before it. -/
theorem noAdjacentFree_joinPrevious (hl : NoAdjacentFree l) (hr : NoAdjacentFree r)
    (hhead : ∀ y ∈ r.head?, y.status ≠ HEAP_ALLOCATION_FREE) :
    NoAdjacentFree (joinPrevious l x r) := by
  rcases List.eq_nil_or_concat l with rfl | ⟨l, q, rfl⟩
  · have hmid : NoAdjacentFree ([] ++ x :: r) :=
      noAdjacentFree_mid.mpr ⟨hl, hr, fun _ => ⟨by simp, hhead⟩⟩
    exact hmid
  · rw [List.concat_eq_append] at hl ⊢
    obtain ⟨hl, -, hq⟩ := noAdjacentFree_mid.mp hl
    rw [joinPrevious_concat]
    split_ifs with hfree
    · exact noAdjacentFree_mid.mpr ⟨hl, hr, fun _ => ⟨(hq hfree).1, hhead⟩⟩
    · have hx : NoAdjacentFree ([] ++ x :: r) :=
        noAdjacentFree_mid.mpr ⟨List.isChain_nil, hr, fun _ => ⟨by simp, hhead⟩⟩
      exact noAdjacentFree_mid.mpr ⟨hl, hx, fun h => absurd h hfree⟩

/-- The freed node is joined with a free one behind it, which had no free node behind it itself. -/
theorem noAdjacentFree_coalesce (hnone : NoAdjacentFree (l ++ nd :: y :: r)) :
    NoAdjacentFree (coalesce l nd y r) := by
  obtain ⟨hl, hyr, -⟩ := noAdjacentFree_mid.mp hnone
  obtain ⟨-, hr, hy⟩ := (noAdjacentFree_mid (l := [])).mp hyr
  unfold coalesce
  dsimp only
  split_ifs with hfree
  · exact noAdjacentFree_joinPrevious hl hr (hy hfree).2
  · refine noAdjacentFree_joinPrevious hl hyr (fun z hz => ?_)
    obtain rfl := Option.mem_some_iff.mp hz
    exact hfree

theorem Chain.mergePrevious_eq (hc : h.Chain (l ++ x :: r) e) (hstart : 0 < h.heap_start) :
    (h.mergePrevious x.addr (lastAddr 0 l)).Chain (joinPrevious l x r) e := by
  unfold Heap.mergePrevious
  rcases List.eq_nil_or_concat l with rfl | ⟨l, q, rfl⟩
  · -- Before the first node there is `NULL`.
    rw [if_neg (fun hn => hn.1 rfl), joinPrevious_nil]
    exact hc
  · rw [List.concat_eq_append] at hc ⊢
    have hc' : h.Chain (l ++ q :: x :: r) e := by simpa using hc
    have hlast : lastAddr 0 (l ++ [q]) = q.addr := by simp [lastAddr]
    have hbounds := hc'.bounds_mid
    -- No node of the chain is at `NULL`, so the code takes the one before for what it is.
    have hq : q.addr ≠ 0 := by omega
    have hx := hc'.header x (by simp)
    rw [hlast, joinPrevious_concat, hc'.header_mid.2]
    split_ifs with h1 h2 h2
    · rw [hc'.header_mid.1, hx.1]
      exact hc'.absorb
    · exact absurd h1.2 h2
    · exact absurd ⟨hq, h2⟩ h1
    · exact hc'

/-- `kheap_merge` on a free node of the chain that has a node behind it. -/
theorem Chain.kheapMerge_eq (hc : h.Chain (l ++ x :: y :: r) e) (hstart : 0 < h.heap_start) :
    (h.kheapMerge x.addr (x.addr + x.len) (lastAddr 0 l)).Chain
      (if y.status = HEAP_ALLOCATION_FREE then joinPrevious l (x.absorb y) r
        else joinPrevious l x (y :: r)) e := by
  have hy : x.addr + x.len = y.addr := by
    obtain ⟨m, -, hm⟩ := tiles_append.mp hc.tiles
    rw [hm.1]
    exact hm.2.1.symm
  have hheader := hc.header y (by simp)
  -- The successor is behind a header, so its address is no `NULL` either.
  have hnz : y.addr ≠ 0 := by
    rw [← hy]
    unfold Node.len
    omega
  rw [Heap.kheapMerge_eq, hy]
  by_cases hfree : y.status = HEAP_ALLOCATION_FREE
  · have hmerge : h.mergeNext x.addr y.addr = h.setSize x.addr (addw x.size (addw y.size 9)) := by
      unfold Heap.mergeNext
      rw [if_pos ⟨hnz, hheader.2.trans hfree⟩, hc.header_mid.1, hheader.1]
    rw [hmerge, if_pos hfree]
    exact hc.absorb.mergePrevious_eq hstart
  · have hmerge : h.mergeNext x.addr y.addr = h := by
      unfold Heap.mergeNext
      rw [if_neg (fun hn => hfree (hheader.2.symm.trans hn.2))]
    rw [hmerge, if_neg hfree]
    exact hc.mergePrevious_eq hstart

/-- What `kfree` is to do on a chain: it joins the node of the pointer with its free neighbours, if
that is a USED one that another follows, and does nothing when there is no USED node. -/
def Coalesces (h : Heap) (nodes : List Node) (e p : ℕ) : Prop :=
  ∃ res, (∀ fuel, nodes.length < fuel → h.kfree fuel p = some res) ∧
    (∀ l nd y r, nodes = l ++ nd :: y :: r → subw p 9 = nd.addr →
      nd.status = HEAP_ALLOCATION_USED → res.Chain (coalesce l nd y r) e ∧
        (NoAdjacentFree nodes → NoAdjacentFree (coalesce l nd y r))) ∧
    ((∀ nd ∈ nodes, nd.addr = subw p 9 → nd.status ≠ HEAP_ALLOCATION_USED) → res = h)

/-- `kfree` coalesces exactly, on a chain that does not start at `NULL`. -/
theorem kfree_coalesces (hc : h.Chain nodes e) (hstart : 0 < h.heap_start) (p : ℕ) :
    h.Coalesces nodes e p := by
  obtain ⟨res, hres, hsame⟩ := hc.kfreeLoop_ends (subw p 9)
  refine ⟨res, hres, ?_, hsame⟩
  rintro l nd y r rfl hp hused
  have hfound := hres _ (Nat.lt_succ_self _)
  rw [hp] at hfound
  have heq := kfreeLoop_chain hc.tiles hc.lt_top hc.header hc.below hused hfound
  have hfree : (h.setStatus nd.addr HEAP_ALLOCATION_FREE).Chain
      (l ++ { nd with status := HEAP_ALLOCATION_FREE } :: y :: r) e := hc.setStatus
  refine ⟨?_, noAdjacentFree_coalesce⟩
  rw [heq]
  exact hfree.kheapMerge_eq hstart

/-- Three nodes of one byte, of which the first is free. -/
def threeNodes (start : ℕ) : Heap :=
  (((((⟨fun _ => 0, start + 29, start⟩ : Heap).setSize start 1).setSize (start + 10) 1).setStatus
    (start + 10) HEAP_ALLOCATION_USED).setSize (start + 20) 1).setStatus (start + 20)
    HEAP_ALLOCATION_USED

/-- They are a chain from the address 0 on. -/
theorem threeNodes_chain : (threeNodes 0).Chain [⟨0, 1, HEAP_ALLOCATION_FREE⟩,
    ⟨10, 1, HEAP_ALLOCATION_USED⟩, ⟨20, 1, HEAP_ALLOCATION_USED⟩] 30 where
  tiles := ⟨rfl, rfl, rfl, rfl⟩
  header := by
    simp only [List.forall_mem_cons]
    exact ⟨⟨by decide, by decide⟩, ⟨by decide, by decide⟩, ⟨by decide, by decide⟩,
      fun x hx => absurd hx List.not_mem_nil⟩
  below := by
    simp only [List.forall_mem_cons]
    exact ⟨by decide, by decide, by decide, fun x hx => absurd hx List.not_mem_nil⟩
  head_le := by decide
  lt_top := by decide

/-- The second node is not joined with the first. -/
theorem not_always_coalesces :
    ¬ ∀ (h : Heap) (nodes : List Node) (e p : ℕ), h.Chain nodes e → h.Coalesces nodes e p := by
  intro hall
  obtain ⟨res, hres, hfound, -⟩ := hall _ _ _ 19 threeNodes_chain
  have hchain := (hfound [_] _ _ [] rfl (by decide) rfl).1
  have hsize : ((threeNodes 0).kfree 4 19).map (fun h => h.size 0) = some 1 := by decide
  rw [hres 4 (by decide)] at hsize
  have hjoined := (hchain.header _ (List.mem_cons_self ..)).1
  exact absurd (hjoined.symm.trans (Option.some.inj hsize)) (by decide)

/-- From 4096 on, the second node is joined with the first. -/
theorem kfree_coalesces_three : (threeNodes 4096).Coalesces [⟨4096, 1, HEAP_ALLOCATION_FREE⟩,
    ⟨4106, 1, HEAP_ALLOCATION_USED⟩, ⟨4116, 1, HEAP_ALLOCATION_USED⟩] 4126 4115 := by
  have hc : (threeNodes 4096).Chain [⟨4096, 1, HEAP_ALLOCATION_FREE⟩,
      ⟨4106, 1, HEAP_ALLOCATION_USED⟩, ⟨4116, 1, HEAP_ALLOCATION_USED⟩] 4126 := by
    refine ⟨⟨rfl, rfl, rfl, rfl⟩, ?_, ?_, by decide, by decide⟩
    · simp only [List.forall_mem_cons]
      exact ⟨⟨by decide, by decide⟩, ⟨by decide, by decide⟩, ⟨by decide, by decide⟩,
        fun x hx => absurd hx List.not_mem_nil⟩
    · simp only [List.forall_mem_cons]
      exact ⟨by decide, by decide, by decide, fun x hx => absurd hx List.not_mem_nil⟩
  exact kfree_coalesces hc (by decide) 4115

end Heap

end Potatos
