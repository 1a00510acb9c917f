import Potatos.Mem.KheapChain

/-!
# What the heap operations do to the chain

`kmalloc` and `kfree` replace nodes of the chain by nodes over the same bytes (`Chain.replace`), or
change where the chain ends (`Chain.replace_last`). Taking a free node splits it, and a remainder at
or above `heap_head` is dropped from the chain, which then ends earlier. Freeing joins the node with
free neighbours; behind the last node it joins whatever header the bytes at the chain end spell, and
the chain stays one only where the joined node still reaches `heap_head` and does not wrap.
-/

namespace Potatos

open Lib

/-- A node joined with the one behind it. -/
def Node.absorb (x y : Node) : Node := { x with size := x.size + y.len }

namespace Heap

variable {h h' : Heap} {a b n v e e' cur fuel m₁ m₂ : ℕ} {s : BitVec 8} {nd x y p : Node}
  {nodes l r mid ms : List Node}

/-! ## Replacing nodes -/

/-- Headers that lie outside a changed range stay. -/
theorem sameHeader_of_frame (hframe : ∀ x, x < m₁ ∨ m₂ ≤ x → h'.mem x = h.mem x)
    (ha : a + 9 ≤ m₁ ∨ m₂ ≤ a) : SameHeader h h' a :=
  fun x h1 h2 => hframe x (by omega)

/-- Nodes replaced by nodes over the same bytes. -/
theorem Chain.replace (hc : h.Chain (l ++ (mid ++ r)) e) (hmid : mid ≠ [])
    (hold : Tiles Node.addr Node.len m₁ mid m₂) (hnew : Tiles Node.addr Node.len m₁ ms m₂)
    (hframe : ∀ x, x < m₁ ∨ m₂ ≤ x → h'.mem x = h.mem x)
    (hhead : h'.heap_head = h.heap_head) (hstart : h'.heap_start = h.heap_start)
    (hh : ∀ x ∈ ms, h'.Header x) (hb : ∀ x ∈ ms, x.addr < h.heap_head) :
    h'.Chain (l ++ (ms ++ r)) e := by
  -- The nodes before `mid` end where it starts, and those behind it start where it ends.
  obtain ⟨m, hl, hmr⟩ := tiles_append.mp hc.tiles
  obtain ⟨m', hm, hr⟩ := tiles_append.mp hmr
  obtain ⟨rfl, rfl⟩ := hm.ends_unique hold hmid
  -- No byte outside `mid` has changed, so the other headers read as before.
  have hheader : ∀ x ∈ l ++ r, h'.Header x := by
    intro x hx
    rcases List.mem_append.mp hx with hx | hx
    · have hbound := hl.bounds hx
      unfold Node.len at hbound
      exact (sameHeader_of_frame hframe (Or.inl (by omega))).header
        (hc.header x (List.mem_append_left _ hx))
    · have hbound := (hr.bounds hx).1
      exact (sameHeader_of_frame hframe (Or.inr (by omega))).header
        (hc.header x (List.mem_append_right _ (List.mem_append_right _ hx)))
  have hbelow : ∀ x ∈ l ++ r, x.addr < h.heap_head := by
    intro x hx
    rcases List.mem_append.mp hx with hx | hx
    · exact hc.below x (List.mem_append_left _ hx)
    · exact hc.below x (List.mem_append_right _ (List.mem_append_right _ hx))
  have hcases : ∀ x ∈ l ++ (ms ++ r), x ∈ ms ∨ x ∈ l ++ r := by
    intro x hx
    simp only [List.mem_append] at hx ⊢
    tauto
  refine ⟨?_, fun x hx => ?_, fun x hx => ?_, hhead ▸ hc.head_le, hc.lt_top⟩
  · rw [hstart]
    exact tiles_append.mpr ⟨m, hl, tiles_append.mpr ⟨m', hnew, hr⟩⟩
  · exact (hcases x hx).elim (hh x) (hheader x)
  · rw [hhead]
    exact (hcases x hx).elim (hb x) (hbelow x)

/-- The last nodes replaced by nodes that end elsewhere. -/
theorem Chain.replace_last (hc : h.Chain (l ++ mid) e) (hmid : mid ≠ [])
    (hold : Tiles Node.addr Node.len m₁ mid e) (hnew : Tiles Node.addr Node.len m₁ ms e')
    (hframe : ∀ x, x < m₁ → h'.mem x = h.mem x)
    (hhead : h'.heap_head = h.heap_head) (hstart : h'.heap_start = h.heap_start)
    (hh : ∀ x ∈ ms, h'.Header x) (hb : ∀ x ∈ ms, x.addr < h.heap_head)
    (hle : h.heap_head ≤ e') (htop : e' < 2^64) : h'.Chain (l ++ ms) e' := by
  obtain ⟨m, hl, hm⟩ := tiles_append.mp hc.tiles
  obtain ⟨rfl, -⟩ := hm.ends_unique hold hmid
  -- The nodes before `mid` are below everything that has changed.
  have hheader : ∀ x ∈ l, h'.Header x := by
    intro x hx
    have hbound := hl.bounds hx
    unfold Node.len at hbound
    have hsame : SameHeader h h' x.addr := fun z h1 h2 => hframe z (by omega)
    exact hsame.header (hc.header x (List.mem_append_left _ hx))
  refine ⟨?_, fun x hx => ?_, fun x hx => ?_, hhead ▸ hle, htop⟩
  · rw [hstart]
    exact tiles_append.mpr ⟨m, hl, hnew⟩
  · exact (List.mem_append.mp hx).elim (hheader x) (hh x)
  · rw [hhead]
    exact (List.mem_append.mp hx).elim (fun hx => hc.below x (List.mem_append_left _ hx)) (hb x)

/-- A change of the header of one node, of the status only. -/
theorem Chain.setStatus (hc : h.Chain (l ++ nd :: r) e) :
    (h.setStatus nd.addr s).Chain (l ++ { nd with status := s } :: r) e := by
  have hbelow := hc.below_mid
  have hnew : Tiles Node.addr Node.len nd.addr [{ nd with status := s }] (nd.addr + nd.len) :=
    ⟨rfl, rfl⟩
  have hold : Tiles Node.addr Node.len nd.addr [nd] (nd.addr + nd.len) := tiles_single
  have hc' : h.Chain (l ++ ([nd] ++ r)) e := hc
  refine hc'.replace (by simp) hold hnew (fun x hx => ?_) rfl rfl ?_ ?_
  · exact setStatus_only.1 x (by unfold Node.len at hx; omega)
  · intro x hx
    obtain rfl := List.mem_singleton.mp hx
    exact ⟨by rw [size_setStatus]; exact hc.header_mid.1, status_setStatus⟩
  · intro x hx
    obtain rfl := List.mem_singleton.mp hx
    exact hbelow

/-! ## `kmalloc` -/

/-- What taking a free node for `n` bytes leaves of it on the chain. -/
def takeNode (n head : ℕ) (nd : Node) : List Node :=
  if n + 9 < nd.size then
    if nd.addr + n + 9 < head then
      [⟨nd.addr, n, HEAP_ALLOCATION_USED⟩,
        ⟨nd.addr + n + 9, nd.size - (n + 9), HEAP_ALLOCATION_FREE⟩]
    else [⟨nd.addr, n, HEAP_ALLOCATION_USED⟩]
  else [{ nd with status := HEAP_ALLOCATION_USED }]

/-- Where `kmalloc` puts the node of `n` bytes: at the first node that fits, or at the chain end. -/
def placeOf (n : ℕ) (nodes : List Node) (e : ℕ) : ℕ :=
  ((nodes.find? (Node.fits n)).map Node.addr).getD e

/-- Where `kmalloc` writes a header at a new place: behind what it takes of a node, or at the chain
end. -/
def newHeader (n : ℕ) (nodes : List Node) (e : ℕ) : Option ℕ :=
  match nodes.find? (Node.fits n) with
  | some nd => if n + 9 < nd.size then some (nd.addr + n + 9) else none
  | none => some e

theorem find_fits (hl : ∀ x ∈ l, x.fits n = false) (hnd : nd.fits n = true) :
    (l ++ nd :: r).find? (Node.fits n) = some nd := by
  have hnone : l.find? (Node.fits n) = none :=
    List.find?_eq_none.mpr (fun x hx => by rw [hl x hx]; decide)
  rw [List.find?_append, hnone, List.find?_cons_of_pos hnd]
  rfl

theorem find_fits_none (hnone : ∀ x ∈ nodes, x.fits n = false) :
    nodes.find? (Node.fits n) = none :=
  List.find?_eq_none.mpr (fun x hx => by rw [hnone x hx]; decide)

/-- A taken node leaves its header where it was, and the one of the rest. -/
theorem takeNode_addr (hx : x ∈ takeNode n a nd) :
    x.addr = nd.addr ∨ (n + 9 < nd.size ∧ x.addr = nd.addr + n + 9) := by
  unfold takeNode at hx
  split at hx
  · rename_i hs
    split at hx
    · rcases List.mem_cons.mp hx with rfl | hx
      · exact Or.inl rfl
      · obtain rfl := List.mem_singleton.mp hx
        exact Or.inr ⟨hs, rfl⟩
    · obtain rfl := List.mem_singleton.mp hx
      exact Or.inl rfl
  · obtain rfl := List.mem_singleton.mp hx
    exact Or.inl rfl

/-- Taking a free node puts a USED node of at least the requested size where it was, and within
it. -/
theorem takeNode_used (hn : n ≤ nd.size) :
    ∃ k, n ≤ k ∧ k ≤ nd.size ∧ ⟨nd.addr, k, HEAP_ALLOCATION_USED⟩ ∈ takeNode n a nd := by
  unfold takeNode
  split
  · refine ⟨n, le_refl n, hn, ?_⟩
    split <;> exact List.mem_cons_self ..
  · exact ⟨nd.size, hn, le_refl _, List.mem_cons_self ..⟩

theorem reuse_ptr (hlt : nd.addr + 9 < 2^64) : (h.reuse n nd.addr).ptr = nd.addr + 9 :=
  addw_of_lt hlt

/-- The heap after taking a node that is split. -/
theorem reuse_split (hn : n + 9 < nd.size) (hh : h.Header nd) (hlt : nd.size < 2^64) :
    (h.reuse n nd.addr).heap =
      (h.setStatus nd.addr HEAP_ALLOCATION_USED).split nd.addr n (nd.size - (n + 9)) := by
  have hsize : (h.setStatus nd.addr HEAP_ALLOCATION_USED).size nd.addr = nd.size := by
    rw [size_setStatus]
    exact hh.1
  have hneed : addw n 9 = n + 9 := addw_of_lt (by omega)
  unfold reuse
  dsimp only
  rw [hsize, hneed, if_pos hn, subw_of_le (le_of_lt hn) hlt]

/-- The heap after taking a node that is not split. -/
theorem reuse_whole (hn : ¬ n + 9 < nd.size) (hle : n ≤ nd.size) (hh : h.Header nd)
    (hlt : nd.size + 9 < 2^64) :
    (h.reuse n nd.addr).heap = h.setStatus nd.addr HEAP_ALLOCATION_USED := by
  have hsize : (h.setStatus nd.addr HEAP_ALLOCATION_USED).size nd.addr = nd.size := by
    rw [size_setStatus]
    exact hh.1
  have hneed : addw n 9 = n + 9 := addw_of_lt (by omega)
  unfold reuse
  dsimp only
  rw [hsize, hneed, if_neg hn]

/-- The two headers that a split leaves, and what it leaves alone. -/
theorem Chain.reuse_split (hc : h.Chain (l ++ nd :: r) e) (hs : n + 9 < nd.size) :
    (h.reuse n nd.addr).heap.Header ⟨nd.addr, n, HEAP_ALLOCATION_USED⟩ ∧
      (h.reuse n nd.addr).heap.Header
        ⟨nd.addr + n + 9, nd.size - (n + 9), HEAP_ALLOCATION_FREE⟩ ∧
      (∀ x, x < nd.addr ∨ nd.addr + nd.len ≤ x → (h.reuse n nd.addr).heap.mem x = h.mem x) ∧
      (h.reuse n nd.addr).heap.heap_head = h.heap_head ∧
      (h.reuse n nd.addr).heap.heap_start = h.heap_start := by
  have hbounds := hc.bounds_mid
  have htop := hc.lt_top
  rw [Heap.reuse_split hs hc.header_mid (by omega)]
  obtain ⟨hA, hB, hframe, hhead, hstart⟩ :=
    (h.setStatus nd.addr HEAP_ALLOCATION_USED).split_spec
      (by omega : nd.addr + n + 9 < 2^64) (by omega : nd.size - (n + 9) < 2^64)
  refine ⟨hA, hB, fun x hx => ?_, hhead, hstart⟩
  unfold Node.len at hx
  rw [hframe x (by omega) (by omega)]
  exact setStatus_only.1 x (by omega)

/-- The two parts of a split cover the node. -/
theorem split_tiles (hs : n + 9 < nd.size) :
    Tiles Node.addr Node.len nd.addr [⟨nd.addr, n, HEAP_ALLOCATION_USED⟩,
      ⟨nd.addr + n + 9, nd.size - (n + 9), HEAP_ALLOCATION_FREE⟩] (nd.addr + nd.len) := by
  refine ⟨rfl, ?_, ?_⟩ <;> simp only [tiles_nil, Node.len] <;> omega

/-- A remainder below `heap_head` is on the chain. -/
theorem Chain.reuse_kept (hc : h.Chain (l ++ nd :: r) e) (hs : n + 9 < nd.size)
    (hB : nd.addr + n + 9 < h.heap_head) :
    (h.reuse n nd.addr).heap.Chain (l ++ (takeNode n h.heap_head nd ++ r)) e := by
  obtain ⟨hused, hfree, hmem, hhead, hstart⟩ := hc.reuse_split hs
  have hold : Tiles Node.addr Node.len nd.addr [nd] (nd.addr + nd.len) := tiles_single
  have hc' : h.Chain (l ++ ([nd] ++ r)) e := hc
  rw [takeNode, if_pos hs, if_pos hB]
  refine hc'.replace (by simp) hold (split_tiles hs) hmem hhead hstart ?_ ?_
  · simp only [List.forall_mem_cons]
    exact ⟨hused, hfree, fun x hx => absurd hx List.not_mem_nil⟩
  · simp only [List.forall_mem_cons]
    exact ⟨hc.below_mid, hB, fun x hx => absurd hx List.not_mem_nil⟩

/-- A node that reaches `heap_head` is the last one. -/
theorem Chain.last_of_head_le (hc : h.Chain (l ++ nd :: r) e)
    (hle : h.heap_head ≤ nd.addr + nd.len) : r = [] := by
  rcases r with _ | ⟨y, r⟩
  · rfl
  · have h1 := hc.around.2 y (List.mem_cons_self ..)
    have h2 := hc.below y (by simp)
    unfold Node.len at hle
    omega

/-- The last node of a chain reaches its end. -/
theorem Chain.tiles_last (hc : h.Chain (l ++ [nd]) e) :
    Tiles Node.addr Node.len nd.addr [nd] e := by
  obtain ⟨m, -, hm⟩ := tiles_append.mp hc.tiles
  exact ⟨rfl, hm.1 ▸ hm.2⟩

/-- A remainder at or above `heap_head` is not on the chain, which ends where it starts. -/
theorem Chain.reuse_dropped (hc : h.Chain (l ++ nd :: r) e) (hs : n + 9 < nd.size)
    (hB : h.heap_head ≤ nd.addr + n + 9) :
    (h.reuse n nd.addr).heap.Chain (l ++ (takeNode n h.heap_head nd ++ r)) (nd.addr + n + 9) := by
  obtain ⟨hused, -, hmem, hhead, hstart⟩ := hc.reuse_split hs
  -- The rest of the node starts at `heap_head` or above, so the node is the last, and the walk
  -- stops before the rest.
  obtain rfl := hc.last_of_head_le (by unfold Node.len; omega)
  have hbounds := hc.bounds_mid
  have htop := hc.lt_top
  rw [takeNode, if_pos hs, if_neg (by omega), List.append_nil]
  have hnew : Tiles Node.addr Node.len nd.addr [⟨nd.addr, n, HEAP_ALLOCATION_USED⟩]
      (nd.addr + n + 9) := by
    refine ⟨rfl, ?_⟩
    simp only [tiles_nil, Node.len]
    omega
  refine hc.replace_last (by simp) hc.tiles_last hnew (fun x hx => hmem x (Or.inl hx)) hhead hstart
    ?_ ?_ hB (by omega)
  · simp only [List.forall_mem_singleton]
    exact hused
  · simp only [List.forall_mem_singleton]
    exact hc.below_mid

/-- Taking a node leaves the bytes outside it. -/
theorem Chain.reuse_frame (hc : h.Chain (l ++ nd :: r) e) (hn : n ≤ nd.size) {x : ℕ}
    (hx : x < nd.addr ∨ nd.addr + nd.len ≤ x) : (h.reuse n nd.addr).heap.mem x = h.mem x := by
  have hbounds := hc.bounds_mid
  have htop := hc.lt_top
  by_cases hs : n + 9 < nd.size
  · exact (hc.reuse_split hs).2.2.1 x hx
  · rw [reuse_whole hs hn hc.header_mid (by omega)]
    unfold Node.len at hx
    exact setStatus_only.1 x (by omega)

/-- Where the chain ends after a free node was taken. -/
def takenEnd (n head : ℕ) (nd : Node) (e : ℕ) : ℕ :=
  if n + 9 < nd.size ∧ head ≤ nd.addr + n + 9 then nd.addr + n + 9 else e

theorem Chain.takenEnd_le (hc : h.Chain (l ++ nd :: r) e) :
    takenEnd n h.heap_head nd e ≤ e := by
  have hbounds := hc.bounds_mid
  unfold takenEnd
  split <;> omega

/-- Taking a free node of the chain: it is replaced by what `takeNode` says, and the chain ends
where it did or, when the remainder of the last node is dropped, earlier. -/
theorem Chain.reuse (hc : h.Chain (l ++ nd :: r) e) (hn : n ≤ nd.size) :
    (h.reuse n nd.addr).heap.Chain (l ++ (takeNode n h.heap_head nd ++ r))
      (takenEnd n h.heap_head nd e) := by
  have hbounds := hc.bounds_mid
  have htop := hc.lt_top
  unfold takenEnd
  by_cases hs : n + 9 < nd.size
  · by_cases hB : nd.addr + n + 9 < h.heap_head
    · rw [if_neg (by omega)]
      exact hc.reuse_kept hs hB
    · rw [if_pos (by omega)]
      exact hc.reuse_dropped hs (by omega)
  · rw [if_neg (fun h => hs h.1), reuse_whole hs hn hc.header_mid (by omega), takeNode, if_neg hs]
    exact hc.setStatus

/-- A node appended at the chain end. -/
theorem Chain.append (hc : h.Chain nodes e) (hn : e + 9 + n < 2^64) :
    (h.append n e).ptr = e + 9 ∧
      (h.append n e).heap.Chain (nodes ++ [⟨e, n, HEAP_ALLOCATION_USED⟩]) (e + 9 + n) := by
  have hret : addw e 9 = e + 9 := addw_of_lt (by omega)
  have hle := hc.head_le
  unfold Heap.append
  dsimp only
  rw [hret]
  refine ⟨rfl, ?_⟩
  have hframe : ∀ x, x < e →
      ((h.setSize e n).setStatus e HEAP_ALLOCATION_USED).mem x = h.mem x :=
    fun x hx => (setSize_only.trans setStatus_only).1 x (Or.inl hx)
  have hnew : Tiles Node.addr Node.len e [⟨e, n, HEAP_ALLOCATION_USED⟩] (e + 9 + n) :=
    ⟨rfl, (Nat.add_assoc e 9 n).symm⟩
  -- The old nodes end before the new header, and `heap_head` is right behind it.
  refine ⟨tiles_append.mpr ⟨e, hc.tiles, hnew⟩, fun x hx => ?_, fun x hx => ?_, ?_, hn⟩
  · rcases List.mem_append.mp hx with hx | hx
    · have hbound := hc.bounds hx
      have hsame : SameHeader h ((h.setSize e n).setStatus e HEAP_ALLOCATION_USED) x.addr :=
        fun z h1 h2 => hframe z (by omega)
      exact hsame.header (hc.header x hx)
    · obtain rfl := List.mem_singleton.mp hx
      have hsize : ((h.setSize e n).setStatus e HEAP_ALLOCATION_USED).size e = n := by
        rw [size_setStatus, size_setSize (by omega)]
      exact ⟨hsize, status_setStatus⟩
  · rcases List.mem_append.mp hx with hx | hx
    · have hbound := hc.bounds hx
      show x.addr < e + 9
      omega
    · obtain rfl := List.mem_singleton.mp hx
      show e < e + 9
      omega
  · show e + 9 ≤ e + 9 + n
    omega

/-! ## `kfree` -/

/-- Writing the joint size into the first of two nodes joins them. -/
theorem Chain.absorb (hc : h.Chain (l ++ x :: y :: r) e) :
    (h.setSize x.addr (addw x.size (addw y.size 9))).Chain (l ++ Node.absorb x y :: r) e := by
  have hbounds := hc.bounds_mid
  have hmem : y ∈ l ++ x :: y :: r := by simp
  have hy := hc.bounds hmem
  have hapart := hc.around.2 y (List.mem_cons_self ..)
  have htop := hc.lt_top
  have hsum : addw x.size (addw y.size 9) = x.size + y.len := by
    unfold Node.len
    rw [addw_of_lt (by omega : y.size + 9 < 2^64), addw_of_lt (by omega), add_comm 9 y.size]
  -- The two nodes cover what the joint one covers.
  have hpair : Tiles Node.addr Node.len x.addr [x, y] (x.addr + x.len + y.len) := by
    obtain ⟨m, -, hm⟩ := tiles_append.mp hc.tiles
    exact ⟨rfl, hm.1 ▸ hm.2.1, rfl⟩
  rw [hsum]
  have hjoint : Tiles Node.addr Node.len x.addr [Node.absorb x y] (x.addr + x.len + y.len) := by
    refine ⟨rfl, ?_⟩
    simp only [tiles_nil, Node.len, Node.absorb]
    omega
  have hc' : h.Chain (l ++ ([x, y] ++ r)) e := hc
  refine hc'.replace (by simp) hpair hjoint (fun z hz => ?_) rfl rfl ?_ ?_
  · -- Only the size of the first is written.
    exact setSize_only.1 z (by unfold Node.len at hz; omega)
  · intro z hz
    obtain rfl := List.mem_singleton.mp hz
    have hlt : x.size + y.len < 2^64 := by unfold Node.len; omega
    exact ⟨size_setSize hlt, status_setSize.trans hc.header_mid.2⟩
  · intro z hz
    obtain rfl := List.mem_singleton.mp hz
    exact hc.below_mid

/-- A new size of the last node moves the chain end. -/
theorem Chain.resize_last (hc : h.Chain (l ++ [x]) e) (hle : h.heap_head ≤ x.addr + 9 + v)
    (htop : x.addr + 9 + v < 2^64) :
    (h.setSize x.addr v).Chain (l ++ [{ x with size := v }]) (x.addr + 9 + v) := by
  refine hc.replace_last (by simp) hc.tiles_last ⟨rfl, ?_⟩
    (fun z hz => setSize_only.1 z (Or.inl hz)) rfl rfl ?_ ?_ hle htop
  · simp only [tiles_nil, Node.len]
    omega
  · intro z hz
    obtain rfl := List.mem_singleton.mp hz
    exact ⟨size_setSize (by omega), status_setSize.trans hc.header_mid.2⟩
  · intro z hz
    obtain rfl := List.mem_singleton.mp hz
    exact hc.below_mid

/-- The size that `kheap_merge` gives a node when it joins the header at `next` to it. -/
def joinedSize (h : Heap) (x : Node) (next : ℕ) : ℕ := addw x.size (addw (h.size next) 9)

/-- The last node of the chain may be joined with the bytes behind it: they do not read as FREE, or
the joined node still reaches `heap_head` and leaves room for a header. -/
def EndJoins (h : Heap) (x : Node) (e : ℕ) : Prop :=
  h.status e = HEAP_ALLOCATION_FREE →
    h.heap_head ≤ x.addr + 9 + h.joinedSize x e ∧ x.addr + 9 + h.joinedSize x e + 9 ≤ 2^64

instance (h : Heap) (x : Node) (e : ℕ) : Decidable (h.EndJoins x e) :=
  inferInstanceAs (Decidable (_ → _ ∧ _))

/-- The first half of `kheap_merge`. -/
def mergeNext (h : Heap) (current_node next : ℕ) : Heap :=
  if next ≠ 0 ∧ h.status next = HEAP_ALLOCATION_FREE then
    h.setSize current_node (addw (h.size current_node) (addw (h.size next) 9))
  else h

/-- The second half of `kheap_merge`. -/
def mergePrevious (h : Heap) (current_node previous : ℕ) : Heap :=
  if previous ≠ 0 ∧ h.status previous = HEAP_ALLOCATION_FREE then
    h.setSize previous (addw (h.size previous) (addw (h.size current_node) 9))
  else h

theorem kheapMerge_eq : h.kheapMerge cur a b = (h.mergeNext cur a).mergePrevious cur b := rfl

/-- The first half of `kheap_merge` on a node of the chain keeps a chain, with the same USED nodes
behind it. -/
theorem Chain.mergeNext (hc : h.Chain (l ++ x :: r) e) (hroom : e + 9 ≤ 2^64)
    (hend : r = [] → h.EndJoins x e) :
    ∃ x' r' e', (h.mergeNext x.addr (x.addr + x.len)).Chain (l ++ x' :: r') e' ∧
      x'.addr = x.addr ∧ e' + 9 ≤ 2^64 ∧ r' ⊆ r ∧
      ∀ y ∈ r, y.status = HEAP_ALLOCATION_USED → y ∈ r' := by
  obtain ⟨m, -, hm⟩ := tiles_append.mp hc.tiles
  have hsize := hc.header_mid.1
  unfold Heap.mergeNext
  by_cases hf : h.status (x.addr + x.len) = HEAP_ALLOCATION_FREE
  · have hnz : x.addr + x.len ≠ 0 := by unfold Node.len; omega
    rw [if_pos ⟨hnz, hf⟩, hsize]
    cases r with
    | nil =>
      -- What is behind the last node is not on the chain, and may read as FREE.
      have he : x.addr + x.len = e := hm.1 ▸ hm.2
      rw [he] at hf ⊢
      obtain ⟨hle, htop⟩ := hend rfl hf
      unfold joinedSize at hle htop
      exact ⟨_, [], _, hc.resize_last hle (by omega), rfl, htop, List.nil_subset _,
        fun y hy => absurd hy List.not_mem_nil⟩
    | cons y r =>
      -- A node that is merged away is FREE, so the USED ones stay.
      have hy : x.addr + x.len = y.addr := by rw [hm.1]; exact hm.2.1.symm
      have hh := hc.header y (by simp)
      rw [hy, hh.1]
      rw [hy, hh.2] at hf
      refine ⟨x.absorb y, r, e, hc.absorb, rfl, hroom, List.subset_cons_self ..,
        fun z hz hused => ?_⟩
      rcases List.mem_cons.mp hz with heq | hz
      · rw [heq, hf] at hused
        exact absurd hused (by decide)
      · exact hz
  · rw [if_neg (fun hn => hf hn.2)]
    exact ⟨x, r, e, hc, rfl, hroom, List.Subset.refl r, fun y hy _ => hy⟩

/-- The second half of `kheap_merge` on a node of the chain and the one before it. -/
theorem Chain.mergePrevious (hc : h.Chain (l ++ x :: r) e) :
    ∃ nodes', (h.mergePrevious x.addr (lastAddr 0 l)).Chain nodes' e ∧
      nodes'.map Node.addr ⊆ (l ++ x :: r).map Node.addr ∧
      ∀ y ∈ l ++ r, y.status = HEAP_ALLOCATION_USED → y ∈ nodes' := by
  unfold Heap.mergePrevious
  by_cases hf : lastAddr 0 l ≠ 0 ∧ h.status (lastAddr 0 l) = HEAP_ALLOCATION_FREE
  · rw [if_pos hf]
    rcases List.eq_nil_or_concat l with rfl | ⟨l, p, rfl⟩
    · exact absurd rfl hf.1
    · have hlast : lastAddr 0 (l ++ [p]) = p.addr := by simp [lastAddr]
      rw [List.concat_eq_append] at hc hf ⊢
      have hc' : h.Chain (l ++ p :: x :: r) e := by simpa using hc
      have hx := hc'.header x (by simp)
      rw [hlast] at hf ⊢
      rw [hc'.header_mid.1, hx.1]
      rw [hc'.header_mid.2] at hf
      have haddrs : (l ++ p.absorb x :: r).map Node.addr ⊆ (l ++ [p] ++ x :: r).map Node.addr := by
        have hp : (p.absorb x).addr = p.addr := rfl
        intro a ha
        simp only [List.map_append, List.map_cons, hp, List.mem_append, List.mem_cons] at ha ⊢
        tauto
      refine ⟨_, hc'.absorb, haddrs, fun y hy hused => ?_⟩
      -- The node before is FREE, so it is none of the USED ones.
      have hne : y ≠ p := Node.ne_of_used hused hf.2
      simp only [List.mem_append, List.mem_cons] at hy ⊢
      tauto
  · rw [if_neg hf]
    exact ⟨_, hc, List.Subset.refl _, fun y hy _ => mem_of_rest hy⟩

/-- What `kfree` does to a USED node of the chain: there is a chain again, with the other USED nodes
of the old one, and with no header at a new place. -/
theorem Chain.kfree (hc : h.Chain (l ++ nd :: r) e) (hroom : e + 9 ≤ 2^64)
    (hused : nd.status = HEAP_ALLOCATION_USED)
    (hend : r = [] → h.EndJoins nd e) {res : Heap}
    (hres : h.kfree fuel (nd.addr + 9) = some res) :
    ∃ nodes' e', res.Chain nodes' e' ∧ e' + 9 ≤ 2^64 ∧ res.heap_start = h.heap_start ∧
      nodes'.map Node.addr ⊆ (l ++ nd :: r).map Node.addr ∧
      ∀ y ∈ l ++ r, y.status = HEAP_ALLOCATION_USED → y ∈ nodes' := by
  have hbounds := hc.bounds_mid
  have hptr : subw (nd.addr + 9) 9 = nd.addr := by unfold subw; omega
  unfold Heap.kfree at hres
  rw [hptr] at hres
  have heq := kfreeLoop_chain hc.tiles hc.lt_top hc.header hc.below hused hres
  rw [kheapMerge_eq] at heq
  have hfree : (h.setStatus nd.addr HEAP_ALLOCATION_FREE).Chain
      (l ++ { nd with status := HEAP_ALLOCATION_FREE } :: r) e := hc.setStatus
  have hend' : r = [] → (h.setStatus nd.addr HEAP_ALLOCATION_FREE).EndJoins
      { nd with status := HEAP_ALLOCATION_FREE } e := by
    rintro rfl hstatus
    -- the header at the chain end lies behind the freed node
    have hsame : SameHeader h (h.setStatus nd.addr HEAP_ALLOCATION_FREE) e :=
      setStatus_only.same (Or.inr (by omega))
    rw [hsame.status_eq] at hstatus
    have hold := hend rfl hstatus
    unfold joinedSize at hold ⊢
    rw [hsame.size_eq]
    exact hold
  obtain ⟨x', r', e', hc', haddr, hroom', hsub, hr'⟩ := hfree.mergeNext hroom hend'
  have hstart : ((h.setStatus nd.addr HEAP_ALLOCATION_FREE).mergeNext nd.addr
      (nd.addr + nd.len)).heap_start = h.heap_start := by
    unfold Heap.mergeNext
    split <;> rfl
  obtain ⟨nodes', hc'', haddrs, hl⟩ := hc'.mergePrevious
  have haddrs' : (l ++ x' :: r').map Node.addr ⊆ (l ++ nd :: r).map Node.addr := by
    intro a ha
    simp only [List.map_append, List.map_cons, haddr, List.mem_append, List.mem_cons] at ha ⊢
    rcases ha with ha | ha | ha
    · exact Or.inl ha
    · exact Or.inr (Or.inl ha)
    · exact Or.inr (Or.inr (List.map_subset _ hsub ha))
  rw [haddr] at hc''
  refine ⟨nodes', e', heq ▸ hc'', hroom', ?_, List.Subset.trans haddrs haddrs',
    fun y hy hyused => ?_⟩
  · rw [heq]
    unfold Heap.mergePrevious
    split <;> exact hstart
  · refine hl y ?_ hyused
    rcases List.mem_append.mp hy with hy | hy
    · exact List.mem_append_left _ hy
    · exact List.mem_append_right _ (hr' y hy hyused)

end Heap

end Potatos
