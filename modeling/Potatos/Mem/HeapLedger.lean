import Mathlib.Data.List.Perm.Lattice
import Potatos.Mem.HeapFrame

/-!
# The books of the heap

What the heap keeps account of over a whole run. The USED nodes of the chain are those of the live
blocks, one for each and at most nine bytes larger than what was asked for, and of the FREE nodes no
two follow one another (`Balanced`). Nothing is lost, then: a run that frees all its blocks leaves
one FREE node, and the chain is never longer than twice the number of live blocks, and one.

The steps are those that are `Sound`. The last node, when it is freed, may be joined with what the
bytes behind it read as, and is one FREE node also then.
-/

namespace Potatos

open Lib

namespace Heap

variable {h : Heap} {n e cur fuel : ℕ} {nd x y : Node} {nodes l r : List Node}

/-! ## Nodes and their neighbours -/

/-- A list without two FREE nodes that follow one another has few of them. -/
theorem length_le_of_noAdjacentFree (hapart : NoAdjacentFree nodes) :
    nodes.length ≤ 2 * nodes.countP (fun nd => nd.status ≠ HEAP_ALLOCATION_FREE) + 1 := by
  -- With a FREE node in front there is one more at most, and otherwise none.
  have hstrong : nodes.length + (if ∀ x ∈ nodes.head?, x.status ≠ HEAP_ALLOCATION_FREE then 1
      else 0) ≤ 2 * nodes.countP (fun nd => nd.status ≠ HEAP_ALLOCATION_FREE) + 1 := by
    induction nodes with
    | nil => simp
    | cons x nodes ih =>
      obtain ⟨-, hrest, hx⟩ := (noAdjacentFree_mid (l := [])).mp hapart
      have ih := ih hrest
      rw [List.length_cons, List.countP_cons]
      by_cases hfree : x.status = HEAP_ALLOCATION_FREE
      · rw [if_pos (hx hfree).2] at ih
        simp only [List.head?_cons, Option.mem_some_iff, forall_eq', hfree]
        simp only [ne_eq, not_true_eq_false, decide_false, if_false]
        simpa using ih
      · simp only [List.head?_cons, Option.mem_some_iff, forall_eq']
        rw [if_pos hfree, if_pos (by simpa using hfree)]
        have hle : nodes.length ≤
            2 * nodes.countP (fun nd => nd.status ≠ HEAP_ALLOCATION_FREE) + 1 :=
          le_trans (Nat.le_add_right ..) ih
        omega
  exact le_trans (Nat.le_add_right ..) hstrong

/-- Joining a FREE node with the one before it leaves the nodes that are not FREE. -/
theorem mem_joinPrevious (hx : x.status = HEAP_ALLOCATION_FREE)
    (hy : y.status ≠ HEAP_ALLOCATION_FREE) : y ∈ joinPrevious l x r ↔ y ∈ l ++ r := by
  have hyx : y ≠ x := fun heq => hy (heq ▸ hx)
  rcases List.eq_nil_or_concat l with rfl | ⟨l, q, rfl⟩
  · rw [joinPrevious_nil, List.mem_cons]
    exact ⟨fun h => h.resolve_left hyx, Or.inr⟩
  · rw [List.concat_eq_append, joinPrevious_concat]
    split_ifs with hfree
    · have hyq : y ≠ q := fun heq => hy (heq ▸ hfree)
      have hyj : y ≠ q.absorb x := fun heq => hy (heq ▸ hfree)
      simp only [List.mem_append, List.mem_cons, List.not_mem_nil, hyq, hyj, false_or, or_false]
    · simp only [List.mem_append, List.mem_cons, List.not_mem_nil, hyx, false_or, or_false]
      tauto

/-- What taking a FREE node leaves: the USED one, and FREE ones behind it. -/
theorem takeNode_split (cur : ℕ) (hn : n ≤ nd.size) : ∃ k rest,
    takeNode n cur nd = ⟨nd.addr, k, HEAP_ALLOCATION_USED⟩ :: rest ∧ n ≤ k ∧ k ≤ n + 9 ∧
      (rest = [] ∨ ∃ z, rest = [z] ∧ z.status = HEAP_ALLOCATION_FREE) := by
  unfold takeNode
  split_ifs with hs hB
  · exact ⟨n, _, rfl, le_refl n, by omega, Or.inr ⟨_, rfl, rfl⟩⟩
  · exact ⟨n, [], rfl, le_refl n, by omega, Or.inl rfl⟩
  · exact ⟨nd.size, [], rfl, hn, by omega, Or.inl rfl⟩

/-- A FREE node that was taken had no FREE neighbours, so neither has what is left of it. -/
theorem noAdjacentFree_takeNode (cur : ℕ) (hapart : NoAdjacentFree (l ++ nd :: r))
    (hfree : nd.status = HEAP_ALLOCATION_FREE) (hn : n ≤ nd.size) :
    NoAdjacentFree (l ++ (takeNode n cur nd ++ r)) := by
  obtain ⟨hl, hr, hnd⟩ := noAdjacentFree_mid.mp hapart
  obtain ⟨k, rest, htake, -, -, hrest⟩ := takeNode_split cur hn
  have hused : (⟨nd.addr, k, HEAP_ALLOCATION_USED⟩ : Node).status ≠ HEAP_ALLOCATION_FREE := by
    show HEAP_ALLOCATION_USED ≠ HEAP_ALLOCATION_FREE
    decide
  rw [htake, List.cons_append]
  refine noAdjacentFree_mid.mpr ⟨hl, ?_, fun h => absurd h hused⟩
  rcases hrest with rfl | ⟨z, rfl, -⟩
  · exact hr
  · have hz : NoAdjacentFree ([] ++ z :: r) :=
      noAdjacentFree_mid.mpr ⟨List.isChain_nil, hr, fun _ => ⟨by simp, (hnd hfree).2⟩⟩
    exact hz

/-! ## `kfree` -/

/-- The first half of `kheap_merge`, on a FREE node: it is joined with a FREE one behind it, or none
is behind it, or that is not FREE. -/
theorem Chain.mergeNext_free (hc : h.Chain (l ++ x :: r) e) (hend : r = [] → h.EndJoins x e) :
    ∃ x' r' e', (h.mergeNext x.addr (x.addr + x.len)).Chain (l ++ x' :: r') e' ∧
      x'.addr = x.addr ∧ x'.status = x.status ∧
      ((r' = r ∧ ∀ y ∈ r.head?, y.status ≠ HEAP_ALLOCATION_FREE) ∨
        ∃ y, r = y :: r' ∧ y.status = HEAP_ALLOCATION_FREE) := by
  obtain ⟨m, -, hm⟩ := tiles_append.mp hc.tiles
  unfold Heap.mergeNext
  cases r with
  | nil =>
    -- What the bytes at the chain end read as, the node is the last one.
    have he : x.addr + x.len = e := hm.1 ▸ hm.2
    rw [he]
    split_ifs with hf
    · obtain ⟨hle, htop⟩ := hend rfl hf.2
      unfold joinedSize at hle htop
      rw [hc.header_mid.1]
      exact ⟨_, [], _, hc.resize_last hle (by omega), rfl, rfl, Or.inl ⟨rfl, by simp⟩⟩
    · exact ⟨x, [], e, hc, rfl, rfl, Or.inl ⟨rfl, by simp⟩⟩
  | cons y r =>
    have hy : x.addr + x.len = y.addr := by
      rw [hm.1]
      exact hm.2.1.symm
    have hh := hc.header y (by simp)
    have hnz : y.addr ≠ 0 := by
      rw [← hy]
      unfold Node.len
      omega
    rw [hy]
    split_ifs with hf
    · rw [hc.header_mid.1, hh.1]
      exact ⟨x.absorb y, r, e, hc.absorb, rfl, rfl, Or.inr ⟨y, rfl, hh.2.symm.trans hf.2⟩⟩
    · refine ⟨x, y :: r, e, hc, rfl, rfl, Or.inl ⟨rfl, fun z hz hfree => hf ⟨hnz, ?_⟩⟩⟩
      obtain rfl := Option.mem_some_iff.mp hz
      exact hh.2.trans hfree

/-- The nodes after `kfree` of a USED node, the last one included. -/
theorem Chain.kfree_nodes (hc : h.Chain (l ++ nd :: r) e) (hstart : 0 < h.heap_start)
    (hend : r = [] → h.EndJoins nd e) :
    ∃ x r' e', (h.freed l nd).Chain (joinPrevious l x r') e' ∧
      x.status = HEAP_ALLOCATION_FREE ∧
      ((r' = r ∧ ∀ y ∈ r.head?, y.status ≠ HEAP_ALLOCATION_FREE) ∨
        ∃ y, r = y :: r' ∧ y.status = HEAP_ALLOCATION_FREE) := by
  have hfree : (h.setStatus nd.addr HEAP_ALLOCATION_FREE).Chain
      (l ++ { nd with status := HEAP_ALLOCATION_FREE } :: r) e := hc.setStatus
  have hend' : r = [] → (h.setStatus nd.addr HEAP_ALLOCATION_FREE).EndJoins
      { nd with status := HEAP_ALLOCATION_FREE } e := by
    rintro rfl hstatus
    have hbounds := hc.bounds_mid
    -- The header at the chain end lies behind the freed node.
    have hsame : SameHeader h (h.setStatus nd.addr HEAP_ALLOCATION_FREE) e :=
      setStatus_only.same (Or.inr (by omega))
    rw [hsame.status_eq] at hstatus
    have hold := hend rfl hstatus
    unfold joinedSize at hold ⊢
    rw [hsame.size_eq]
    exact hold
  obtain ⟨x, r', e', hc', haddr, hstatus, hr⟩ := hfree.mergeNext_free hend'
  have hroot : 0 < ((h.setStatus nd.addr HEAP_ALLOCATION_FREE).mergeNext nd.addr
      (nd.addr + nd.len)).heap_start := by
    rw [mergeNext_only.2.2]
    exact hstart
  have hjoined := hc'.mergePrevious_eq hroot
  rw [haddr] at hjoined
  exact ⟨x, r', e', hjoined, hstatus, hr⟩

end Heap

namespace Client

/-! ## The invariant -/

/-- The nodes that are not FREE are USED, each by a live block that it exceeds by nine bytes at
most, and no two FREE nodes follow one another. -/
structure Balanced (c : Client) (nodes : List Node) (e : ℕ) : Prop where
  owned : c.Owned nodes e
  start : 0 < c.heap.heap_start
  used : ∀ nd ∈ nodes, nd.status ≠ HEAP_ALLOCATION_FREE → nd.status = HEAP_ALLOCATION_USED ∧
    ∃ n, (nd.addr + 9, n) ∈ c.live ∧ n ≤ nd.size ∧ nd.size ≤ n + 9
  apart : Heap.NoAdjacentFree nodes

variable {c c' : Client} {op : HeapOp} {nodes l r : List Node} {e fuel p n : ℕ} {nd : Node}

theorem balanced_init {heap : ℕ} (hheap : heap + 2^22 ≤ 2^64) :
    (init heap).Balanced [] (heap + 144) := by
  have hstart : addw heap (16 * 9) = heap + 144 := addw_of_lt (by omega)
  refine ⟨owned_init hheap, ?_, fun nd hnd => absurd hnd List.not_mem_nil, List.isChain_nil⟩
  show 0 < addw heap (16 * 9)
  omega

/-- The branch of `kmalloc` that takes a FREE node. -/
theorem Balanced.reuse (hb : c.Balanced (l ++ nd :: r) e) (hfits : nd.fits n = true)
    (hl : ∀ y ∈ l, y.fits n = false) :
    ∃ nodes' e', Balanced ⟨(c.heap.reuse n nd.addr).heap,
      ((c.heap.reuse n nd.addr).ptr, n) :: c.live⟩ nodes' e' := by
  obtain ⟨hsize, hfree⟩ := Node.fits_iff.mp hfits
  have hc := hb.owned.chain
  have hbounds := hc.bounds_mid
  have htop := hc.lt_top
  have hchain := hc.reuse hsize
  have hptr : (c.heap.reuse n nd.addr).ptr = nd.addr + 9 := Heap.reuse_ptr (by omega)
  have hstart : (c.heap.reuse n nd.addr).heap.heap_start = c.heap.heap_start :=
    Heap.reuse_heap_start
  obtain ⟨nodes', e', hnew⟩ := hb.owned.reuse hl hfits
  have hapart := Heap.noAdjacentFree_takeNode c.heap.heap_head hb.apart hfree hsize
  generalize c.heap.reuse n nd.addr = res at hchain hptr hstart hnew ⊢
  -- The nodes are those that `takeNode` leaves.
  have hnodes := (hchain.unique hnew.owned.chain).1
  subst hnodes
  refine ⟨_, e', hnew.owned, ?_, fun y hy hused => ?_, hapart⟩
  · show 0 < res.heap.heap_start
    rw [hstart]
    exact hb.start
  · obtain ⟨k, rest, htake, hnk, hkn, hrest⟩ :=
      Heap.takeNode_split c.heap.heap_head hsize
    have hold : y ∈ l ++ r ∨ y ∈ Heap.takeNode n c.heap.heap_head nd := by
      simp only [List.mem_append] at hy ⊢
      tauto
    rcases hold with hy | hy
    · obtain ⟨hstatus, m, hlive, hm⟩ := hb.used y (mem_of_rest hy) hused
      exact ⟨hstatus, m, List.mem_cons_of_mem _ hlive, hm⟩
    · rw [htake] at hy
      rcases List.mem_cons.mp hy with rfl | hy
      · rw [hptr]
        exact ⟨rfl, n, List.mem_cons_self .., hnk, hkn⟩
      · rcases hrest with rfl | ⟨z, rfl, hz⟩
        · cases hy
        · obtain rfl := List.mem_singleton.mp hy
          exact absurd hz hused

/-- The end of `kmalloc`. -/
theorem Balanced.append (hb : c.Balanced nodes e) (hnone : ∀ y ∈ nodes, y.fits n = false)
    (htop : e + 9 + n + 9 ≤ 2^64) :
    ∃ nodes' e', Balanced ⟨(c.heap.append n e).heap, ((c.heap.append n e).ptr, n) :: c.live⟩
      nodes' e' := by
  obtain ⟨hptr, -⟩ := hb.owned.chain.append (n := n) (by omega)
  refine ⟨_, _, (hb.owned.append hnone htop).owned, hb.start, fun y hy hused => ?_,
    Heap.noAdjacentFree_mid.mpr ⟨hb.apart, List.isChain_nil, fun h => absurd h ?_⟩⟩
  · rcases List.mem_append.mp hy with hy | hy
    · obtain ⟨hstatus, m, hlive, hm⟩ := hb.used y hy hused
      exact ⟨hstatus, m, List.mem_cons_of_mem _ hlive, hm⟩
    · obtain rfl := List.mem_singleton.mp hy
      rw [hptr]
      exact ⟨rfl, n, List.mem_cons_self .., le_refl n, Nat.le_add_right n 9⟩
  · show ¬ HEAP_ALLOCATION_USED = HEAP_ALLOCATION_FREE
    decide

/-- `kfree` of a live block. -/
theorem Balanced.free (hb : c.Balanced nodes e) {h : Heap} (hs : c.Sound (.free p))
    (hlive : (p, n) ∈ c.live) (hh : c.heap.kfree fuel p = some h) :
    ∃ nodes' e', Balanced ⟨h, c.live.erase (p, n)⟩ nodes' e' := by
  obtain ⟨nodes', e', ho, -⟩ := hb.owned.free hs hlive hh
  obtain ⟨nd, hnd, hp, hused, -⟩ := hb.owned.owner (p, n) hlive
  have hp' : p = nd.addr + 9 := hp
  obtain ⟨l, r, rfl⟩ := List.append_of_mem hnd
  have hc := hb.owned.chain
  have hend : r = [] → c.heap.EndJoins nd e := fun hr => hs l nd e (hr ▸ hc) hp'
  -- The heap that the call has left is the one of the freed node.
  have hfreed : h = c.heap.freed l nd := by
    rw [hp'] at hh
    have hbounds := hc.bounds_mid
    have hptr : subw (nd.addr + 9) 9 = nd.addr := by
      have := hc.lt_top
      unfold subw
      omega
    unfold Heap.kfree at hh
    rw [hptr] at hh
    exact Heap.kfreeLoop_chain hc.tiles hc.lt_top hc.header hc.below hused hh
  obtain ⟨x, r', e'', hc', hx, hr⟩ := hc.kfree_nodes hb.start hend
  rw [hfreed] at ho ⊢
  obtain ⟨rfl, rfl⟩ := hc'.unique ho.chain
  obtain ⟨hal, har, -⟩ := Heap.noAdjacentFree_mid.mp hb.apart
  have hsub : ∀ y ∈ l ++ r', y ∈ l ++ r := by
    intro y hy
    rcases hr with ⟨rfl, -⟩ | ⟨z, rfl, -⟩
    · exact hy
    · exact mem_of_rest hy
  refine ⟨_, _, ho, ?_, fun y hy hyused => ?_, ?_⟩
  · show 0 < (c.heap.freed l nd).heap_start
    rw [Heap.freed_root.2]
    exact hb.start
  · -- The other USED nodes keep their blocks.
    rw [Heap.mem_joinPrevious hx hyused] at hy
    have hmem := hsub y hy
    obtain ⟨hstatus, m, hm, hsize⟩ := hb.used y (mem_of_rest hmem) hyused
    have hne : y.addr + 9 ≠ p := by
      rcases List.mem_append.mp hmem with hmem | hmem
      · have hapart := hc.around.1 y hmem
        omega
      · have hapart := hc.around.2 y hmem
        omega
    refine ⟨hstatus, m, (List.mem_erase_of_ne fun heq => hne ?_).mpr hm, hsize⟩
    exact congrArg Prod.fst heq
  · rcases hr with ⟨rfl, hhead⟩ | ⟨z, rfl, hz⟩
    · exact Heap.noAdjacentFree_joinPrevious hal har hhead
    · obtain ⟨-, har', hbehind⟩ := (Heap.noAdjacentFree_mid (l := [])).mp har
      exact Heap.noAdjacentFree_joinPrevious hal har' (hbehind hz).2

/-- Every step that is `Sound` keeps the books balanced. -/
theorem Balanced.step (hb : c.Balanced nodes e) (hs : c.Sound op) (hstep : Step c op c') :
    ∃ nodes' e', c'.Balanced nodes' e' := by
  cases hstep with
  | malloc hr =>
    rcases Heap.kmalloc_chain hb.owned.chain hr with ⟨l, nd, r, rfl, hl, hfits, hptr, hheap⟩ |
      ⟨hnone, hptr, hheap⟩
    · rw [hptr, hheap]
      exact hb.reuse hfits hl
    · rw [hptr, hheap]
      rcases hs nodes e hb.owned.chain with ⟨nd, hnd, hfits⟩ | htop
      · exact absurd hfits (by rw [hnone nd hnd]; decide)
      · exact hb.append hnone htop
  | free hlive hh => exact hb.free hs hlive hh
  | write hlive h1 h2 =>
    refine ⟨nodes, e, hb.owned.write rfl rfl (fun x hx => Function.update_of_ne ?_ ..), hb.start,
      hb.used, hb.apart⟩
    rintro rfl
    exact hx _ hlive ⟨h1, h2⟩

theorem balanced_run {heap : ℕ} (hheap : heap + 2^22 ≤ 2^64)
    {ts : List (Transition Client HeapOp)} (hrun : Run Step (init heap) ts c)
    (hs : ∀ x ∈ ts, x.pre.Sound x.label) : ∃ nodes e, c.Balanced nodes e := by
  have hkeep : ∀ c op c', (∃ nodes e, Balanced c nodes e) → c.Sound op → Step c op c' →
      ∃ nodes e, Balanced c' nodes e := by
    rintro c op c' ⟨nodes, e, hb⟩ hsound hstep
    exact hb.step hsound hstep
  exact hrun.invariant ⟨[], heap + 144, balanced_init hheap⟩ hs hkeep

/-! ## What the books say -/

/-- The account of a chain: its USED nodes are those of the live blocks, each of at most nine bytes
more, the others are FREE and apart from one another, and there are not many of them. -/
structure Ledger (c : Client) (nodes : List Node) (e : ℕ) : Prop where
  chain : c.heap.Chain nodes e
  blocks : ((nodes.filter (fun nd => nd.status = HEAP_ALLOCATION_USED)).map
    (fun nd => nd.addr + 9)).Perm (c.live.map Prod.fst)
  sizes : ∀ nd ∈ nodes, ∀ n, (nd.addr + 9, n) ∈ c.live → n ≤ nd.size ∧ nd.size ≤ n + 9
  status : ∀ nd ∈ nodes, nd.status = HEAP_ALLOCATION_USED ∨ nd.status = HEAP_ALLOCATION_FREE
  apart : Heap.NoAdjacentFree nodes
  length_le : nodes.length ≤ 2 * c.live.length + 1
  empty : c.live = [] → nodes = [] ∨ ∃ nd, nodes = [nd] ∧ nd.addr = c.heap.heap_start ∧
    nd.addr + nd.len = e ∧ nd.status = HEAP_ALLOCATION_FREE

theorem Balanced.status (hb : c.Balanced nodes e) (hnd : nd ∈ nodes) :
    nd.status = HEAP_ALLOCATION_USED ∨ nd.status = HEAP_ALLOCATION_FREE := by
  by_cases hfree : nd.status = HEAP_ALLOCATION_FREE
  · exact Or.inr hfree
  · exact Or.inl (hb.used nd hnd hfree).1

/-- USED nodes and live blocks are the same in number, and have the same pointers. -/
theorem Balanced.blocks (hb : c.Balanced nodes e) :
    ((nodes.filter (fun nd => nd.status = HEAP_ALLOCATION_USED)).map
      (fun nd => nd.addr + 9)).Perm (c.live.map Prod.fst) := by
  have hnodup : (nodes.map (fun nd => nd.addr + 9)).Nodup := by
    rw [List.Nodup, List.pairwise_map]
    refine hb.owned.chain.ordered.imp (fun h heq => ?_)
    unfold Node.len at h
    omega
  refine (List.perm_ext_iff_of_nodup (hnodup.sublist (List.filter_sublist.map _))
    hb.owned.distinct).mpr (fun p => ?_)
  constructor
  · intro hp
    obtain ⟨nd, hnd, rfl⟩ := List.mem_map.mp hp
    obtain ⟨hnd, hused⟩ := List.mem_filter.mp hnd
    have hne : nd.status ≠ HEAP_ALLOCATION_FREE := by
      rw [of_decide_eq_true hused]
      decide
    obtain ⟨-, n, hlive, -⟩ := hb.used nd hnd hne
    exact List.mem_map.mpr ⟨_, hlive, rfl⟩
  · intro hp
    obtain ⟨b, hlive, rfl⟩ := List.mem_map.mp hp
    obtain ⟨nd, hnd, haddr, hused, -⟩ := hb.owned.owner b hlive
    exact List.mem_map.mpr ⟨nd, List.mem_filter.mpr ⟨hnd, decide_eq_true hused⟩, haddr.symm⟩

theorem Balanced.sizes (hb : c.Balanced nodes e) (hnd : nd ∈ nodes)
    (hlive : (nd.addr + 9, n) ∈ c.live) : n ≤ nd.size ∧ nd.size ≤ n + 9 := by
  obtain ⟨y, hy, haddr, hused, -⟩ := hb.owned.owner _ hlive
  have haddr' : nd.addr + 9 = y.addr + 9 := haddr
  obtain rfl := hb.owned.chain.eq_of_addr hnd hy (by omega)
  have hne : nd.status ≠ HEAP_ALLOCATION_FREE := by
    rw [hused]
    decide
  obtain ⟨-, m, hm, hsize⟩ := hb.used nd hnd hne
  -- The block of a pointer is one.
  have heq := List.inj_on_of_nodup_map hb.owned.distinct hlive hm rfl
  rw [show n = m from congrArg Prod.snd heq]
  exact hsize

theorem Balanced.length_le (hb : c.Balanced nodes e) : nodes.length ≤ 2 * c.live.length + 1 := by
  have hcount : nodes.countP (fun nd => nd.status ≠ HEAP_ALLOCATION_FREE) = c.live.length := by
    have hlen := hb.blocks.length_eq
    rw [List.length_map, List.length_map, ← List.countP_eq_length_filter] at hlen
    rw [← hlen]
    refine List.countP_congr (fun nd hnd => ?_)
    rcases hb.status hnd with h | h <;> rw [h] <;> decide
  rw [← hcount]
  exact Heap.length_le_of_noAdjacentFree hb.apart

theorem Balanced.ledger (hb : c.Balanced nodes e) : c.Ledger nodes e := by
  refine ⟨hb.owned.chain, hb.blocks, fun nd hnd n => hb.sizes hnd, fun nd hnd => hb.status hnd,
    hb.apart, hb.length_le, fun hempty => ?_⟩
  have hlen := hb.length_le
  rw [hempty] at hlen
  cases nodes with
  | nil => exact Or.inl rfl
  | cons nd nodes =>
    obtain rfl := List.eq_nil_of_length_eq_zero (Nat.le_zero.mp (Nat.le_of_succ_le_succ hlen))
    refine Or.inr ⟨nd, rfl, hb.owned.chain.tiles.1, ?_, ?_⟩
    · have htiles := hb.owned.chain.tiles
      rw [htiles.1]
      exact htiles.2
    · refine (hb.status (List.mem_cons_self ..)).resolve_left (fun hused => ?_)
      have hne : nd.status ≠ HEAP_ALLOCATION_FREE := by
        rw [hused]
        decide
      obtain ⟨-, n, hlive, -⟩ := hb.used nd (List.mem_cons_self ..) hne
      rw [hempty] at hlive
      cases hlive

/-- In every run from `init_kheap` whose steps are `Sound`, the chain accounts for the live blocks,
and a call of `kmalloc` or `kfree` ends after as many passes as it has nodes, and one more. -/
theorem ledger_of_sound {heap : ℕ} (hheap : heap + 2^22 ≤ 2^64)
    {ts : List (Transition Client HeapOp)} (hrun : Run Step (init heap) ts c)
    (hs : ∀ x ∈ ts, x.pre.Sound x.label) :
    ∃ nodes e, c.Ledger nodes e ∧
      (∀ size, ∃ r, ∀ fuel, 2 * c.live.length + 1 < fuel → c.heap.kmalloc fuel size = some r) ∧
      ∀ p, ∃ h, ∀ fuel, 2 * c.live.length + 1 < fuel → c.heap.kfree fuel p = some h := by
  obtain ⟨nodes, e, hb⟩ := balanced_run hheap hrun hs
  have hc := hb.owned.chain
  refine ⟨nodes, e, hb.ledger, fun size => ?_, fun p => ?_⟩
  · obtain ⟨r, hr⟩ := hc.kmalloc_ends size
    exact ⟨r, fun fuel hfuel => hr fuel (lt_of_le_of_lt hb.length_le hfuel)⟩
  · obtain ⟨h, hh, -⟩ := hc.kfreeLoop_ends (subw p 9)
    exact ⟨h, fun fuel hfuel => hh fuel (lt_of_le_of_lt hb.length_le hfuel)⟩

/-- Three blocks, of which the middle one is freed. -/
def gapOps (S : ℕ) : List HeapOp := [.malloc 64, .malloc 32, .malloc 16, .free (S + 82)]

/-- The nodes that they leave. -/
def gapNodes : List Node :=
  [⟨0x1801510A0, 64, HEAP_ALLOCATION_USED⟩, ⟨0x1801510E9, 32, HEAP_ALLOCATION_FREE⟩,
    ⟨0x180151112, 16, HEAP_ALLOCATION_USED⟩]

theorem gap_run : ∃ ts c, Run Step (init 0x180151010) ts c ∧
    ts.map Transition.label = gapOps 0x1801510A0 ∧ (∀ x ∈ ts, x.pre.Sound x.label) ∧
    c.live = [(0x18015111B, 16), (0x1801510A9, 64)] ∧ c.heap.Chain gapNodes 0x18015112B := by
  have hend : ((gapOps 0x1801510A0).foldlM (execSound 8) (init 0x180151010)).map
      (fun c => (c.live, c.heap.nodesFrom 8 c.heap.heap_start,
        decide (c.heap.heap_head ≤ 0x18015112B))) =
        some ([(0x18015111B, 16), (0x1801510A9, 64)], (gapNodes, 0x18015112B), true) := by
    decide +kernel
  obtain ⟨c, hc, hvalues⟩ := Option.map_eq_some_iff.mp hend
  obtain ⟨hl, hrest⟩ := Prod.mk.inj hvalues
  obtain ⟨hnodes, hhead⟩ := Prod.mk.inj hrest
  obtain ⟨ts, hrun, hlabels, hsound⟩ := run_of_execSound hc
  exact ⟨ts, c, hrun, hlabels, hsound, hl,
    Heap.chain_of_nodesFrom hnodes (of_decide_eq_true hhead) (by norm_num)⟩

/-- The account of two live blocks with a FREE node between them. -/
theorem ledger_of_sound_gap :
    ∃ ts c, Run Step (init 0x180151010) ts c ∧ ts.map Transition.label = gapOps 0x1801510A0 ∧
      c.live = [(0x18015111B, 16), (0x1801510A9, 64)] ∧ ∃ nodes e, c.Ledger nodes e ∧
      nodes = gapNodes ∧
      (∀ size, ∃ r, ∀ fuel, 2 * c.live.length + 1 < fuel → c.heap.kmalloc fuel size = some r) ∧
      ∀ p, ∃ h, ∀ fuel, 2 * c.live.length + 1 < fuel → c.heap.kfree fuel p = some h := by
  obtain ⟨ts, c, hrun, hlabels, hsound, hl, hchain⟩ := gap_run
  obtain ⟨nodes, e, hledger, hmalloc, hfree⟩ := ledger_of_sound (by norm_num) hrun hsound
  exact ⟨ts, c, hrun, hlabels, hl, nodes, e, hledger, (hledger.chain.unique hchain).1, hmalloc,
    hfree⟩

end Client

end Potatos
