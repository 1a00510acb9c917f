import Potatos.Lib.Runs
import Potatos.Mem.KheapOps
import Mathlib.Data.List.Nodup

/-!
# Clients of the heap

A client allocates, frees pointers that are live, and writes bytes inside live blocks. `Safe` says
that two live blocks never share a byte and that no header on the walked chain lies in one.

`kfree` reads a header behind the node it frees. Behind the last node of the chain there is none,
and `kheap_merge`, whose check of `next` against `NULL` never fires, joins the bytes that an earlier
client left there. Where the joined node no longer reaches `heap_head` the walks go on inside a live
block, and `kmalloc` hands it out a second time (`not_always_safe`). `Sound` is the condition on a
step that excludes this, and the chain and the owners of the live blocks are then an invariant
(`Owned`), from which `safe_of_sound` follows for every run.
-/

namespace Potatos

open Lib

/-- What a client does with the heap. -/
inductive HeapOp where
  | malloc (size : BitVec 32)
  | free (ptr : ℕ)
  | write (addr : ℕ) (v : BitVec 8)

/-- The heap, and the live blocks: the pointers returned and not freed, with the sizes asked for. -/
structure Client where
  heap : Heap
  live : List (ℕ × ℕ)

namespace Client

/-- The state after `init_kheap`. -/
def init (heap : ℕ) : Client := ⟨initKheap heap, []⟩

/-- One operation of the client. -/
inductive Step : Client → HeapOp → Client → Prop where
  | malloc {c : Client} {fuel : ℕ} {size : BitVec 32} {r : Heap.Allocation} :
      c.heap.kmalloc fuel size = some r →
      Step c (.malloc size) ⟨r.heap, (r.ptr, size.toNat) :: c.live⟩
  | free {c : Client} {fuel p n : ℕ} {h : Heap} :
      (p, n) ∈ c.live → c.heap.kfree fuel p = some h → Step c (.free p) ⟨h, c.live.erase (p, n)⟩
  | write {c : Client} {p n a : ℕ} {v : BitVec 8} :
      (p, n) ∈ c.live → p ≤ a → a < p + n →
      Step c (.write a v) ⟨{ c.heap with mem := Function.update c.heap.mem a v }, c.live⟩

/-- The byte `x` is in the block. -/
def InBlock (x : ℕ) (b : ℕ × ℕ) : Prop := b.1 ≤ x ∧ x < b.1 + b.2

/-- The nodes that the walks of the allocator visit. -/
inductive OnChain (h : Heap) : ℕ → Prop where
  | start : h.heap_start < h.heap_head → OnChain h h.heap_start
  | next {a : ℕ} : OnChain h a → h.nextAddress a < h.heap_head → OnChain h (h.nextAddress a)

/-- Live blocks share no byte, and no header of the chain has a byte in one. -/
structure Safe (c : Client) : Prop where
  disjoint : c.live.Pairwise (fun b b' => ∀ x, ¬ (InBlock x b ∧ InBlock x b'))
  headers : ∀ a, OnChain c.heap a → ∀ b ∈ c.live, ∀ x, a ≤ x → x < a + 9 → ¬ InBlock x b

/-- The condition on a step. An allocation finds a free node, or there is room behind the chain; a
freed last node may be joined with the bytes behind it. -/
def Sound (c : Client) : HeapOp → Prop
  | .malloc size => ∀ nodes e, c.heap.Chain nodes e →
      (∃ nd ∈ nodes, nd.fits size.toNat = true) ∨ e + 9 + size.toNat + 9 ≤ 2^64
  | .free p => ∀ l nd e, c.heap.Chain (l ++ [nd]) e → p = nd.addr + 9 → c.heap.EndJoins nd e
  | .write _ _ => True

/-! ## The invariant -/

/-- The heap is a chain, and each live block lies in a USED node of its own. -/
structure Owned (c : Client) (nodes : List Node) (e : ℕ) : Prop where
  chain : c.heap.Chain nodes e
  room : e + 9 ≤ 2^64
  distinct : (c.live.map Prod.fst).Nodup
  owner : ∀ b ∈ c.live, ∃ nd ∈ nodes,
    b.1 = nd.addr + 9 ∧ nd.status = HEAP_ALLOCATION_USED ∧ b.2 ≤ nd.size

variable {c c' : Client} {op : HeapOp} {nodes : List Node} {e a : ℕ} {b b' : ℕ × ℕ}

theorem owned_init {heap : ℕ} (hheap : heap + 2^22 ≤ 2^64) : (init heap).Owned [] (heap + 144) := by
  have hstart : addw heap (16 * 9) = heap + 144 := addw_of_lt (by omega)
  have hchain : (initKheap heap).Chain [] (heap + 144) :=
    { tiles := hstart
      header := fun nd hnd => absurd hnd List.not_mem_nil
      below := fun nd hnd => absurd hnd List.not_mem_nil
      head_le := le_of_eq hstart
      lt_top := by omega }
  exact ⟨hchain, by omega, List.nodup_nil, fun b hb => absurd hb List.not_mem_nil⟩

/-- A visited node is a node of the chain. -/
theorem mem_of_onChain {h : Heap} (hc : h.Chain nodes e) (ha : OnChain h a) :
    ∃ nd ∈ nodes, nd.addr = a := by
  have hle := hc.head_le
  have htop := hc.lt_top
  induction ha with
  | start hlt =>
    cases nodes with
    | nil =>
      -- Without a node the chain end is at `heap_start`, which is not below `heap_head`.
      have := hc.tiles
      rw [tiles_nil] at this
      omega
    | cons nd nodes => exact ⟨nd, List.mem_cons_self .., hc.tiles.1⟩
  | next _ hlt ih =>
    obtain ⟨nd, hnd, rfl⟩ := ih
    obtain ⟨l, r, rfl⟩ := List.append_of_mem hnd
    have hbounds := hc.bounds_mid
    rw [Heap.nextAddress_eq hc.header_mid (by unfold Node.len; omega)] at hlt ⊢
    -- The next address is the one of the next node, or the chain end.
    obtain ⟨m, -, hm⟩ := tiles_append.mp hc.tiles
    have hr := hm.2
    rw [← hm.1] at hr
    cases r with
    | nil =>
      rw [tiles_nil] at hr
      omega
    | cons y r => exact ⟨y, by simp, hr.1⟩

/-- The owners of two live blocks with different pointers are apart. -/
theorem Owned.apart (ho : c.Owned nodes e) (hb : b ∈ c.live) (hb' : b' ∈ c.live)
    (hne : b.1 ≠ b'.1) : b.1 + b.2 ≤ b'.1 ∨ b'.1 + b'.2 ≤ b.1 := by
  obtain ⟨nd, hnd, hp, -, hn⟩ := ho.owner b hb
  obtain ⟨nd', hnd', hp', -, hn'⟩ := ho.owner b' hb'
  rcases ho.chain.eq_or_apart hnd hnd' with heq | h | h
  · exact absurd (by rw [hp, hp', heq]) hne
  · exact Or.inl (by omega)
  · exact Or.inr (by omega)

/-- What the invariant is for. -/
theorem Owned.safe (ho : c.Owned nodes e) : c.Safe := by
  constructor
  · have hdistinct : c.live.Pairwise (fun b b' => b.1 ≠ b'.1) := List.pairwise_map.mp ho.distinct
    apply hdistinct.imp_of_mem
    intro b b' hb hb' hne x hx
    have := ho.apart hb hb' hne
    unfold InBlock at hx
    omega
  · intro a ha b hb x h1 h2 hx
    obtain ⟨nd, hnd, rfl⟩ := mem_of_onChain ho.chain ha
    obtain ⟨nd', hnd', hp, -, hn⟩ := ho.owner b hb
    unfold InBlock at hx
    rcases ho.chain.eq_or_apart hnd hnd' with rfl | h | h
    · omega
    · omega
    · omega

/-! ## The steps keep the invariant -/

/-- A new live block in a USED node that no other live block is in. -/
theorem Owned.grow (ho : c.Owned nodes e) {h' : Heap} {nodes' : List Node} {e' p n : ℕ} {nd : Node}
    (hc' : h'.Chain nodes' e') (hroom : e' + 9 ≤ 2^64) (hnd : nd ∈ nodes') (hp : p = nd.addr + 9)
    (hused : nd.status = HEAP_ALLOCATION_USED) (hn : n ≤ nd.size)
    (hkeep : ∀ y ∈ nodes, y.status = HEAP_ALLOCATION_USED → y ∈ nodes' ∧ y.addr ≠ nd.addr) :
    Owned ⟨h', (p, n) :: c.live⟩ nodes' e' := by
  refine ⟨hc', hroom, List.nodup_cons.mpr ⟨fun hmem => ?_, ho.distinct⟩, fun b hb => ?_⟩
  · obtain ⟨b, hb, hbptr⟩ := List.mem_map.mp hmem
    obtain ⟨y, hy, hyp, hyused, -⟩ := ho.owner b hb
    have hne := (hkeep y hy hyused).2
    have hbp : b.1 = p := hbptr
    omega
  · rcases List.mem_cons.mp hb with rfl | hb
    · exact ⟨nd, hnd, hp, hused, hn⟩
    · obtain ⟨y, hy, hyp, hyused, hyn⟩ := ho.owner b hb
      exact ⟨y, (hkeep y hy hyused).1, hyp, hyused, hyn⟩

/-- What a call of `kmalloc` for `n` bytes leaves: the block at `p` behind the header at `placeOf`,
the invariant with the block live, no header at another new place than `newHeader`, and the contents
of the other live blocks. -/
structure Allocated (c : Client) (nodes : List Node) (e n p : ℕ) (h : Heap) (nodes' : List Node)
    (e' : ℕ) : Prop where
  owned : Owned ⟨h, (p, n) :: c.live⟩ nodes' e'
  end_le : e' ≤ e + 9 + n
  ptr : p = Heap.placeOf n nodes e + 9
  headers : ∀ y ∈ nodes', y.addr ∈ nodes.map Node.addr ∨ Heap.newHeader n nodes e = some y.addr
  contents : ∀ b ∈ c.live, ∀ x, InBlock x b → h.mem x = c.heap.mem x

/-- The branch of `kmalloc` that takes the first node that fits. -/
theorem Owned.reuse {l r : List Node} {nd : Node} {n : ℕ} (ho : c.Owned (l ++ nd :: r) e)
    (hl : ∀ y ∈ l, y.fits n = false) (hfits : nd.fits n = true) :
    ∃ nodes' e', c.Allocated (l ++ nd :: r) e n (c.heap.reuse n nd.addr).ptr
      (c.heap.reuse n nd.addr).heap nodes' e' := by
  have hroom := ho.room
  have hc := ho.chain
  obtain ⟨hsize, hfree⟩ := Node.fits_iff.mp hfits
  have hfind : (l ++ nd :: r).find? (Node.fits n) = some nd := Heap.find_fits hl hfits
  have hbounds := hc.bounds_mid
  have hend := hc.takenEnd_le (n := n)
  obtain ⟨k, hk, -, hmem⟩ := Heap.takeNode_used (a := c.heap.heap_head) hsize
  rw [Heap.reuse_ptr (by omega)]
  -- the node was free, so the USED nodes are the others
  have hother : ∀ y ∈ l ++ nd :: r, y.status = HEAP_ALLOCATION_USED → y ≠ nd :=
    fun y _ hused => Node.ne_of_used hused hfree
  refine ⟨l ++ (Heap.takeNode n c.heap.heap_head nd ++ r),
    Heap.takenEnd n c.heap.heap_head nd e, ?_, by omega, ?_, ?_, ?_⟩
  · refine ho.grow (hc.reuse hsize) (by omega)
      (List.mem_append_right l (List.mem_append_left r hmem)) rfl rfl hk ?_
    intro y hy hused
    have hne := hother y hy hused
    refine ⟨?_, fun h => hne (hc.eq_of_addr hy (by simp) h)⟩
    simp only [List.mem_append, List.mem_cons] at hy ⊢
    tauto
  · rw [Heap.placeOf, hfind]
    rfl
  · intro y hy
    rw [Heap.newHeader, hfind]
    dsimp only
    simp only [List.mem_append, List.map_append, List.map_cons, List.mem_cons] at hy ⊢
    rcases hy with hy | hy | hy
    · exact Or.inl (Or.inl (List.mem_map_of_mem hy))
    · rcases Heap.takeNode_addr hy with haddr | ⟨hs, haddr⟩
      · exact Or.inl (Or.inr (Or.inl haddr))
      · exact Or.inr (by rw [if_pos hs, haddr])
    · exact Or.inl (Or.inr (Or.inr (List.mem_map_of_mem hy)))
  · intro b hb x hx
    obtain ⟨y, hy, hyp, hyused, hyn⟩ := ho.owner b hb
    have hapart := (hc.eq_or_apart hy (by simp)).resolve_left (hother y hy hyused)
    unfold InBlock at hx
    exact hc.reuse_frame hsize (by unfold Node.len; omega)

/-- The end of `kmalloc`, where no node fits. -/
theorem Owned.append (ho : c.Owned nodes e) {n : ℕ} (hnone : ∀ y ∈ nodes, y.fits n = false)
    (htop : e + 9 + n + 9 ≤ 2^64) :
    c.Allocated nodes e n (c.heap.append n e).ptr (c.heap.append n e).heap
      (nodes ++ [⟨e, n, HEAP_ALLOCATION_USED⟩]) (e + 9 + n) := by
  obtain ⟨hp, hc'⟩ := ho.chain.append (n := n) (by omega)
  have hfind : nodes.find? (Node.fits n) = none := Heap.find_fits_none hnone
  rw [hp]
  refine ⟨?_, le_refl _, ?_, ?_, ?_⟩
  · refine ho.grow hc' htop (List.mem_append_right nodes (List.mem_cons_self ..)) rfl rfl
      (le_refl _) ?_
    intro y hy _
    have hbound := ho.chain.bounds hy
    exact ⟨List.mem_append_left _ hy, by simp only; omega⟩
  · rw [Heap.placeOf, hfind]
    rfl
  · intro y hy
    rw [Heap.newHeader, hfind]
    rcases List.mem_append.mp hy with hy | hy
    · exact Or.inl (List.mem_map_of_mem hy)
    · obtain rfl := List.mem_singleton.mp hy
      exact Or.inr rfl
  · intro b hb x hx
    obtain ⟨y, hy, hyp, -, hyn⟩ := ho.owner b hb
    have hbound := ho.chain.bounds hy
    unfold InBlock at hx
    exact (Heap.setSize_only.trans Heap.setStatus_only).1 x (by omega)

/-- `kmalloc` keeps the invariant. -/
theorem Owned.malloc (ho : c.Owned nodes e) {fuel : ℕ} {size : BitVec 32} {r : Heap.Allocation}
    (hr : c.heap.kmalloc fuel size = some r)
    (hs : (∃ nd ∈ nodes, nd.fits size.toNat = true) ∨ e + 9 + size.toNat + 9 ≤ 2^64) :
    ∃ nodes' e', c.Allocated nodes e size.toNat r.ptr r.heap nodes' e' := by
  rcases Heap.kmalloc_chain ho.chain hr with ⟨l, nd, rr, rfl, hl, hfits, hptr, hheap⟩ |
    ⟨hnone, hptr, hheap⟩
  · rw [hptr, hheap]
    exact ho.reuse hl hfits
  · rw [hptr, hheap]
    rcases hs with ⟨nd, hnd, hfits⟩ | htop
    · exact absurd hfits (by rw [hnone nd hnd]; decide)
    · exact ⟨_, _, ho.append hnone htop⟩

/-- `kfree` of a live pointer keeps the invariant, with the block gone and no header at a new
place. -/
theorem Owned.free (ho : c.Owned nodes e) {fuel p n : ℕ} {h : Heap} (hs : c.Sound (.free p))
    (hlive : (p, n) ∈ c.live) (hh : c.heap.kfree fuel p = some h) :
    ∃ nodes' e', Owned ⟨h, c.live.erase (p, n)⟩ nodes' e' ∧
      nodes'.map Node.addr ⊆ nodes.map Node.addr := by
  obtain ⟨nd, hnd, hp, hused, -⟩ := ho.owner (p, n) hlive
  have hp' : p = nd.addr + 9 := hp
  subst hp'
  obtain ⟨l, r, rfl⟩ := List.append_of_mem hnd
  have hend : r = [] → c.heap.EndJoins nd e := fun hr => hs l nd e (hr ▸ ho.chain) rfl
  obtain ⟨nodes', e', hc', hroom', -, haddrs, hkeep⟩ := ho.chain.kfree ho.room hused hend hh
  have hsub : List.Sublist (c.live.erase (nd.addr + 9, n)) c.live := List.erase_sublist
  refine ⟨nodes', e', ⟨hc', hroom', ho.distinct.sublist (hsub.map _), fun b hb => ?_⟩, haddrs⟩
  have hbne : b.1 ≠ nd.addr + 9 := by
    -- the pointers are distinct, so the erased block was the only one at `p`
    intro heq
    have hnodup : c.live.Nodup := ho.distinct.of_map _
    have hinj := List.inj_on_of_nodup_map ho.distinct (hsub.subset hb) hlive heq
    exact absurd (hinj ▸ hb) (List.Nodup.not_mem_erase hnodup)
  obtain ⟨y, hy, hyp, hyused, hyn⟩ := ho.owner b (hsub.subset hb)
  have hyne : y ≠ nd := fun heq => hbne (heq ▸ hyp)
  exact ⟨y, hkeep y (mem_rest hy hyne) hyused, hyp, hyused, hyn⟩

/-- Writing in live blocks keeps the invariant. -/
theorem Owned.write (ho : c.Owned nodes e) {h : Heap} (hhead : h.heap_head = c.heap.heap_head)
    (hstart : h.heap_start = c.heap.heap_start)
    (hsame : ∀ x, (∀ b ∈ c.live, ¬ InBlock x b) → h.mem x = c.heap.mem x) :
    Owned ⟨h, c.live⟩ nodes e := by
  obtain ⟨mem, heap_head, heap_start⟩ := h
  subst hhead hstart
  have hc' : Heap.Chain { c.heap with mem := mem } nodes e := by
    refine ho.chain.setMem (fun y hy x hx1 hx2 => hsame x (fun b hb hx => ?_))
    -- A block is in the payload of a node, so it has no byte of a header.
    obtain ⟨nd, hnd, hp, -, hn⟩ := ho.owner b hb
    unfold InBlock at hx
    rcases ho.chain.eq_or_apart hy hnd with rfl | h | h
    · omega
    · omega
    · omega
  exact ⟨hc', ho.room, ho.distinct, ho.owner⟩

/-- Every step that is `Sound` keeps the invariant. -/
theorem Owned.step (ho : c.Owned nodes e) (hs : c.Sound op) (hstep : Step c op c') :
    ∃ nodes' e', c'.Owned nodes' e' := by
  cases hstep with
  | malloc hr =>
    obtain ⟨nodes', e', hnew⟩ := ho.malloc hr (hs nodes e ho.chain)
    exact ⟨nodes', e', hnew.owned⟩
  | free hlive hh =>
    obtain ⟨nodes', e', ho', -⟩ := ho.free hs hlive hh
    exact ⟨nodes', e', ho'⟩
  | write hlive h1 h2 =>
    refine ⟨nodes, e, ho.write rfl rfl (fun x hx => Function.update_of_ne ?_ ..)⟩
    rintro rfl
    exact hx _ hlive ⟨h1, h2⟩

/-- In every run from `init_kheap` whose steps are `Sound`, live blocks are disjoint and no header
of the chain lies in one. -/
theorem safe_of_sound {heap : ℕ} (hheap : heap + 2^22 ≤ 2^64) {ts : List (Transition Client HeapOp)}
    (hrun : Run Step (init heap) ts c) (hs : ∀ x ∈ ts, x.pre.Sound x.label) : c.Safe := by
  have hstart : ∃ nodes e, (init heap).Owned nodes e := ⟨[], heap + 144, owned_init hheap⟩
  have hkeep : ∀ s op t, (∃ nodes e, Owned s nodes e) → Sound s op → Step s op t →
      ∃ nodes e, Owned t nodes e := by
    rintro s op t ⟨nodes, e, ho⟩ hsound hstep
    exact ho.step hsound hstep
  obtain ⟨nodes, e, ho⟩ := hrun.invariant hstart hs hkeep
  exact ho.safe

/-! ## Runs on concrete operations -/

/-- An operation, when it returns within the fuel and is one that the client may do. -/
def exec (fuel : ℕ) (c : Client) : HeapOp → Option Client
  | .malloc size =>
    (c.heap.kmalloc fuel size).map (fun r => ⟨r.heap, (r.ptr, size.toNat) :: c.live⟩)
  | .free p =>
    match c.live.find? (fun b => b.1 == p) with
    | none => none
    | some b => (c.heap.kfree fuel p).map (fun h => ⟨h, c.live.erase b⟩)
  | .write a v =>
    if c.live.any (fun b => decide (b.1 ≤ a ∧ a < b.1 + b.2)) then
      some ⟨{ c.heap with mem := Function.update c.heap.mem a v }, c.live⟩
    else none

theorem step_of_exec {fuel : ℕ} (h : exec fuel c op = some c') : Step c op c' := by
  cases op with
  | malloc size =>
    obtain ⟨r, hr, rfl⟩ := Option.map_eq_some_iff.mp h
    exact .malloc hr
  | free p =>
    unfold exec at h
    dsimp only at h
    split at h
    · cases h
    · rename_i b hb
      obtain ⟨h', hh', rfl⟩ := Option.map_eq_some_iff.mp h
      have hp : b.1 = p := by simpa using List.find?_some hb
      -- The block that was found is the one of the pointer.
      subst hp
      exact .free (List.mem_of_find?_eq_some hb) hh'
  | write a v =>
    unfold exec at h
    dsimp only at h
    split at h
    · rename_i hany
      obtain ⟨b, hb, hin⟩ := List.any_eq_true.mp hany
      obtain ⟨h1, h2⟩ := of_decide_eq_true hin
      obtain rfl := Option.some.inj h
      exact .write hb h1 h2
    · cases h

theorem run_of_exec {fuel : ℕ} {ops : List HeapOp} (h : ops.foldlM (exec fuel) c = some c') :
    ∃ ts, Run Step c ts c' := by
  have hstep : ∀ s op t, exec fuel s op = some t → Step s op t ∧ True :=
    fun s op t hexec => ⟨step_of_exec hexec, trivial⟩
  obtain ⟨ts, hrun, -⟩ := Run.of_foldlM (G := fun _ _ => True) hstep h
  exact ⟨ts, hrun⟩

/-- The condition on a step, on the nodes of the chain. -/
def SoundOn (h : Heap) (nodes : List Node) (e : ℕ) : HeapOp → Prop
  | .malloc size => (∃ nd ∈ nodes, nd.fits size.toNat = true) ∨ e + 9 + size.toNat + 9 ≤ 2^64
  | .free p => ∀ nd ∈ nodes.getLast?, p = nd.addr + 9 → h.EndJoins nd e
  | .write _ _ => True

instance (h : Heap) (nodes : List Node) (e : ℕ) : ∀ op, Decidable (SoundOn h nodes e op)
  | .malloc _ => inferInstanceAs (Decidable (_ ∨ _))
  | .free _ => inferInstanceAs (Decidable (∀ _ ∈ _, _))
  | .write _ _ => inferInstanceAs (Decidable True)

theorem sound_of_soundOn (hc : c.heap.Chain nodes e) (h : SoundOn c.heap nodes e op) :
    c.Sound op := by
  cases op with
  | malloc size =>
    intro nodes' e' hc'
    obtain ⟨rfl, rfl⟩ := hc.unique hc'
    exact h
  | free p =>
    intro l nd e' hc'
    obtain ⟨rfl, rfl⟩ := hc.unique hc'
    exact h nd List.getLast?_concat
  | write a v => trivial

/-- One operation, when it is `Sound` by the nodes that the headers give. -/
def execSound (fuel : ℕ) (c : Client) (op : HeapOp) : Option Client :=
  let chain := c.heap.nodesFrom fuel c.heap.heap_start
  if (c.heap.heap_head ≤ chain.2 ∧ chain.2 < 2^64) ∧ SoundOn c.heap chain.1 chain.2 op then
    exec fuel c op
  else none

theorem run_of_execSound {fuel : ℕ} {ops : List HeapOp}
    (h : ops.foldlM (execSound fuel) c = some c') :
    ∃ ts, Run Step c ts c' ∧ ts.map Transition.label = ops ∧ ∀ x ∈ ts, x.pre.Sound x.label := by
  refine Run.of_foldlM (fun s op t hexec => ?_) h
  obtain ⟨⟨⟨hhead, htop⟩, hsound⟩, hexec⟩ := Option.ite_none_right_eq_some.mp hexec
  exact ⟨step_of_exec hexec, sound_of_soundOn (Heap.chain_of_nodesFrom rfl hhead htop) hsound⟩

/-- Writing the eight bytes of a number at `a`. -/
def writeWord (a v : ℕ) : List HeapOp :=
  (List.range 8).map (fun i => .write (a + i) (BitVec.ofNat 8 (v / 256^i)))

/-- Two blocks `Z` and `B` at `S + 9` and `S + 82`, with bytes in them that read as headers. `B` is
freed and its space is taken again in two parts, of which the second is appended in front of the
bytes at `S + 101`. Freeing both parts joins these bytes, the sum of the sizes wraps to zero, and
the walk goes on in the old `B` and from there to `Z`. -/
def overlapOps (S : ℕ) : List HeapOp :=
  [.malloc 64, .write (S + 9) 32, .malloc 128] ++
    writeWord (S + 82) (2^64 - 82) ++ [.write (S + 90) 1] ++ writeWord (S + 101) (2^64 - 28) ++
    [.free (S + 82), .malloc 9, .malloc 1, .free (S + 82), .free (S + 100), .malloc 4]

/-- A run of a client that ends with two live blocks that overlap. -/
theorem not_always_safe :
    ∃ ts c, Run Step (init 0x180151010) ts c ∧ ¬ c.Safe := by
  have hlive : ((overlapOps 0x1801510A0).foldlM (exec 8) (init 0x180151010)).map live =
      some [(0x1801510B2, 4), (0x1801510A9, 64)] := by decide +kernel
  obtain ⟨c, hc, hl⟩ := Option.map_eq_some_iff.mp hlive
  obtain ⟨ts, hts⟩ := run_of_exec hc
  refine ⟨ts, c, hts, fun hsafe => ?_⟩
  have hdis := hsafe.disjoint
  rw [hl] at hdis
  have hhead := (List.pairwise_cons.mp hdis).1 _ (List.mem_cons_self ..) 0x1801510B2
  exact hhead ⟨⟨by decide, by decide⟩, ⟨by decide, by decide⟩⟩

/-- Two blocks, of which the client fills the first with bytes that read as a header, and frees the
second, which is at the end of the chain. -/
def twoBlocksOps (S : ℕ) : List HeapOp :=
  [.malloc 64, .malloc 32] ++ writeWord (S + 9) (2^64 - 1) ++ [.write (S + 17) 1, .free (S + 82)]

theorem safe_after_free :
    ∃ ts c, Run Step (init 0x180151010) ts c ∧
      ts.map Transition.label = twoBlocksOps 0x1801510A0 ∧ c.live = [(0x1801510A9, 64)] ∧
      c.Safe := by
  have hlive : ((twoBlocksOps 0x1801510A0).foldlM (execSound 8) (init 0x180151010)).map live =
      some [(0x1801510A9, 64)] := by decide +kernel
  obtain ⟨c, hc, hl⟩ := Option.map_eq_some_iff.mp hlive
  obtain ⟨ts, hrun, hlabels, hsound⟩ := run_of_execSound hc
  exact ⟨ts, c, hrun, hlabels, hl, safe_of_sound (by norm_num) hrun hsound⟩

end Client

end Potatos
