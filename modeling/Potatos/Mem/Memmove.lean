import Potatos.Lib.CellCopy
import Potatos.Mem.HeapFrame

/-!
# `memmove`

`memmove` of `src/lib/string.c` copies the source into a block of its own from `kmalloc`, then from
there to the destination, and frees the block. `heap_root` is in the memory here, at `heap`, with
`heap_head` in its first eight bytes and `heap_start` in the next eight, since `memmove` may be
asked to move these bytes too.

The destination holds what the source held, however the two overlap, the other bytes of USED nodes
and outside the heap are as before, and so are the USED nodes (`memmove_moves`). The bytes of
`heap_root` are an exception: a block at the chain end moves `heap_head` (`not_always_moves`).
-/

namespace Potatos

open Lib

/-- The heap of the memory, with its `heap_root` at `heap`. -/
def heapAt (heap : ℕ) (m : ByteMemory) : Heap := ⟨m, load 8 m heap, load 8 m (heap + 8)⟩

/-- `kmalloc` in memory, with the pointer that it returns. -/
def kmallocAt (heap : ℕ) (m : ByteMemory) (fuel : ℕ) (size : BitVec 32) :
    Option (ℕ × ByteMemory) :=
  ((heapAt heap m).kmalloc fuel size).map
    (fun res => (res.ptr, store 8 res.heap.mem heap res.heap.heap_head))

/-- `kfree` in memory, which leaves `heap_root`. -/
def kfreeAt (heap : ℕ) (m : ByteMemory) (fuel ptr : ℕ) : Option ByteMemory :=
  ((heapAt heap m).kfree fuel ptr).map Heap.mem

/-- A loop of `memmove`: `d[i] = s[i]` for each `i` below `len`. -/
def copyLoop (d s len : ℕ) (m : ByteMemory) : ByteMemory := copyCells (addw d) (addw s) len m

/-- `memmove`, with the pointer that it returns. -/
def memmove (heap : ℕ) (m : ByteMemory) (fuel destination source : ℕ) (num : BitVec 32) :
    Option (ℕ × ByteMemory) := do
  let len := num.toNat
  let (temp, m) ← kmallocAt heap m fuel num
  let m := copyLoop temp source len m
  let m := copyLoop destination temp len m
  let m ← kfreeAt heap m fuel temp
  some (destination, m)

/-! ## What it is for -/

/-- `heap_root` is apart from the heap and the `n + 18` bytes behind it. -/
def RootApart (heap : ℕ) (h : Heap) (e n : ℕ) : Prop :=
  heap + 16 ≤ h.heap_start ∨ e + n + 18 ≤ heap

/-- The byte `x` is outside the heap and the `n + 18` bytes behind it, and none of the first `k`
bytes of `heap_root`. -/
def OutsideHeap (k heap : ℕ) (h : Heap) (e n x : ℕ) : Prop :=
  (x < h.heap_start ∨ e + n + 18 ≤ x) ∧ (x < heap ∨ heap + k ≤ x)

/-- The byte is in the payload of the node. -/
def Node.InPayload (nd : Node) (x : ℕ) : Prop := nd.addr + 9 ≤ x ∧ x < nd.addr + 9 + nd.size

/-- The `n` bytes from `a` on are in the payload of one USED node, or outside the heap. -/
def Placed (k heap : ℕ) (h : Heap) (nodes : List Node) (e n a : ℕ) : Prop :=
  (∃ nd ∈ nodes, nd.status = HEAP_ALLOCATION_USED ∧ ∀ i < n, nd.InPayload (addw a i)) ∨
    ∀ i < n, OutsideHeap k heap h e n (addw a i)

/-- The byte is in the payload of a USED node, or outside the heap. -/
def Spared (k heap : ℕ) (h : Heap) (nodes : List Node) (e n x : ℕ) : Prop :=
  (∃ nd ∈ nodes, nd.status = HEAP_ALLOCATION_USED ∧ nd.InPayload x) ∨ OutsideHeap k heap h e n x

/-- The destination holds what the source held, the other bytes that are to be spared are as
before, and every USED node is one that the walks visit, with the same header. -/
structure Moved (k heap : ℕ) (m m' : ByteMemory) (nodes : List Node) (e n destination source : ℕ) :
    Prop where
  copied : ∀ i < n, m' (addw destination i) = m (addw source i)
  frame : ∀ x, Spared k heap (heapAt heap m) nodes e n x → (∀ i < n, x ≠ addw destination i) →
    m' x = m x
  kept : ∀ nd ∈ nodes, nd.status = HEAP_ALLOCATION_USED →
    Client.OnChain (heapAt heap m') nd.addr ∧ (heapAt heap m').Header nd

variable {k heap e e' n x a d s i j : ℕ} {m m' : ByteMemory} {h : Heap} {nd t : Node}
  {nodes l r : List Node} {res : Heap.Allocation}

theorem Placed.spared (hp : Placed k heap h nodes e n a) (hi : i < n) :
    Spared k heap h nodes e n (addw a i) := by
  rcases hp with ⟨nd, hnd, hused, hin⟩ | hout
  · exact Or.inl ⟨nd, hnd, hused, hin i hi⟩
  · exact Or.inr (hout i hi)

theorem Spared.kept (hx : Spared k heap h nodes e n x) : h.Kept nodes e n x := by
  rcases hx with ⟨nd, hnd, hused, h1, h2⟩ | hout
  · exact Or.inl ⟨nd, hnd, hused, by omega, by unfold Node.len; omega⟩
  · exact Or.inr hout.1

/-- The addresses of a range are different. -/
theorem addw_inj (hn : n ≤ 2^64) : ∀ i < n, ∀ j < n, addw a i = addw a j → i = j := by
  intro i hi j hj heq
  unfold addw at heq
  omega

/-! ## The two copies -/

/-- The memory when `memmove` calls `kfree`. -/
def filled (heap : ℕ) (res : Heap.Allocation) (d s n : ℕ) : ByteMemory :=
  copyLoop d res.ptr n (copyLoop res.ptr s n (store 8 res.heap.mem heap res.heap.heap_head))

/-- The bytes of the block are the first `n` of its payload. -/
theorem block_addr (hb : h.Borrowed nodes e n res l t r e') (hi : i < n) :
    addw res.ptr i = t.addr + 9 + i ∧ i < t.size := by
  have hbounds := hb.chain.bounds_mid
  have htop := hb.chain.lt_top
  have hsize := hb.size_le
  rw [hb.ptr]
  exact ⟨addw_of_lt (by omega), by omega⟩

/-- A byte that is to be kept is none of the block. -/
theorem block_apart (hb : h.Borrowed nodes e n res l t r e') (hx : h.Kept nodes e n x)
    (hi : i < n) : x ≠ addw res.ptr i := by
  have hapart := hb.apart hx (by simp : t ∈ l ++ t :: r) (Or.inl rfl)
  obtain ⟨haddr, hlt⟩ := block_addr hb hi
  omega

/-- What is neither in the block nor in the destination is left. -/
theorem filled_of_out (htemp : ∀ i < n, x ≠ addw res.ptr i) (hdest : ∀ i < n, x ≠ addw d i) :
    filled heap res d s n x = store 8 res.heap.mem heap res.heap.heap_head x :=
  (copyCells_of_out hdest).trans (copyCells_of_out htemp)

/-- A byte that is to be spared is none of `heap_root`, as far as that is excluded. -/
theorem Spared.root (hx : Spared k heap h nodes e n x) (hc : h.Chain nodes e)
    (hroot : RootApart heap h e n) (hk : k ≤ 16) : x < heap ∨ heap + k ≤ x := by
  rcases hx with ⟨nd, hnd, -, h1, h2⟩ | hout
  · have hbounds := hc.bounds hnd
    unfold RootApart at hroot
    omega
  · exact hout.2

/-- `kmalloc` leaves a byte that is to be spared. -/
theorem store_spared (hc : (heapAt heap m).Chain nodes e)
    (hb : (heapAt heap m).Borrowed nodes e n res l t r e')
    (hroot : RootApart heap (heapAt heap m) e n)
    (hx : Spared 8 heap (heapAt heap m) nodes e n x) :
    store 8 res.heap.mem heap res.heap.heap_head x = m x :=
  (store_of_out (hx.root hc hroot (by omega))).trans (hb.frame x hx.kept)

/-- The destination has what was in the source before the block was allocated. -/
theorem filled_copied (hc : (heapAt heap m).Chain nodes e)
    (hb : (heapAt heap m).Borrowed nodes e n res l t r e')
    (hroot : RootApart heap (heapAt heap m) e n) (hroom : e + n + 18 ≤ 2^64)
    (hd : Placed k heap (heapAt heap m) nodes e n d)
    (hs : Placed 8 heap (heapAt heap m) nodes e n s) :
    ∀ i < n, filled heap res d s n (addw d i) = m (addw s i) := by
  intro i hi
  have hn : n ≤ 2^64 := by omega
  have hmove := copyCells_through (m := store 8 res.heap.mem heap res.heap.heap_head)
    (addw_inj (a := res.ptr) hn) (addw_inj (a := d) hn)
    (fun i hi j hj => block_apart hb (hs.spared hi).kept hj)
    (fun i hi j hj => (block_apart hb (hd.spared hj).kept hi).symm) i hi
  exact hmove.trans (store_spared hc hb hroot (hs.spared hi))

/-- Elsewhere a byte that is to be spared is as before. -/
theorem filled_spared (hc : (heapAt heap m).Chain nodes e)
    (hb : (heapAt heap m).Borrowed nodes e n res l t r e')
    (hroot : RootApart heap (heapAt heap m) e n)
    (hx : Spared 8 heap (heapAt heap m) nodes e n x) (hdest : ∀ i < n, x ≠ addw d i) :
    filled heap res d s n x = m x :=
  (filled_of_out (fun _ => block_apart hb hx.kept) hdest).trans (store_spared hc hb hroot hx)

/-- The copies leave `heap_root`. -/
theorem filled_root (hc : (heapAt heap m).Chain nodes e)
    (hb : (heapAt heap m).Borrowed nodes e n res l t r e')
    (hroot : RootApart heap (heapAt heap m) e n)
    (hd : Placed 16 heap (heapAt heap m) nodes e n d) (h1 : heap ≤ x) (h2 : x < heap + 16) :
    filled heap res d s n x = store 8 res.heap.mem heap res.heap.heap_head x := by
  apply filled_of_out
  · have hkept : (heapAt heap m).Kept nodes e n x := by
      unfold RootApart at hroot
      exact Or.inr (by omega)
    exact fun i => block_apart hb hkept
  · intro i hi heq
    have hout := (hd.spared hi).root hc hroot (le_refl 16)
    omega

/-- So `kfree` finds the heap that `kmalloc` has left. -/
theorem heapAt_filled (hc : (heapAt heap m).Chain nodes e)
    (hb : (heapAt heap m).Borrowed nodes e n res l t r e')
    (hroot : RootApart heap (heapAt heap m) e n)
    (hd : Placed 16 heap (heapAt heap m) nodes e n d) :
    heapAt heap (filled heap res d s n) = { res.heap with mem := filled heap res d s n } := by
  have h8 : (256 : ℕ)^8 = 2^64 := by norm_num
  have hhead : load 8 (filled heap res d s n) heap = res.heap.heap_head := by
    have hle := hb.chain.head_le
    have htop := hb.chain.lt_top
    rw [load_congr (fun x h1 h2 => filled_root hc hb hroot hd h1 (by omega)), load_store_self, h8,
      Nat.mod_eq_of_lt (by omega)]
  have hstart : load 8 (filled heap res d s n) (heap + 8) = res.heap.heap_start := by
    rw [load_congr (fun x h1 h2 => filled_root hc hb hroot hd (by omega) (by omega)),
      load_store_of_apart (by omega), hb.heap_start]
    apply load_congr
    intro x h1 h2
    unfold RootApart at hroot
    exact hb.frame x (Or.inr (by omega))
  unfold heapAt
  rw [hhead, hstart]

/-- A byte that is to be spared is in no header. -/
theorem Spared.header (hx : Spared k heap h nodes e n x) (hb : h.Borrowed nodes e n res l t r e')
    (hnd : nd ∈ l ++ t :: r) : x < nd.addr ∨ nd.addr + 9 ≤ x := by
  rcases hx with ⟨y, hy, hused, h1, h2⟩ | ⟨hout, -⟩
  · rcases hb.chain.eq_or_apart (hb.mem_of_used hy hused) hnd with rfl | hapart
    · omega
    · omega
  · have hbounds := hb.chain.bounds hnd
    have hstart := hb.heap_start
    have hend := hb.end_le
    omega

/-- No byte of the block is in a header. -/
theorem block_header (hb : h.Borrowed nodes e n res l t r e') (hnd : nd ∈ l ++ t :: r)
    (hi : i < n) : addw res.ptr i < nd.addr ∨ nd.addr + 9 ≤ addw res.ptr i := by
  obtain ⟨haddr, hlt⟩ := block_addr hb hi
  have ht : t ∈ l ++ t :: r := by simp
  rcases hb.chain.eq_or_apart ht hnd with rfl | hapart
  · omega
  · omega

/-- The chain of `kmalloc` is still there. -/
theorem chain_filled (hc : (heapAt heap m).Chain nodes e)
    (hb : (heapAt heap m).Borrowed nodes e n res l t r e')
    (hroot : RootApart heap (heapAt heap m) e n)
    (hd : Placed 16 heap (heapAt heap m) nodes e n d) :
    (heapAt heap (filled heap res d s n)).Chain (l ++ t :: r) e' := by
  rw [heapAt_filled hc hb hroot hd]
  apply hb.chain.setMem
  intro nd hnd x h1 h2
  have hout : x < heap ∨ heap + 8 ≤ x := by
    have hbounds := hb.chain.bounds hnd
    have hstart := hb.heap_start
    have hend := hb.end_le
    unfold RootApart at hroot
    omega
  rw [filled_of_out, store_of_out hout]
  · intro i hi heq
    have hapart := block_header hb hnd hi
    omega
  · intro i hi heq
    have hapart := (hd.spared hi).header hb hnd
    omega

/-! ## The call -/

/-- `kfree` of the block leaves a byte that is to be kept. -/
theorem freed_kept (hb : h.Borrowed nodes e n res l t r e') {h' : Heap}
    (hc' : h'.Chain (l ++ t :: r) e') (hx : h.Kept nodes e n x) :
    (h'.freed l t).mem x = h'.mem x := by
  apply Heap.kfree_frame hc'
  · have hapart := hb.apart hx (by simp : t ∈ l ++ t :: r) (Or.inl rfl)
    omega
  · intro p hp hfree
    have hmem : p ∈ l ++ t :: r := List.mem_append_left _ (List.mem_of_getLast? hp)
    have hapart := hb.apart hx hmem (Or.inr hfree)
    omega

/-- `kfree` leaves `heap_root`. -/
theorem heapAt_freed (hb : (heapAt heap m).Borrowed nodes e n res l t r e')
    (hroot : RootApart heap (heapAt heap m) e n) (hc' : (heapAt heap m').Chain (l ++ t :: r) e') :
    heapAt heap ((heapAt heap m').freed l t).mem = (heapAt heap m').freed l t := by
  have hsame : ∀ x, heap ≤ x → x < heap + 16 → ((heapAt heap m').freed l t).mem x = m' x := by
    intro x h1 h2
    unfold RootApart at hroot
    exact freed_kept hb hc' (Or.inr (by omega))
  have hhead : load 8 ((heapAt heap m').freed l t).mem heap = (heapAt heap m').heap_head :=
    load_congr (fun x h1 h2 => hsame x h1 (by omega))
  have hstart : load 8 ((heapAt heap m').freed l t).mem (heap + 8) = (heapAt heap m').heap_start :=
    load_congr (fun x h1 h2 => hsame x (by omega) (by omega))
  obtain ⟨hhead', hstart'⟩ := Heap.freed_root (h := heapAt heap m') (l := l) (t := t)
  rw [← hhead'] at hhead
  rw [← hstart'] at hstart
  rw [heapAt, hhead, hstart]

/-- What `memmove` returns, with the memory before its `kfree`. -/
theorem memmove_eq {num : BitVec 32} {fuel : ℕ}
    (hres : (heapAt heap m).kmalloc fuel num = some res) (hptr : res.ptr = t.addr + 9)
    (hc' : (heapAt heap (filled heap res d s num.toNat)).Chain (l ++ t :: r) e')
    (hused : t.status = HEAP_ALLOCATION_USED) (hfuel : (l ++ t :: r).length < fuel) :
    memmove heap m fuel d s num =
      some (d, ((heapAt heap (filled heap res d s num.toNat)).freed l t).mem) := by
  have hfree := Heap.kfree_freed hc' hused fuel hfuel
  rw [← hptr] at hfree
  unfold memmove kmallocAt kfreeAt
  dsimp only
  rw [hres, Option.map_some, Option.bind_eq_bind, Option.bind_some]
  dsimp only
  unfold filled at hfree ⊢
  rw [hfree]
  rfl

/-- On every heap that is a chain and every two ranges that are placed in USED nodes or outside the
heap, `memmove` moves the bytes and leaves the others, and the USED nodes stay. -/
theorem memmove_moves (heap : ℕ) (m : ByteMemory) (nodes : List Node) (e : ℕ) (num : BitVec 32)
    (destination source : ℕ) (hc : (heapAt heap m).Chain nodes e)
    (hroom : e + num.toNat + 18 ≤ 2^64) (hroot : RootApart heap (heapAt heap m) e num.toNat)
    (hdest : Placed 16 heap (heapAt heap m) nodes e num.toNat destination)
    (hsource : Placed 8 heap (heapAt heap m) nodes e num.toNat source) :
    ∃ m', (∀ fuel, nodes.length + 1 < fuel →
        memmove heap m fuel destination source num = some (destination, m')) ∧
      Moved 8 heap m m' nodes e num.toNat destination source := by
  obtain ⟨res, l, t, r, e', hres, hb⟩ := Heap.kmalloc_borrowed hc hroom
  have hc' := chain_filled (s := source) hc hb hroot hdest
  refine ⟨((heapAt heap (filled heap res destination source num.toNat)).freed l t).mem,
    fun fuel hfuel => ?_, ?_⟩
  · have hlen := hb.length_le
    exact memmove_eq (hres fuel (by omega)) hb.ptr hc' hb.used (by omega)
  · constructor
    · intro i hi
      rw [freed_kept hb hc' (hdest.spared hi).kept]
      exact filled_copied hc hb hroot hroom hdest hsource i hi
    · intro x hx hout
      rw [freed_kept hb hc' hx.kept]
      exact filled_spared hc hb hroot hx hout
    · intro nd hnd hused
      have hother := hb.others nd hnd hused
      rw [heapAt_freed hb hroot hc']
      refine ⟨Heap.kfree_visits hc' ?_ hb.used hother hused, Heap.kfree_header hc' hother ?_⟩
      · have hend := hb.end_le
        omega
      · exact fun p _ hfree => Node.ne_of_used hused hfree

/-- A heap of one USED node of eight bytes, behind its `heap_root` at 4096. -/
def oneBlock : ByteMemory :=
  store 8 (store 8 (store 8 (Function.update (store 8 (fun _ => 0) 4240 8) 4248
    HEAP_ALLOCATION_USED) 4249 (2^56)) 4096 4249) 4104 4240

theorem oneBlock_start : (heapAt 4096 oneBlock).heap_start = 4240 := by decide

/-- It is a chain. -/
theorem oneBlock_chain :
    (heapAt 4096 oneBlock).Chain [⟨4240, 8, HEAP_ALLOCATION_USED⟩] 4257 where
  tiles := ⟨oneBlock_start.symm, rfl⟩
  header := by
    simp only [List.forall_mem_singleton]
    exact ⟨by decide, by decide⟩
  below := by
    simp only [List.forall_mem_singleton]
    decide
  head_le := by decide
  lt_top := by decide

theorem oneBlock_root (n : ℕ) : RootApart 4096 (heapAt 4096 oneBlock) 4257 n := by
  unfold RootApart
  rw [oneBlock_start]
  omega

/-- Ranges in its payload. -/
theorem placed_oneBlock (hlo : 4249 ≤ a) (hhi : a + n ≤ 4257) :
    Placed k 4096 (heapAt 4096 oneBlock) [⟨4240, 8, HEAP_ALLOCATION_USED⟩] 4257 n a := by
  unfold Placed
  refine Or.inl ⟨⟨4240, 8, HEAP_ALLOCATION_USED⟩, List.mem_cons_self .., rfl, fun i hi => ?_⟩
  unfold Node.InPayload addw
  dsimp only
  omega

/-- Ranges in its `heap_root`. -/
theorem placed_oneBlock_root (hlo : 4096 + k ≤ a) (hhi : a + n ≤ 4112) :
    Placed k 4096 (heapAt 4096 oneBlock) [⟨4240, 8, HEAP_ALLOCATION_USED⟩] 4257 n a := by
  unfold Placed
  refine Or.inr fun i hi => ?_
  unfold OutsideHeap addw
  rw [oneBlock_start]
  omega

/-- Four bytes of the block, moved by one. -/
theorem memmove_moves_overlap :
    ∃ m', (∀ fuel, 1 + 1 < fuel → memmove 4096 oneBlock fuel 4250 4249 4 = some (4250, m')) ∧
      Moved 8 4096 oneBlock m' [⟨4240, 8, HEAP_ALLOCATION_USED⟩] 4257 4 4250 4249 :=
  memmove_moves 4096 oneBlock _ 4257 4 4250 4249 oneBlock_chain (by decide) (oneBlock_root 4)
    (placed_oneBlock (by decide) (by decide)) (placed_oneBlock (by decide) (by decide))

/-! ## The bytes of `heap_root` -/

/-- `memmove` moves and leaves the bytes, when the destination is placed apart from the first `kd`
bytes of `heap_root`, the source from the first `ks` and the bytes that are left from the first
`kf`. -/
def AlwaysMoves (kd ks kf : ℕ) : Prop :=
  ∀ (heap : ℕ) (m : ByteMemory) (nodes : List Node) (e : ℕ) (num : BitVec 32)
    (destination source : ℕ), (heapAt heap m).Chain nodes e → e + num.toNat + 18 ≤ 2^64 →
    RootApart heap (heapAt heap m) e num.toNat →
    Placed kd heap (heapAt heap m) nodes e num.toNat destination →
    Placed ks heap (heapAt heap m) nodes e num.toNat source →
    ∃ m', (∀ fuel, nodes.length + 1 < fuel →
        memmove heap m fuel destination source num = some (destination, m')) ∧
      Moved kf heap m m' nodes e num.toNat destination source

/-- A byte moved to itself: the block is appended at the chain end, and `heap_head` has changed. -/
theorem not_leaves_heap_head {kd ks : ℕ} : ¬ AlwaysMoves kd ks 0 := by
  intro hall
  obtain ⟨m', hrun, hmoved⟩ := hall 4096 oneBlock _ 4257 1 4249 4249 oneBlock_chain (by decide)
    (oneBlock_root _) (placed_oneBlock (by decide) (by decide))
    (placed_oneBlock (by decide) (by decide))
  have hout : Spared 0 4096 (heapAt 4096 oneBlock) [⟨4240, 8, HEAP_ALLOCATION_USED⟩] 4257 1 4096 :=
    Or.inr ⟨Or.inl (by rw [oneBlock_start]; decide), by decide⟩
  have hsame : m' 4096 = oneBlock 4096 := by
    apply hmoved.frame 4096 hout
    intro i hi
    have hone : i < 1 := hi
    unfold addw
    omega
  have hbyte : (memmove 4096 oneBlock 3 4249 4249 1).map (fun res => res.2 4096) = some 170 := by
    decide +kernel
  rw [hrun 3 (by decide)] at hbyte
  have hnew : m' 4096 = 170 := Option.some.inj hbyte
  exact absurd (hsame.symm.trans hnew) (by decide)

/-- With `heap_head` as the source, its new value is moved. -/
theorem not_moves_heap_head {kd kf : ℕ} : ¬ AlwaysMoves kd 0 kf := by
  intro hall
  obtain ⟨m', hrun, hmoved⟩ := hall 4096 oneBlock _ 4257 1 4249 4096 oneBlock_chain (by decide)
    (oneBlock_root _) (placed_oneBlock (by decide) (by decide))
    (placed_oneBlock_root (by decide) (by decide))
  have hsame : m' 4249 = oneBlock 4096 := hmoved.copied 0 (by decide)
  have hbyte : (memmove 4096 oneBlock 3 4249 4096 1).map (fun res => res.2 4249) = some 170 := by
    decide +kernel
  rw [hrun 3 (by decide)] at hbyte
  have hnew : m' 4249 = 170 := Option.some.inj hbyte
  exact absurd (hsame.symm.trans hnew) (by decide)

/-- With a byte of `heap_start` as the destination, no node is visited. -/
theorem not_moves_to_heap_start {ks kf : ℕ} : ¬ AlwaysMoves 8 ks kf := by
  intro hall
  obtain ⟨m', hrun, hmoved⟩ := hall 4096 oneBlock _ 4257 1 4111 4256 oneBlock_chain (by decide)
    (oneBlock_root _) (placed_oneBlock_root (by decide) (by decide))
    (placed_oneBlock (by decide) (by decide))
  have hvisited := (hmoved.kept _ (List.mem_cons_self ..) rfl).1.lt
  have hroot : (memmove 4096 oneBlock 3 4111 4256 1).map
      (fun res => (load 8 res.2 4096, load 8 res.2 4104)) = some (4266, 2^56 + 4240) := by
    decide +kernel
  rw [hrun 3 (by decide)] at hroot
  obtain ⟨hhead, hstart⟩ := Prod.mk.inj (Option.some.inj hroot)
  unfold heapAt at hvisited
  dsimp only at hvisited hhead hstart
  rw [hhead, hstart] at hvisited
  exact absurd hvisited (by norm_num)

/-- `memmove` does not move and leave the bytes of `heap_root` like others, and less than what
`memmove_moves` excludes of them is not enough. -/
theorem not_always_moves : ¬ AlwaysMoves 0 0 0 ∧
    ¬ AlwaysMoves 16 8 0 ∧ ¬ AlwaysMoves 16 0 8 ∧ ¬ AlwaysMoves 8 8 8 :=
  ⟨not_leaves_heap_head, not_leaves_heap_head, not_moves_heap_head, not_moves_to_heap_start⟩

end Potatos
