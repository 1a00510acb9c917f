import Potatos.Lib.Tiling
import Potatos.Mem.Kheap
import Mathlib.Tactic.Linarith

/-!
# The chain of heap nodes

The nodes that the walks of `kheap.c` visit, as a list: they tile the range from `heap_start` to the
chain end, each starts below `heap_head`, and the headers in memory are theirs. `heap_head` itself
is only the payload of the node that was appended last, so it is at most the chain end.

On such a chain the loop of `kmalloc` takes the first node that fits, or appends at the chain end
(`kmallocLoop_chain`), and the loop of `kfree` finds the node that it looks for (`kfreeLoop_chain`).
`kfree` reads a header behind the freed node also when that node is the last one, and there the
header is whatever the bytes at the chain end are.
-/

namespace Potatos

open Lib

/-- A node of the chain: its address, and its header. -/
structure Node where
  addr : ℕ
  size : ℕ
  status : BitVec 8
deriving DecidableEq

namespace Node

/-- The bytes of the node, header and payload. -/
def len (nd : Node) : ℕ := 9 + nd.size

/-- A free node that is large enough. -/
def fits (n : ℕ) (nd : Node) : Bool :=
  decide (n ≤ nd.size) && (nd.status == HEAP_ALLOCATION_FREE)

theorem fits_iff {n : ℕ} {nd : Node} :
    nd.fits n = true ↔ n ≤ nd.size ∧ nd.status = HEAP_ALLOCATION_FREE := by
  simp [fits]

/-- A USED node is none of the FREE ones. -/
theorem ne_of_used {x y : Node} (hused : y.status = HEAP_ALLOCATION_USED)
    (hfree : x.status = HEAP_ALLOCATION_FREE) : y ≠ x := by
  rintro rfl
  exact absurd (hused.symm.trans hfree) (by decide)

end Node

namespace Heap

/-- The header at the node's address is the node's. -/
def Header (h : Heap) (nd : Node) : Prop :=
  h.size nd.addr = nd.size ∧ h.status nd.addr = nd.status

/-- The nodes of the chain, and the chain end. -/
structure Chain (h : Heap) (nodes : List Node) (e : ℕ) : Prop where
  tiles : Tiles Node.addr Node.len h.heap_start nodes e
  header : ∀ nd ∈ nodes, h.Header nd
  below : ∀ nd ∈ nodes, nd.addr < h.heap_head
  head_le : h.heap_head ≤ e
  lt_top : e < 2^64

variable {h h' : Heap} {a b n v e cur fuel : ℕ} {s : BitVec 8} {nd x : Node}
  {nodes l r suffix : List Node}

/-! ## Reading and writing headers -/

theorem size_setSize (hv : v < 2^64) : (h.setSize a v).size a = v := by
  have h8 : (256 : ℕ)^8 = 2^64 := by norm_num
  unfold size setSize
  rw [load_store_self, h8, Nat.mod_eq_of_lt hv]

@[simp] theorem status_setSize : (h.setSize a v).status a = h.status a :=
  store_of_out (Or.inr (by omega))

@[simp] theorem status_setStatus : (h.setStatus a s).status a = s := Function.update_self ..

@[simp] theorem size_setStatus : (h.setStatus a s).size a = h.size a :=
  load_congr (fun x _ hx => Function.update_of_ne (by omega) ..)

/-- Two heaps agree on the header at `a`. -/
def SameHeader (h h' : Heap) (a : ℕ) : Prop := ∀ x, a ≤ x → x < a + 9 → h'.mem x = h.mem x

theorem SameHeader.size_eq (hs : SameHeader h h' a) : h'.size a = h.size a :=
  load_congr (fun x h1 h2 => hs x h1 (by omega))

theorem SameHeader.status_eq (hs : SameHeader h h' a) : h'.status a = h.status a :=
  hs (a + 8) (by omega) (by omega)

theorem SameHeader.header (hs : SameHeader h h' nd.addr) (hh : h.Header nd) : h'.Header nd :=
  ⟨hs.size_eq.trans hh.1, hs.status_eq.trans hh.2⟩

/-- A heap that differs in the header at `a` only. -/
def OnlyHeader (h h' : Heap) (a : ℕ) : Prop :=
  (∀ x, x < a ∨ a + 9 ≤ x → h'.mem x = h.mem x) ∧
    h'.heap_head = h.heap_head ∧ h'.heap_start = h.heap_start

theorem setSize_only : OnlyHeader h (h.setSize a v) a :=
  ⟨fun _ hx => store_of_out (by omega), rfl, rfl⟩

theorem setStatus_only : OnlyHeader h (h.setStatus a s) a :=
  ⟨fun _ hx => Function.update_of_ne (by omega) .., rfl, rfl⟩

theorem OnlyHeader.trans {h'' : Heap} (h1 : OnlyHeader h h' a) (h2 : OnlyHeader h' h'' a) :
    OnlyHeader h h'' a :=
  ⟨fun x hx => (h2.1 x hx).trans (h1.1 x hx), h2.2.1.trans h1.2.1, h2.2.2.trans h1.2.2⟩

/-- The headers apart from `a` stay. -/
theorem OnlyHeader.same (ho : OnlyHeader h h' a) (hab : b + 9 ≤ a ∨ a + 9 ≤ b) :
    SameHeader h h' b :=
  fun x h1 h2 => ho.1 x (by omega)

/-- `split` writes the two headers, and nothing else. -/
theorem split_spec (h : Heap) {leftover : ℕ} (hn : a + n + 9 < 2^64) (hl : leftover < 2^64) :
    (h.split a n leftover).Header ⟨a, n, HEAP_ALLOCATION_USED⟩ ∧
      (h.split a n leftover).Header ⟨a + n + 9, leftover, HEAP_ALLOCATION_FREE⟩ ∧
      (∀ x, x < a ∨ a + 9 ≤ x → x < a + n + 9 ∨ a + n + 9 + 9 ≤ x →
        (h.split a n leftover).mem x = h.mem x) ∧
      (h.split a n leftover).heap_head = h.heap_head ∧
      (h.split a n leftover).heap_start = h.heap_start := by
  have hB : addw (addw a n) 9 = a + n + 9 := by
    rw [addw_of_lt (by omega : a + n < 2^64), addw_of_lt hn]
  unfold split
  dsimp only
  rw [hB]
  -- First the header of the taken part, then the one of the rest.
  generalize hA : (h.setSize a n).setStatus a HEAP_ALLOCATION_USED = A
  have hA1 : OnlyHeader h A a := by rw [← hA]; exact setSize_only.trans setStatus_only
  have hA2 : A.Header ⟨a, n, HEAP_ALLOCATION_USED⟩ := by
    rw [← hA]
    exact ⟨by rw [size_setStatus, size_setSize (by omega)], status_setStatus⟩
  generalize hC : (A.setSize (a + n + 9) leftover).setStatus (a + n + 9) HEAP_ALLOCATION_FREE = C
  have hC1 : OnlyHeader A C (a + n + 9) := by rw [← hC]; exact setSize_only.trans setStatus_only
  have hC2 : C.Header ⟨a + n + 9, leftover, HEAP_ALLOCATION_FREE⟩ := by
    rw [← hC]
    exact ⟨by rw [size_setStatus, size_setSize hl], status_setStatus⟩
  -- The second is behind the first, and leaves it as it is.
  have hsame : SameHeader A C a := hC1.same (Or.inl (by omega))
  have hfirst : C.Header ⟨a, n, HEAP_ALLOCATION_USED⟩ :=
    ⟨hsame.size_eq.trans hA2.1, hsame.status_eq.trans hA2.2⟩
  refine ⟨hfirst, hC2, fun x h1 h2 => ?_, hC1.2.1.trans hA1.2.1, hC1.2.2.trans hA1.2.2⟩
  rw [hC1.1 x h2, hA1.1 x h1]

/-! ## The nodes of a chain -/

theorem Chain.ordered (hc : h.Chain nodes e) : Ordered Node.addr Node.len nodes := hc.tiles.ordered

theorem Chain.bounds (hc : h.Chain nodes e) (hnd : nd ∈ nodes) :
    h.heap_start ≤ nd.addr ∧ nd.addr + 9 + nd.size ≤ e := by
  have := hc.tiles.bounds hnd
  unfold Node.len at this
  omega

/-- A node of the chain is where its address says. -/
theorem Chain.eq_of_addr (hc : h.Chain nodes e) {nd' : Node} (h1 : nd ∈ nodes) (h2 : nd' ∈ nodes)
    (heq : nd.addr = nd'.addr) : nd = nd' :=
  hc.ordered.eq_of_start h1 h2 (fun x _ => by unfold Node.len; omega) heq

/-- Two nodes of the chain are the same or apart. -/
theorem Chain.eq_or_apart (hc : h.Chain nodes e) {nd' : Node} (h1 : nd ∈ nodes)
    (h2 : nd' ∈ nodes) :
    nd = nd' ∨ nd.addr + 9 + nd.size ≤ nd'.addr ∨ nd'.addr + 9 + nd'.size ≤ nd.addr := by
  have := hc.ordered.eq_or_apart h1 h2
  unfold Node.len at this
  rcases this with h | h | h
  · exact Or.inl h
  · exact Or.inr (Or.inl (by omega))
  · exact Or.inr (Or.inr (by omega))

/-- The headers tell where the nodes are. -/
theorem walk_unique {l' : List Node} {e' : ℕ} (ht : Tiles Node.addr Node.len cur l e)
    (ht' : Tiles Node.addr Node.len cur l' e') (hh : ∀ x ∈ l, h.Header x)
    (hh' : ∀ x ∈ l', h.Header x) (hb : ∀ x ∈ l, x.addr < h.heap_head)
    (hb' : ∀ x ∈ l', x.addr < h.heap_head) (hle : h.heap_head ≤ e) (hle' : h.heap_head ≤ e') :
    l = l' ∧ e = e' := by
  induction l generalizing cur l' with
  | nil =>
    cases l' with
    | nil => exact ⟨rfl, ht.symm.trans ht'⟩
    | cons y l' =>
      -- The walk has stopped, so there is no other node.
      have hy := hb' y (List.mem_cons_self ..)
      have hcur := ht'.1
      rw [tiles_nil] at ht
      omega
  | cons x l ih =>
    have hx := hb x (List.mem_cons_self ..)
    have hcur := ht.1
    cases l' with
    | nil =>
      rw [tiles_nil] at ht'
      omega
    | cons y l' =>
      have haddr : y.addr = x.addr := ht'.1.trans hcur.symm
      have hheader := hh x (List.mem_cons_self ..)
      have hheader' := hh' y (List.mem_cons_self ..)
      have hxy : x = y := by
        obtain ⟨addr, size, status⟩ := x
        obtain ⟨addr', size', status'⟩ := y
        obtain rfl : addr' = addr := haddr
        obtain rfl : size' = size := hheader'.1.symm.trans hheader.1
        obtain rfl : status' = status := hheader'.2.symm.trans hheader.2
        rfl
      subst hxy
      obtain ⟨rfl, rfl⟩ := ih ht.2 ht'.2 (fun z hz => hh z (List.mem_cons_of_mem _ hz))
        (fun z hz => hh' z (List.mem_cons_of_mem _ hz))
        (fun z hz => hb z (List.mem_cons_of_mem _ hz))
        (fun z hz => hb' z (List.mem_cons_of_mem _ hz))
      exact ⟨rfl, rfl⟩

/-- A heap has one chain. -/
theorem Chain.unique {nodes' : List Node} {e' : ℕ} (hc : h.Chain nodes e)
    (hc' : h.Chain nodes' e') : nodes = nodes' ∧ e = e' :=
  walk_unique hc.tiles hc'.tiles hc.header hc'.header hc.below hc'.below hc.head_le hc'.head_le

/-- The nodes from an address on, as their headers are read, and where they end. -/
def nodesFrom (h : Heap) : ℕ → ℕ → List Node × ℕ
  | 0, a => ([], a)
  | fuel + 1, a =>
    if a < h.heap_head then
      let rest := nodesFrom h fuel (a + (9 + h.size a))
      (⟨a, h.size a, h.status a⟩ :: rest.1, rest.2)
    else ([], a)

theorem nodesFrom_spec : ∀ {a : ℕ}, Tiles Node.addr Node.len a (h.nodesFrom fuel a).1
      (h.nodesFrom fuel a).2 ∧
    ∀ nd ∈ (h.nodesFrom fuel a).1, h.Header nd ∧ nd.addr < h.heap_head := by
  induction fuel with
  | zero => exact ⟨rfl, fun nd hnd => absurd hnd List.not_mem_nil⟩
  | succ fuel ih =>
    intro a
    unfold nodesFrom
    split_ifs with hlt
    · obtain ⟨htiles, hheader⟩ := ih (a := a + (9 + h.size a))
      exact ⟨⟨rfl, htiles⟩, List.forall_mem_cons.mpr ⟨⟨⟨rfl, rfl⟩, hlt⟩, hheader⟩⟩
    · exact ⟨rfl, fun nd hnd => absurd hnd List.not_mem_nil⟩

/-- When they get to `heap_head`, they are the chain. -/
theorem chain_of_nodesFrom (hnodes : h.nodesFrom fuel h.heap_start = (nodes, e))
    (hhead : h.heap_head ≤ e) (htop : e < 2^64) : h.Chain nodes e := by
  obtain ⟨htiles, hheader⟩ := @nodesFrom_spec h fuel h.heap_start
  rw [hnodes] at htiles hheader
  exact ⟨htiles, fun nd hnd => (hheader nd hnd).1, fun nd hnd => (hheader nd hnd).2, hhead, htop⟩

/-- The chain is in the headers of its nodes, and the other bytes do not matter. -/
theorem Chain.setMem (hc : h.Chain nodes e) {mem : ByteMemory}
    (hsame : ∀ nd ∈ nodes, ∀ x, nd.addr ≤ x → x < nd.addr + 9 → mem x = h.mem x) :
    Chain { h with mem := mem } nodes e := by
  refine ⟨hc.tiles, fun nd hnd => ?_, hc.below, hc.head_le, hc.lt_top⟩
  have hheader : SameHeader h { h with mem := mem } nd.addr := hsame nd hnd
  exact hheader.header (hc.header nd hnd)

/-- The nodes before and behind a node of the chain. -/
theorem Chain.around (hc : h.Chain (l ++ nd :: r) e) :
    (∀ x ∈ l, x.addr + 9 + x.size ≤ nd.addr) ∧ (∀ x ∈ r, nd.addr + 9 + nd.size ≤ x.addr) := by
  obtain ⟨-, hrest, hl⟩ := List.pairwise_append.mp hc.ordered
  have hr := (List.pairwise_cons.mp hrest).1
  unfold Node.len at hl hr
  exact ⟨fun x hx => by have := hl x hx nd (List.mem_cons_self ..); omega,
    fun x hx => by have := hr x hx; omega⟩

theorem Chain.header_mid (hc : h.Chain (l ++ nd :: r) e) : h.Header nd :=
  hc.header nd (List.mem_append_right _ (List.mem_cons_self ..))

theorem Chain.bounds_mid (hc : h.Chain (l ++ nd :: r) e) :
    h.heap_start ≤ nd.addr ∧ nd.addr + 9 + nd.size ≤ e :=
  hc.bounds (List.mem_append_right _ (List.mem_cons_self ..))

theorem Chain.below_mid (hc : h.Chain (l ++ nd :: r) e) : nd.addr < h.heap_head :=
  hc.below nd (List.mem_append_right _ (List.mem_cons_self ..))

/-- The walk steps from a node to where its payload ends. -/
theorem nextAddress_eq (hh : h.Header nd) (hlt : nd.addr + nd.len < 2^64) :
    h.nextAddress nd.addr = nd.addr + nd.len := by
  unfold nextAddress addw
  unfold Node.len at hlt ⊢
  rw [hh.1]
  omega

/-- At a point of the chain it steps to where the rest begins. -/
theorem nextAddress_of_tiles (ht : Tiles Node.addr Node.len cur (nd :: suffix) e) (htop : e < 2^64)
    (hh : h.Header nd) : h.nextAddress cur = cur + nd.len := by
  obtain ⟨rfl, hrest⟩ := ht
  exact nextAddress_eq hh (hrest.le.trans_lt htop)

/-! ## The two walks -/

/-- The loop of `kmalloc`, from a point of the chain on: it takes the first node that fits, or
appends at the chain end. -/
theorem kmallocLoop_chain (hle : h.heap_head ≤ e) (htop : e < 2^64)
    (ht : Tiles Node.addr Node.len cur suffix e) (hh : ∀ nd ∈ suffix, h.Header nd)
    (hb : ∀ nd ∈ suffix, nd.addr < h.heap_head) {res : Allocation}
    (hres : h.kmallocLoop n fuel cur = some res) :
    (∃ l nd r, suffix = l ++ nd :: r ∧ (∀ x ∈ l, x.fits n = false) ∧ nd.fits n = true ∧
      res.ptr = (h.reuse n nd.addr).ptr ∧ res.heap = (h.reuse n nd.addr).heap) ∨
    ((∀ x ∈ suffix, x.fits n = false) ∧
      res.ptr = (h.append n e).ptr ∧ res.heap = (h.append n e).heap) := by
  induction suffix generalizing cur fuel res with
  | nil =>
    -- The chain end is not below `heap_head`, so the loop stops there.
    have hcur : cur = e := ht
    cases fuel with
    | zero => cases hres
    | succ fuel =>
      rw [kmallocLoop, if_neg (by omega), hcur] at hres
      obtain rfl := Option.some.inj hres
      exact Or.inr ⟨fun x hx => absurd hx List.not_mem_nil, rfl, rfl⟩
  | cons nd suffix ih =>
    have hnd := hh nd (List.mem_cons_self ..)
    have hlt := hb nd (List.mem_cons_self ..)
    have hnext := nextAddress_of_tiles ht htop hnd
    obtain ⟨hcur, hrest⟩ := ht
    -- What the code reads at the address is the header of the node.
    have hfits : h.fits n cur = nd.fits n := by
      unfold fits Node.fits
      rw [← hcur, hnd.1, hnd.2]
    cases fuel with
    | zero => cases hres
    | succ fuel =>
      rw [kmallocLoop, if_pos (by omega), hfits] at hres
      by_cases hf : nd.fits n = true
      · rw [if_pos hf] at hres
        obtain rfl := Option.some.inj hres
        exact Or.inl ⟨[], nd, suffix, rfl, fun x hx => absurd hx List.not_mem_nil, hf,
          by rw [hcur], by rw [hcur]⟩
      · rw [if_neg hf] at hres
        obtain ⟨res', hres', rfl⟩ := Option.map_eq_some_iff.mp hres
        rw [hnext] at hres'
        rcases ih hrest (fun x hx => hh x (List.mem_cons_of_mem _ hx))
          (fun x hx => hb x (List.mem_cons_of_mem _ hx)) hres' with
          ⟨l, y, r, rfl, hl, hy, hp, hm⟩ | ⟨hnone, hp, hm⟩
        · -- The rest of the walk has decided.
          refine Or.inl ⟨nd :: l, y, r, rfl, fun x hx => ?_, hy, hp, hm⟩
          rcases List.mem_cons.mp hx with rfl | hx
          · simpa using hf
          · exact hl x hx
        · refine Or.inr ⟨fun x hx => ?_, hp, hm⟩
          rcases List.mem_cons.mp hx with rfl | hx
          · simpa using hf
          · exact hnone x hx

/-- What `kmalloc` does on a chain. -/
theorem kmalloc_chain (hc : h.Chain nodes e) {size : BitVec 32} {res : Allocation}
    (hres : h.kmalloc fuel size = some res) :
    (∃ l nd r, nodes = l ++ nd :: r ∧ (∀ x ∈ l, x.fits size.toNat = false) ∧
      nd.fits size.toNat = true ∧
      res.ptr = (h.reuse size.toNat nd.addr).ptr ∧ res.heap = (h.reuse size.toNat nd.addr).heap) ∨
    ((∀ x ∈ nodes, x.fits size.toNat = false) ∧
      res.ptr = (h.append size.toNat e).ptr ∧ res.heap = (h.append size.toNat e).heap) :=
  kmallocLoop_chain hc.head_le hc.lt_top hc.tiles hc.header hc.below hres

/-- The address of the last node of a list, or `p` when the list is empty. -/
def lastAddr (p : ℕ) (l : List Node) : ℕ := (l.getLast?.map Node.addr).getD p

theorem lastAddr_cons (p : ℕ) (nd : Node) (l : List Node) :
    lastAddr p (nd :: l) = lastAddr nd.addr l := by
  cases l with
  | nil => rfl
  | cons y l =>
    unfold lastAddr
    rw [List.getLast?_cons_cons]
    have hne : y :: l ≠ [] := List.cons_ne_nil y l
    rw [List.getLast?_eq_some_getLast hne]
    rfl

/-- The loop of `kfree`, from a point of the chain on: on a USED node of the rest it frees that
node, with the node before it as `previous`. -/
theorem kfreeLoop_chain {previous : ℕ} {res : Heap}
    (ht : Tiles Node.addr Node.len cur (l ++ nd :: r) e) (htop : e < 2^64)
    (hh : ∀ y ∈ l ++ nd :: r, h.Header y) (hb : ∀ y ∈ l ++ nd :: r, y.addr < h.heap_head)
    (hused : nd.status = HEAP_ALLOCATION_USED)
    (hres : h.kfreeLoop nd.addr fuel cur previous = some res) :
    res = (h.setStatus nd.addr HEAP_ALLOCATION_FREE).kheapMerge nd.addr (nd.addr + nd.len)
      (lastAddr previous l) := by
  induction l generalizing cur fuel previous with
  | nil =>
    have hnd := hh nd (List.mem_cons_self ..)
    have hlt := hb nd (List.mem_cons_self ..)
    have hnext := nextAddress_of_tiles ht htop hnd
    obtain ⟨hcur, hrest⟩ := ht
    cases fuel with
    | zero => cases hres
    | succ fuel =>
      -- The loop has come to the node, and it is USED.
      have hstatus : h.status cur = HEAP_ALLOCATION_USED := by rw [← hcur, hnd.2, hused]
      rw [kfreeLoop, if_pos (by omega), if_pos ⟨hcur.symm, hstatus⟩] at hres
      rw [hnext, ← hcur] at hres
      exact (Option.some.inj hres).symm
  | cons y l ih =>
    have hy := hh y (List.mem_cons_self ..)
    have hlt := hb y (List.mem_cons_self ..)
    have hnext := nextAddress_of_tiles ht htop hy
    obtain ⟨hcur, hrest⟩ := ht
    -- A node before it has another address, so the loop goes on.
    have hne : y.addr ≠ nd.addr := by
      have := (hrest.bounds (List.mem_append_right _ (List.mem_cons_self ..))).1
      unfold Node.len at this
      omega
    cases fuel with
    | zero => cases hres
    | succ fuel =>
      rw [kfreeLoop, if_pos (by omega), if_neg (fun hf => hne (hcur.trans hf.1))] at hres
      rw [hnext] at hres
      rw [lastAddr_cons, hcur]
      exact ih hrest (fun z hz => hh z (List.mem_cons_of_mem _ hz))
        (fun z hz => hb z (List.mem_cons_of_mem _ hz)) hres

end Heap

end Potatos
