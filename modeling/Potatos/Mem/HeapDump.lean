import Potatos.Console.FormatText
import Potatos.Mem.HeapLedger

/-!
# The dump of the heap

`kheap_print_travel`, which prints a line for each node that it comes to. In every run whose steps
are `Sound` it prints the account of the heap (`dump_of_sound`): one line for each node from
`heap_start` on, each with the address at which the next one begins, and `USED` for those of the
live blocks.

The two strings that `%s` is given are literals. Their addresses are not modelled: the argument is 1
for the one and 0 for the other.
-/

namespace Potatos

open Lib Buffer

/-- The format of a line. -/
def travelFormat : List (BitVec 8) := text "Allocated ptr %u: %s: %p -> next: %p\n"

/-- The string of a `%s`. -/
def statusName (p : BitVec 64) : List (BitVec 8) := if p = 1 then text "USED" else text "FREE"

/-- The bytes that a call of `printf` with the format `str` writes. -/
def printBytes (str : List (BitVec 8)) (args : List (BitVec 64)) : Option (List (BitVec 8)) :=
  (printf statusName (str.getD · 0) (args.getD · 0) (str.length + 1)).map Formatted.bytes

namespace Heap

variable (h : Heap)

/-- The arguments of the line of a node. -/
def travelArgs (current_node : ℕ) : List (BitVec 64) :=
  let addr := current_node
  let next_offset := addw (h.size current_node) 9
  let next_address := addw current_node next_offset
  [BitVec.ofNat 64 (h.size current_node),
    if h.status current_node = HEAP_ALLOCATION_USED then 1 else 0,
    BitVec.ofNat 64 addr, BitVec.ofNat 64 next_address]

/-- The loop of `kheap_print_travel` from `current_node` on. -/
def kheapPrintTravelLoop : ℕ → ℕ → Option (List (BitVec 8))
  | 0, _ => none
  | fuel + 1, current_node =>
    if current_node < h.heap_head then do
      let line ← printBytes travelFormat (h.travelArgs current_node)
      let rest ← kheapPrintTravelLoop fuel (h.nextAddress current_node)
      some (line ++ rest)
    else some []

/-- `kheap_print_travel`. -/
def kheapPrintTravel (fuel : ℕ) : Option (List (BitVec 8)) := do
  let nodes ← h.kheapPrintTravelLoop fuel h.heap_start
  some (text "\n" ++ text "kheap map travel!\n" ++ nodes ++ text "--------------------\n")

end Heap

/-- The line of a node. -/
def Node.line (nd : Node) : List (BitVec 8) :=
  text "Allocated ptr " ++ numeral 10 (nd.size % 2^32) ++ text ": " ++
    (if nd.status = HEAP_ALLOCATION_USED then text "USED" else text "FREE") ++ text ": " ++
    pointerText nd.addr ++ text " -> next: " ++ pointerText (nd.addr + nd.len) ++ text "\n"

namespace Heap

variable {h : Heap} {e cur fuel : ℕ} {nd : Node} {nodes suffix : List Node}

/-! ## The line of a node -/

/-- The literals and the conversions of the format. -/
theorem travelFormat_pieces : travelFormat =
    text "Allocated ptr " ++ ([chr '%', chr 'u'] ++ (text ": " ++ ([chr '%', chr 's'] ++
      (text ": " ++ ([chr '%', chr 'p'] ++ (text " -> next: " ++ ([chr '%', chr 'p'] ++
        text "\n"))))))) := by
  decide

/-- The text of the format, for any arguments. -/
theorem render_travelFormat (args : ℕ → BitVec 64) :
    printfConversions.render statusName args travelFormat 0 =
      some (text "Allocated ptr " ++ numeral 10 ((args 0).toNat % 2^32) ++ text ": " ++
        statusName (args 1) ++ text ": " ++ pointerText (args 2).toNat ++ text " -> next: " ++
        pointerText (args 3).toNat ++ text "\n", 4) := by
  rw [travelFormat_pieces]
  rw [render_plain_append (by decide), render_convert (convert_unsigned ..)]
  rw [render_plain_append (by decide), render_convert (convert_string ..)]
  rw [render_plain_append (by decide), render_convert (convert_pointer ..)]
  rw [render_plain_append (by decide), render_convert (convert_pointer ..)]
  rw [render_plain (by decide)]
  simp only [Option.map_some, List.append_assoc]
  rfl

/-- What the call writes for a node with this header. -/
theorem printBytes_travelArgs (hh : h.Header nd) (hlt : nd.addr + nd.len < 2^64) :
    printBytes travelFormat (h.travelArgs nd.addr) = some nd.line := by
  have hsize : nd.size < 2^64 := by
    unfold Node.len at hlt
    omega
  have hnext : addw nd.addr (addw nd.size 9) = nd.addr + nd.len := by
    have := nextAddress_eq hh hlt
    rwa [nextAddress, hh.1] at this
  have hlen : travelFormat.length < travelFormat.length + 1 := Nat.lt_succ_self _
  have hstr : StringAt (travelFormat.getD · 0) 0 travelFormat := stringAt_getD (by decide)
  unfold printBytes printf
  rw [formatLoop_render hstr (by decide) hlen, render_travelFormat]
  have hnat : ∀ n < 2^64, (BitVec.ofNat 64 n).toNat = n := by
    intro n hn
    rw [BitVec.toNat_ofNat, Nat.mod_eq_of_lt hn]
  have hname : statusName (if h.status nd.addr = HEAP_ALLOCATION_USED then 1 else 0) =
      if nd.status = HEAP_ALLOCATION_USED then text "USED" else text "FREE" := by
    rw [hh.2]
    split_ifs <;> rfl
  unfold travelArgs
  simp only [List.getD_cons_zero, List.getD_cons_succ]
  rw [hh.1, hnext, hnat _ hsize, hnat _ (by omega : nd.addr < 2^64), hnat _ hlt, hname]
  rfl

/-! ## The walk -/

/-- The walk prints the nodes from a point of the chain on. -/
theorem kheapPrintTravelLoop_eq (hle : h.heap_head ≤ e) (htop : e < 2^64)
    (ht : Tiles Node.addr Node.len cur suffix e) (hh : ∀ nd ∈ suffix, h.Header nd)
    (hb : ∀ nd ∈ suffix, nd.addr < h.heap_head) (hfuel : suffix.length < fuel) :
    h.kheapPrintTravelLoop fuel cur = some (suffix.flatMap Node.line) := by
  obtain ⟨fuel, rfl⟩ := Nat.exists_eq_succ_of_ne_zero (Nat.ne_of_gt (Nat.zero_lt_of_lt hfuel))
  induction suffix generalizing cur fuel with
  | nil =>
    have hcur : cur = e := ht
    rw [kheapPrintTravelLoop, if_neg (by omega)]
    rfl
  | cons nd suffix ih =>
    obtain ⟨hnd, hh⟩ := List.forall_mem_cons.mp hh
    obtain ⟨hlt, hb⟩ := List.forall_mem_cons.mp hb
    have hnext := nextAddress_of_tiles ht htop hnd
    obtain ⟨rfl, hrest⟩ := ht
    rw [List.length_cons] at hfuel
    obtain ⟨fuel, rfl⟩ := Nat.exists_eq_succ_of_ne_zero (n := fuel) (by omega)
    have hline := printBytes_travelArgs hnd (hrest.le.trans_lt htop)
    rw [kheapPrintTravelLoop, if_pos hlt, hline, hnext, ih hrest hh hb fuel (by omega)]
    rfl

theorem Chain.kheapPrintTravel (hc : h.Chain nodes e) (hfuel : nodes.length < fuel) :
    h.kheapPrintTravel fuel = some (text "\n" ++ text "kheap map travel!\n" ++
      nodes.flatMap Node.line ++ text "--------------------\n") := by
  unfold Heap.kheapPrintTravel
  rw [kheapPrintTravelLoop_eq hc.head_le hc.lt_top hc.tiles hc.header hc.below hfuel]
  rfl

end Heap

namespace Client

variable {c : Client} {nodes : List Node} {e : ℕ} {nd : Node}

/-- The line of a node, with `USED` for the pointers of live blocks. -/
def lineOf (c : Client) (nd : Node) : List (BitVec 8) :=
  text "Allocated ptr " ++ numeral 10 (nd.size % 2^32) ++ text ": " ++
    (if nd.addr + 9 ∈ c.live.map Prod.fst then text "USED" else text "FREE") ++ text ": " ++
    pointerText nd.addr ++ text " -> next: " ++ pointerText (nd.addr + nd.len) ++ text "\n"

theorem Ledger.lineOf_eq (hl : c.Ledger nodes e) (hnd : nd ∈ nodes) : nd.line = c.lineOf nd := by
  have hiff : nd.status = HEAP_ALLOCATION_USED ↔ nd.addr + 9 ∈ c.live.map Prod.fst := by
    rw [← hl.blocks.mem_iff, List.mem_map]
    constructor
    · exact fun hused => ⟨nd, List.mem_filter.mpr ⟨hnd, decide_eq_true hused⟩, rfl⟩
    · rintro ⟨y, hy, haddr⟩
      obtain ⟨hy, hused⟩ := List.mem_filter.mp hy
      rw [hl.chain.eq_of_addr hnd hy (by omega)]
      exact of_decide_eq_true hused
  unfold Node.line lineOf
  simp only [hiff]

/-- In every run from `init_kheap` whose steps are `Sound`, `kheap_print_travel` ends and prints the
nodes of the account. -/
theorem dump_of_sound {heap : ℕ} (hheap : heap + 2^22 ≤ 2^64)
    {ts : List (Transition Client HeapOp)} (hrun : Run Step (init heap) ts c)
    (hs : ∀ x ∈ ts, x.pre.Sound x.label) :
    ∃ nodes e, c.Ledger nodes e ∧ ∀ fuel, 2 * c.live.length + 1 < fuel →
      c.heap.kheapPrintTravel fuel = some (text "\n" ++ text "kheap map travel!\n" ++
        nodes.flatMap c.lineOf ++ text "--------------------\n") := by
  obtain ⟨nodes, e, hb⟩ := balanced_run hheap hrun hs
  have hl := hb.ledger
  refine ⟨nodes, e, hl, fun fuel hfuel => ?_⟩
  rw [hl.chain.kheapPrintTravel (lt_of_le_of_lt hl.length_le hfuel)]
  rw [List.flatMap_congr fun nd hnd => hl.lineOf_eq hnd]

/-- The dump of two live blocks with a FREE node between them. -/
theorem dump_of_sound_gap :
    ∃ ts c, Run Step (init 0x180151010) ts c ∧ ts.map Transition.label = gapOps 0x1801510A0 ∧
      ∃ nodes e, c.Ledger nodes e ∧ ∀ fuel, 2 * c.live.length + 1 < fuel →
        c.heap.kheapPrintTravel fuel = some (text "\n" ++ text "kheap map travel!\n" ++
          nodes.flatMap c.lineOf ++ text "--------------------\n") ∧
        nodes.flatMap c.lineOf =
          text "Allocated ptr 64: USED: 0x00000001801510A0 -> next: 0x00000001801510E9\n" ++
          text "Allocated ptr 32: FREE: 0x00000001801510E9 -> next: 0x0000000180151112\n" ++
          text "Allocated ptr 16: USED: 0x0000000180151112 -> next: 0x000000018015112B\n" := by
  obtain ⟨ts, c, hrun, hlabels, hsound, hl, hchain⟩ := gap_run
  obtain ⟨nodes, e, hledger, hprints⟩ := dump_of_sound (by norm_num) hrun hsound
  refine ⟨ts, c, hrun, hlabels, nodes, e, hledger, fun fuel hfuel => ⟨hprints fuel hfuel, ?_⟩⟩
  rw [(hledger.chain.unique hchain).1]
  unfold lineOf
  rw [hl]
  decide +kernel

end Client

end Potatos
