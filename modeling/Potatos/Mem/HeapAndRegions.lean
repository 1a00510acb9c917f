import Potatos.Lib.Runs
import Potatos.Mem.KheapOps
import Potatos.Mem.FlatRegions

/-!
# The heap and the regions behind it

`init_kheap` obtains a region of 4 MiB for the heap. From then on `kmalloc` and `vmm_allocate` work
in one address space, and neither knows of the other. `kmalloc` appends at its chain end and maps
what it writes with `map_if_not_mapped`; it never compares the chain end with the end of its region.
`vmm_allocate` puts the first region of later calls right behind the heap's. The memory is flat
here, as it is as long as physical memory lasts.

So the heap may grow past its region as long as no other region is behind it, and `vmm_allocate` may
put regions there as long as the heap has not (`Fits`). In a run of such calls the blocks of the
heap and the regions stay apart (`apart_of_fits`), and in others they need not (`not_always_apart`).
-/

namespace Potatos

open Lib RegionMemory

/-- The two allocators. -/
inductive SpaceOp where
  | kmalloc (size : BitVec 32)
  | vmmAllocate (size : ℕ)

/-- The heap, whose memory the headers of the regions are in as well, with the pointer `heap` of
`kheap.c`, and the blocks that `kmalloc` returned. -/
structure KernelSpace where
  heap : Heap
  vm_root : ℕ
  heap_root : ℕ
  blocks : List (ℕ × ℕ)

namespace KernelSpace

/-- The region that `init_kheap` obtained. -/
def heapRegion (s : KernelSpace) : Region :=
  ⟨s.heap_root - sizeofVmmRegion, regionSize (1024 * 1024 * 4)⟩

/-- `init_kheap`, behind the root region that `init_vmm` made at `vm_root`. -/
def init (fuel : ℕ) (mem : ByteMemory) (vm_root : ℕ) : Option KernelSpace :=
  (flatMemory.vmmAllocate fuel (store 8 mem (vm_root + 8) PAGE_SIZE) vm_root
    (1024 * 1024 * 4)).map (fun res => ⟨{ initKheap res.1 with mem := res.2 }, vm_root, res.1, []⟩)

/-- One call. -/
inductive Step : KernelSpace → SpaceOp → KernelSpace → Prop where
  | kmalloc {s : KernelSpace} {fuel : ℕ} {size : BitVec 32} {r : Heap.Allocation} :
      s.heap.kmalloc fuel size = some r →
      Step s (.kmalloc size)
        { s with heap := r.heap, blocks := (r.ptr, size.toNat) :: s.blocks }
  | vmmAllocate {s : KernelSpace} {fuel n p : ℕ} {mem : ByteMemory} :
      flatMemory.vmmAllocate fuel s.heap.mem s.vm_root n = some (p, mem) →
      Step s (.vmmAllocate n) { s with heap := { s.heap with mem := mem } }

/-- The byte `x` is in the header or in the payload of a region. -/
def InRegion (x : ℕ) (a : Region) : Prop :=
  a.addr ≤ x ∧ (x < a.addr + sizeofVmmRegion ∨ x < a.stop)

/-- No block of the heap shares a byte with a region other than the heap's. -/
def Apart (s : KernelSpace) : Prop :=
  ∀ b ∈ s.blocks, ∀ a, flatMemory.OnList s.heap.mem s.vm_root a → a.addr ≠ s.heapRegion.addr →
    ∀ x, b.1 ≤ x → x < b.1 + b.2 → ¬ InRegion x a

/-- The condition on a call. The heap grows within its region, or has no region behind it. A new
region comes behind a heap that is within its own, and neither its size nor its address wraps. -/
def Fits (s : KernelSpace) : SpaceOp → Prop
  | .kmalloc size => ∀ nodes e, s.heap.Chain nodes e →
      e + 9 + size.toNat ≤ s.heapRegion.stop ∨
        (flatMemory.next s.heap.mem s.heapRegion.addr = some 0 ∧ e + 9 + size.toNat < 2^64)
  | .vmmAllocate n => 0 < regionSize n ∧
      (∀ rs, flatMemory.RegionsAt s.heap.mem s.vm_root rs →
        ∀ a ∈ rs, a.stop + regionSize n < 2^64) ∧
      ∀ nodes e, s.heap.Chain nodes e → e ≤ s.heapRegion.stop

/-! ## The invariant -/

/-- The list of regions and the chain of nodes are both in memory. The chain starts behind the
header of the heap's region, and ends in it unless no region is behind. -/
structure Inv (s : KernelSpace) (rs : List Region) (nodes : List Node) (e : ℕ) : Prop where
  regions : flatMemory.RegionsAt s.heap.mem s.vm_root rs
  wellFormed : WellFormed rs
  heap_mem : s.heapRegion ∈ rs
  start : s.heapRegion.addr + 16 ≤ s.heap.heap_start
  chain : s.heap.Chain nodes e
  used : ∀ nd ∈ nodes, nd.status = HEAP_ALLOCATION_USED
  blocks : ∀ b ∈ s.blocks, s.heap.heap_start ≤ b.1 ∧ b.1 + b.2 ≤ e
  inside : e ≤ s.heapRegion.stop ∨ ∀ a ∈ rs, a.addr ≤ s.heapRegion.addr

variable {s s' : KernelSpace} {op : SpaceOp} {rs : List Region} {nodes : List Node} {e n : ℕ}

/-- The other regions are in front of the heap's, or behind it and behind the chain end. -/
theorem Inv.around (h : s.Inv rs nodes e) {a : Region} (ha : a ∈ rs) :
    a = s.heapRegion ∨ a.stop ≤ s.heapRegion.addr ∨ (e ≤ a.addr ∧ s.heapRegion.stop ≤ a.addr) := by
  have hsize := h.wellFormed.size_ge h.heap_mem
  rcases h.wellFormed.ordered.eq_or_apart ha h.heap_mem with heq | hbefore | hbehind
  · exact Or.inl heq
  · exact Or.inr (Or.inl hbefore)
  · refine Or.inr (Or.inr ⟨?_, hbehind⟩)
    rcases h.inside with hin | hlast
    · exact le_trans hin hbehind
    · have hle := hlast a ha
      unfold PAGE_SIZE at hsize
      omega

/-- What the invariant is for. -/
theorem Inv.apart (h : s.Inv rs nodes e) : s.Apart := by
  intro b hb a ha hne x hx hx' hin
  have hmem := h.regions.mem_of_onList ha
  have hsize := h.wellFormed.size_ge hmem
  obtain ⟨hlo, hhi⟩ := h.blocks b hb
  have hstart := h.start
  unfold InRegion sizeofVmmRegion at hin
  have hstop : x < a.stop := by
    unfold Region.stop PAGE_SIZE at *
    omega
  rcases h.around hmem with rfl | hbefore | ⟨hbehind, -⟩
  · exact hne rfl
  · omega
  · omega

/-- The state after `init_kheap`: two regions, and an empty chain 144 bytes into the payload of the
second. -/
theorem inv_init {fuel vm_root : ℕ} {mem : ByteMemory} (hpage : vm_root % PAGE_SIZE = 0)
    (hpos : 0 < vm_root) (htop : vm_root + 2^23 ≤ 2^64) (hnext : load 8 mem vm_root = 0)
    (hinit : init fuel mem vm_root = some s) :
    s.Inv [⟨vm_root, PAGE_SIZE⟩, s.heapRegion] [] s.heap.heap_start ∧
      s.heap_root = vm_root + 4096 + 16 ∧ s.heap.heap_start = vm_root + 4096 + 160 ∧
      s.blocks = [] := by
  obtain ⟨⟨p, mem'⟩, hcall, rfl⟩ := Option.map_eq_some_iff.mp hinit
  have hroot := regionsAt_root hpos hnext
  have hwf : WellFormed [⟨vm_root, PAGE_SIZE⟩] := .root hpage (by unfold PAGE_SIZE; omega)
  have hmono := vmmAllocate_mono hcall (show fuel ≤ fuel + 2 by omega)
  have hsize : regionSize (1024 * 1024 * 4) = 4198400 := by decide
  have hstop : Region.stop ⟨vm_root, PAGE_SIZE⟩ = vm_root + 4096 := rfl
  have hwrap : ∀ a ∈ [(⟨vm_root, PAGE_SIZE⟩ : Region)],
      a.stop + regionSize (1024 * 1024 * 4) < 2^64 := by
    intro a ha
    obtain rfl := List.mem_singleton.mp ha
    rw [hstop, hsize]
    omega
  obtain ⟨l, x, r, p', m', hsplit, hcall', hregions, hw, -, -, hp⟩ :=
    vmmAllocate_flat hroot hwf (by rw [hsize]; omega)
      (show 1 < fuel + 2 by omega) (Or.inr hwrap)
  obtain ⟨rfl, rfl⟩ := Prod.mk.inj (Option.some.inj (hmono.symm.trans hcall'))
  -- the root is the only region, so the heap's is appended behind it
  obtain ⟨rfl, rfl, rfl⟩ : l = [] ∧ x = ⟨vm_root, PAGE_SIZE⟩ ∧ r = [] := by
    cases l with
    | nil => exact ⟨rfl, (List.cons.inj hsplit).1.symm, (List.cons.inj hsplit).2.symm⟩
    | cons y l => exact absurd (List.cons.inj hsplit).2 (by simp)
  obtain rfl : p = vm_root + 4096 + 16 := hp.elim (fun h => absurd h.1 id) (fun h => h.2)
  have hstart : addw (vm_root + 4096 + 16) (16 * 9) = vm_root + 4096 + 160 := addw_of_lt (by omega)
  refine ⟨⟨hregions, hw, by simp, ?_, ⟨rfl, ?_, ?_, le_refl _, ?_⟩, ?_, ?_, Or.inl ?_⟩, rfl, hstart,
    rfl⟩
  · show vm_root + 4096 + 16 - 16 + 16 ≤ addw (vm_root + 4096 + 16) (16 * 9)
    omega
  · exact fun nd hnd => absurd hnd List.not_mem_nil
  · exact fun nd hnd => absurd hnd List.not_mem_nil
  · show addw (vm_root + 4096 + 16) (16 * 9) < 2^64
    omega
  · exact fun nd hnd => absurd hnd List.not_mem_nil
  · exact fun b hb => absurd hb List.not_mem_nil
  · show addw (vm_root + 4096 + 16) (16 * 9) ≤
      vm_root + 4096 + 16 - 16 + regionSize (1024 * 1024 * 4)
    omega

/-! ## The calls keep the invariant -/

/-- No region is behind the heap's when the pointer to the next one is `NULL`. -/
theorem Inv.last (h : s.Inv rs nodes e)
    (hnull : flatMemory.next s.heap.mem s.heapRegion.addr = some 0) :
    ∀ a ∈ rs, a.addr ≤ s.heapRegion.addr := by
  intro a ha
  obtain ⟨l, r, rfl⟩ := List.append_of_mem h.heap_mem
  have hhead : headAddr r = 0 := Option.some.inj (h.regions.1.header.1.symm.trans hnull)
  cases r with
  | nil =>
    rcases List.mem_append.mp ha with ha | ha
    · have hbefore := h.wellFormed.around.1 a ha
      unfold Region.stop at hbefore
      omega
    · obtain rfl := List.mem_singleton.mp ha
      exact le_refl _
  | cons b r => exact absurd hhead (h.regions.1.ne_zero (by simp))

/-- Where a new node of the heap may be, it changes no header of a region. -/
theorem Inv.regions_frame (h : s.Inv rs nodes e) {mem : ByteMemory}
    (hframe : ∀ x, x < e ∨ e + 9 ≤ x → mem x = s.heap.mem x)
    (hinside : e + 9 ≤ s.heapRegion.stop ∨ ∀ a ∈ rs, a.addr ≤ s.heapRegion.addr) :
    flatMemory.RegionsAt mem s.vm_root rs := by
  refine ⟨h.regions.1.congr (fun a ha => ?_), h.regions.2⟩
  have hsize := h.wellFormed.size_ge ha
  have hheap := h.wellFormed.size_ge h.heap_mem
  have hstart := h.start
  have hle := h.chain.tiles.le
  -- A header of a region is in front of the new node, or behind it.
  have hapart : a.addr + 16 ≤ e ∨ e + 9 ≤ a.addr := by
    rcases h.around ha with rfl | hbefore | ⟨-, hbehind⟩
    · omega
    · unfold Region.stop PAGE_SIZE at *
      omega
    · rcases hinside with hin | hlast
      · exact Or.inr (le_trans hin hbehind)
      · have hle := hlast a ha
        unfold Region.stop PAGE_SIZE at *
        omega
  exact ⟨congrArg some (load_congr (fun x h1 h2 => hframe x (by omega))),
    congrArg some (load_congr (fun x h1 h2 => hframe x (by omega)))⟩

/-- `kmalloc` appends: no node is free. -/
theorem Inv.kmalloc (h : s.Inv rs nodes e) {fuel : ℕ} {size : BitVec 32} {r : Heap.Allocation}
    (hfits : s.Fits (.kmalloc size)) (hr : s.heap.kmalloc fuel size = some r) :
    ∃ nodes' e', Inv { s with heap := r.heap, blocks := (r.ptr, size.toNat) :: s.blocks }
      rs nodes' e' := by
  -- Nothing is freed in these runs, so no node fits and every block is appended.
  obtain ⟨hptr, hheap⟩ : r.ptr = (s.heap.append size.toNat e).ptr ∧
      r.heap = (s.heap.append size.toNat e).heap := by
    rcases Heap.kmalloc_chain h.chain hr with ⟨l, nd, t, rfl, -, hfit, -, -⟩ | ⟨-, hptr, hheap⟩
    · have hfree := (Node.fits_iff.mp hfit).2
      have hused := h.used nd (by simp)
      exact absurd rfl (Node.ne_of_used hused hfree)
    · exact ⟨hptr, hheap⟩
  have hle := h.chain.tiles.le
  have htop := h.wellFormed.top _ h.heap_mem
  have hinside : e + 9 + size.toNat ≤ s.heapRegion.stop ∨ ∀ a ∈ rs, a.addr ≤ s.heapRegion.addr :=
    (hfits nodes e h.chain).imp id (fun hlast => h.last hlast.1)
  have hlt : e + 9 + size.toNat < 2^64 := by
    rcases hfits nodes e h.chain with hin | ⟨-, hlt⟩
    · exact lt_of_le_of_lt hin htop
    · exact hlt
  obtain ⟨hp, hchain⟩ := h.chain.append hlt
  have hregions : flatMemory.RegionsAt (s.heap.append size.toNat e).heap.mem s.vm_root rs :=
    h.regions_frame (Heap.setSize_only.trans Heap.setStatus_only).1
      (hinside.imp (fun hin => by omega) id)
  refine ⟨nodes ++ [⟨e, size.toNat, HEAP_ALLOCATION_USED⟩], e + 9 + size.toNat, ?_⟩
  rw [hptr, hheap, hp]
  -- The new node is USED, and its block ends where the chain ends now.
  refine ⟨hregions, h.wellFormed, h.heap_mem, h.start, hchain, fun nd hnd => ?_, fun b hb => ?_,
    hinside⟩
  · rcases List.mem_append.mp hnd with hnd | hnd
    · exact h.used nd hnd
    · obtain rfl := List.mem_singleton.mp hnd
      rfl
  · show s.heap.heap_start ≤ b.1 ∧ b.1 + b.2 ≤ e + 9 + size.toNat
    rcases List.mem_cons.mp hb with rfl | hb
    · exact ⟨by simp only; omega, le_refl _⟩
    · have hold := h.blocks b hb
      omega

/-- `vmm_allocate` writes into the header of a region, and where the new one starts, and both are
apart from the chain. -/
theorem Inv.chain_frame (h : s.Inv rs nodes e) {x : Region} {mem : ByteMemory} {size next : ℕ}
    (hx : x ∈ rs) (hins : Inserts s.heap.mem mem x size next) (hin : e ≤ s.heapRegion.stop) :
    Heap.Chain { s.heap with mem := mem } nodes e := by
  have hstart := h.start
  have hsize := h.wellFormed.size_ge hx
  have hheap := h.wellFormed.size_ge h.heap_mem
  apply h.chain.setMem
  intro nd hnd z h1 h2
  have hbounds := h.chain.bounds hnd
  rcases h.around hx with rfl | hbefore | ⟨hbehind, -⟩
  · exact hins.other z (by omega) (by omega)
  · refine hins.other z (Or.inr ?_) (Or.inr (by omega))
    unfold Region.stop PAGE_SIZE at *
    omega
  · refine hins.other z (Or.inl (by omega)) (Or.inl ?_)
    unfold Region.stop at *
    omega

/-- `vmm_allocate` puts the new region in front of the heap's, or behind it. -/
theorem Inv.vmmAllocate (h : s.Inv rs nodes e) {fuel p : ℕ} {mem : ByteMemory}
    (hfits : s.Fits (.vmmAllocate n))
    (hcall : flatMemory.vmmAllocate fuel s.heap.mem s.vm_root n = some (p, mem)) :
    ∃ rs', Inv { s with heap := { s.heap with mem := mem } } rs' nodes e := by
  obtain ⟨hpos, hwrap, hin⟩ := hfits
  have hmono := vmmAllocate_mono hcall (show fuel ≤ fuel + rs.length + 1 by omega)
  obtain ⟨l, x, r, p', mem', rfl, hcall', hregions, hw, hins, -⟩ :=
    vmmAllocate_flat h.regions h.wellFormed hpos (by omega : rs.length < fuel + rs.length + 1)
      (Or.inr (hwrap rs h.regions))
  obtain ⟨rfl, rfl⟩ := Prod.mk.inj (Option.some.inj (hmono.symm.trans hcall'))
  have hend := hin nodes e h.chain
  have hsub : List.Sublist (l ++ x :: r) (l ++ x :: ⟨x.stop, regionSize n⟩ :: r) :=
    ((List.sublist_cons_self _ r).cons_cons x).append_left l
  have hheap := hsub.subset h.heap_mem
  have hchain := h.chain_frame (by simp) hins hend
  exact ⟨l ++ x :: ⟨x.stop, regionSize n⟩ :: r, hregions, hw, hheap, h.start, hchain, h.used,
    h.blocks, Or.inl hend⟩

/-- Both calls keep the invariant. -/
theorem Inv.step (h : s.Inv rs nodes e) (hfits : s.Fits op) (hstep : Step s op s') :
    ∃ rs' nodes' e', s'.Inv rs' nodes' e' := by
  cases hstep with
  | kmalloc hr => exact ⟨rs, h.kmalloc hfits hr⟩
  | vmmAllocate hcall =>
    obtain ⟨rs', h'⟩ := h.vmmAllocate hfits hcall
    exact ⟨rs', nodes, e, h'⟩

/-- In every run from `init_kheap` whose calls all fit, the blocks of the heap and the other regions
share no byte. -/
theorem apart_of_fits {fuel vm_root : ℕ} {mem : ByteMemory} {s₀ : KernelSpace}
    {ts : List (Transition KernelSpace SpaceOp)} (hpage : vm_root % PAGE_SIZE = 0)
    (hpos : 0 < vm_root) (htop : vm_root + 2^23 ≤ 2^64) (hnext : load 8 mem vm_root = 0)
    (hinit : init fuel mem vm_root = some s₀) (hrun : Run Step s₀ ts s)
    (hfits : ∀ z ∈ ts, z.pre.Fits z.label) : s.Apart := by
  have hstart : ∃ rs nodes e, s₀.Inv rs nodes e :=
    ⟨_, _, _, (inv_init hpage hpos htop hnext hinit).1⟩
  have hkeep : ∀ s op t, (∃ rs nodes e, Inv s rs nodes e) → Fits s op → Step s op t →
      ∃ rs nodes e, Inv t rs nodes e := by
    rintro s op t ⟨rs, nodes, e, h⟩ hfits hstep
    exact h.step hfits hstep
  obtain ⟨rs, nodes, e, h⟩ := hrun.invariant hstart hfits hkeep
  exact h.apart

/-! ## A heap that grows past its region -/

/-- The state after a call, if it returns within the fuel. -/
def exec (fuel : ℕ) (s : KernelSpace) : SpaceOp → Option KernelSpace
  | .kmalloc size => (s.heap.kmalloc fuel size).map
      (fun r => { s with heap := r.heap, blocks := (r.ptr, size.toNat) :: s.blocks })
  | .vmmAllocate n => (flatMemory.vmmAllocate fuel s.heap.mem s.vm_root n).map
      (fun res => { s with heap := { s.heap with mem := res.2 } })

theorem step_of_exec {fuel : ℕ} (h : exec fuel s op = some s') : Step s op s' := by
  cases op with
  | kmalloc size =>
    rw [exec] at h
    obtain ⟨r, hr, rfl⟩ := Option.map_eq_some_iff.mp h
    exact .kmalloc hr
  | vmmAllocate n =>
    rw [exec] at h
    obtain ⟨⟨p, mem⟩, hcall, rfl⟩ := Option.map_eq_some_iff.mp h
    exact .vmmAllocate hcall

/-- After `init_kheap`, behind a root region at 0x180110000. -/
def started : KernelSpace := (init 4 (fun _ => 0) 0x180110000).get (by decide +kernel)

/-- A block of 8 MiB. -/
def grown : KernelSpace := (exec 4 started (.kmalloc 0x800000)).get (by decide +kernel)

/-- A region of a page behind the heap's. -/
def collided : KernelSpace := (exec 4 grown (.vmmAllocate 1)).get (by decide +kernel)

/-- The region that `vmm_allocate` puts behind the heap's is inside a block of the heap. -/
theorem not_always_apart : ∃ ts, init 4 (fun _ => 0) 0x180110000 = some started ∧
    Run Step started ts collided ∧ ¬ collided.Apart := by
  have hrun : Run Step started
      [⟨started, .kmalloc 0x800000, grown⟩, ⟨grown, .vmmAllocate 1, collided⟩] collided :=
    .cons (step_of_exec (Option.some_get _).symm) (.single (step_of_exec (Option.some_get _).symm))
  refine ⟨_, (Option.some_get _).symm, hrun, fun hapart => ?_⟩
  have hroot : collided.vm_root = 0x180110000 := by decide +kernel
  have hblocks : collided.blocks = [(0x1801110A9, 0x800000)] := by decide +kernel
  have hheap : collided.heapRegion.addr = 0x180111000 := by decide +kernel
  -- The walk from the root comes to the heap's region, and from there to the new one.
  have hon : flatMemory.OnList collided.heap.mem 0x180110000 ⟨0x180512000, 4096⟩ := by
    have hfirst : flatMemory.OnList collided.heap.mem 0x180110000 ⟨0x180110000, 4096⟩ :=
      .root (by decide +kernel)
    have hsecond : flatMemory.OnList collided.heap.mem 0x180110000 ⟨0x180111000, 4198400⟩ :=
      .next hfirst (by decide +kernel) (by decide) (by decide +kernel)
    exact .next hsecond (by decide +kernel) (by decide) (by decide +kernel)
  have hmem : (0x1801110A9, 0x800000) ∈ collided.blocks := by
    rw [hblocks]
    exact List.mem_singleton.mpr rfl
  exact hapart _ hmem _ (hroot ▸ hon) (by rw [hheap]; decide) 0x180512000 (by decide) (by decide)
    ⟨le_refl _, Or.inl (by decide)⟩

/-- The condition on a call, on the end of the chain and the list of regions. -/
def FitsOn (s : KernelSpace) (e : ℕ) (rs : List Region) : SpaceOp → Prop
  | .kmalloc size => e + 9 + size.toNat ≤ s.heapRegion.stop ∨
      (flatMemory.next s.heap.mem s.heapRegion.addr = some 0 ∧ e + 9 + size.toNat < 2^64)
  | .vmmAllocate n => 0 < regionSize n ∧ (∀ a ∈ rs, a.stop + regionSize n < 2^64) ∧
      e ≤ s.heapRegion.stop

instance (s : KernelSpace) (e : ℕ) (rs : List Region) : ∀ op, Decidable (FitsOn s e rs op)
  | .kmalloc _ => inferInstanceAs (Decidable (_ ∨ _))
  | .vmmAllocate _ => inferInstanceAs (Decidable (_ ∧ _))

theorem fits_of_fitsOn (hc : s.heap.Chain nodes e)
    (hr : flatMemory.RegionsAt s.heap.mem s.vm_root rs) (h : FitsOn s e rs op) : s.Fits op := by
  cases op with
  | kmalloc size =>
    intro nodes' e' hc'
    obtain ⟨rfl, rfl⟩ := hc.unique hc'
    exact h
  | vmmAllocate n =>
    refine ⟨h.1, fun rs' hr' => hr'.unique hr ▸ h.2.1, fun nodes' e' hc' => ?_⟩
    obtain ⟨rfl, rfl⟩ := hc.unique hc'
    exact h.2.2

/-- One call, when it fits by the nodes and the regions that the headers give. -/
def execFits (fuel : ℕ) (s : KernelSpace) (op : SpaceOp) : Option KernelSpace := do
  let rs ← flatMemory.regionsFrom fuel s.heap.mem s.vm_root
  let e := (s.heap.nodesFrom fuel s.heap.heap_start).2
  if (s.heap.heap_head ≤ e ∧ e < 2^64 ∧ s.vm_root ≠ 0) ∧ FitsOn s e rs op then exec fuel s op
  else none

theorem run_of_execFits {fuel : ℕ} {ops : List SpaceOp}
    (h : ops.foldlM (execFits fuel) s = some s') :
    ∃ ts, Run Step s ts s' ∧ ts.map Transition.label = ops ∧ ∀ z ∈ ts, z.pre.Fits z.label := by
  refine Run.of_foldlM (fun s op t hexec => ?_) h
  obtain ⟨rs, hrs, hexec⟩ := Option.bind_eq_some_iff.mp hexec
  obtain ⟨⟨⟨hhead, htop, hroot⟩, hfits⟩, hexec⟩ := Option.ite_none_right_eq_some.mp hexec
  exact ⟨step_of_exec hexec, fits_of_fitsOn (Heap.chain_of_nodesFrom rfl hhead htop)
    (regionsAt_of_regionsFrom hrs hroot) hfits⟩

/-- Blocks before and behind a region that is put behind the heap's. -/
theorem apart_interleaved : ∃ ts s, init 4 (fun _ => 0) 0x180110000 = some started ∧
    Run Step started ts s ∧
    ts.map Transition.label = [.kmalloc 64, .vmmAllocate 5000, .kmalloc 100, .vmmAllocate 1] ∧
    s.blocks = [(0x1801110F2, 100), (0x1801110A9, 64)] ∧ s.Apart := by
  have hblocks : (([.kmalloc 64, .vmmAllocate 5000, .kmalloc 100, .vmmAllocate 1] :
      List SpaceOp).foldlM (execFits 6) started).map blocks =
      some [(0x1801110F2, 100), (0x1801110A9, 64)] := by decide +kernel
  obtain ⟨s, hs, hb⟩ := Option.map_eq_some_iff.mp hblocks
  obtain ⟨ts, hrun, hlabels, hfits⟩ := run_of_execFits hs
  have hinit : init 4 (fun _ => 0) 0x180110000 = some started := (Option.some_get _).symm
  exact ⟨ts, s, hinit, hrun, hlabels, hb, apart_of_fits (by decide) (by decide) (by decide)
    (by decide +kernel) hinit hrun hfits⟩

end KernelSpace

end Potatos
