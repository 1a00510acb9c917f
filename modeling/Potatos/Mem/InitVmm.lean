import Potatos.Lib.Runs
import Potatos.Mem.RegionBacking
import Mathlib.Order.Interval.Finset.Nat

/-!
# From `init_vmm` on

`init_vmm` on a machine that has booted: the tables of `boot.asm` and the bitmap of `init_pmm`. The
root region is at `&vmm_area + ONE_GIGABYTE`, which is eight GiB as `uint64_t *` arithmetic, and
wraps to the low half. `regions_backed` is about the runs of `vmm_allocate` from there.
-/

namespace Potatos

open Lib RegionMemory

def ONE_GIGABYTE : ℕ := 0x40000000

/-- `vmm_area`, behind the tables, the pointers to the multiboot data, and the stack. -/
def BootImage.vmm_area (b : BootImage) : ℕ :=
  0xFFFFFFFF80000000 + (b.p4_table + 15) * 4096 + 40

/-- `vmm_address` of `init_vmm`. -/
def BootImage.vmmAddress (b : BootImage) : ℕ :=
  alignToNearestPage (addw b.vmm_area (8 * ONE_GIGABYTE))

/-- `init_vmm`, without the heap. -/
def initVmm (b : BootImage) (s : Paged PhysicalPages) : Option (Paged PhysicalPages) := do
  let vmm_address := b.vmmAddress
  let (vmm_start_physical_address, frames) := s.frames.allocate
  let bitmap := frames.bitmap.setPageUsed (vmm_start_physical_address / 0x1000)
  let s ← mapPage PhysicalPages.allocate b.p4_table ⟨s.mem, { frames with bitmap := bitmap }⟩
    vmm_address vmm_start_physical_address 3
  (kernelMemory b.p4_table).setSize s vmm_address PAGE_SIZE

/-- A machine at the time of `init_vmm`. The boot tables are in the kernel image. -/
structure Machine where
  memory : BootMemory
  image : BootImage
  inside : (image.p4_table + 16) * 4096 ≤ memory.image.physical_end
  framebuffer_addr : Option ℕ
  rest : PhysMem

namespace Machine

variable (K : Machine)

/-- The tables of `boot.asm` and the bitmap of `init_pmm`. -/
def boot : Paged PhysicalPages :=
  ⟨K.image.tables K.framebuffer_addr K.rest, ⟨K.memory.initPmm, false⟩⟩

/-- The number of pages that `init_bitmap` reserves. -/
def reserve : ℕ := K.memory.image.reserveEnd / 4096

/-- The memory that `vmm.c` works on. -/
abbrev kernel : RegionMemory (Paged PhysicalPages) := kernelMemory K.image.p4_table

/-- `vm_root`. -/
def vmRoot : ℕ := K.image.vmmAddress

/-! ## The state after the boot -/

theorem vmRoot_eq : K.vmRoot = 6 * 2^30 + (K.image.p4_table + 16) * 4096 := by
  have hfits := K.image.fits
  unfold vmRoot BootImage.vmmAddress alignToNearestPage addw BootImage.vmm_area ONE_GIGABYTE
    PAGE_SIZE
  omega

theorem vmRoot_bounds : 6 * 2^30 ≤ K.vmRoot ∧ K.vmRoot ≤ 8 * 2^30 ∧ K.vmRoot % 4096 = 0 := by
  have hfits := K.image.fits
  rw [vmRoot_eq]
  omega

theorem reserve_le : K.image.p4_table + 16 ≤ K.reserve := by
  have hinside := K.inside
  have hend := K.memory.image.le_two_gib
  unfold reserve KernelImage.reserveEnd
  omega

theorem p4_zero :
    K.boot.mem.tree K.image.p4_table K.image.p4_table 0 = some K.image.p3_table := by
  have hfits := K.image.fits
  rw [PhysMem.tree_of_ne (Or.inr (by decide))]
  refine BootImage.next_of_link (by unfold BootImage.p3_table; omega) ?_
  show K.image.tables _ _ _ _ = _
  rw [BootImage.tables, if_pos rfl, if_pos (Or.inl rfl)]

/-- Nothing between 1 GiB and 510 GiB is mapped. -/
theorem descend_window {b c : Fin 512} {q : List (Fin 512)} (hw : Window (b :: c :: q)) :
    descend (K.boot.mem.tree K.image.p4_table) K.image.p4_table (b :: c :: q) = none := by
  have hfits := K.image.fits
  obtain rfl : b = 0 := hw.1 b rfl
  obtain ⟨hc0, hc510⟩ := hw.2 c rfl
  have hne : K.image.p3_table ≠ K.image.p4_table := by unfold BootImage.p3_table; omega
  have hsecond : K.boot.mem.tree K.image.p4_table K.image.p3_table c = none := by
    rw [PhysMem.tree_of_ne (Or.inl hne)]
    apply BootImage.next_of_zero
    show K.image.tables _ _ _ _ = _
    rw [BootImage.tables, if_neg hne, if_pos rfl, if_neg (fun h => h.elim hc0 hc510)]
  exact (descend_step K.p4_zero).trans (descend_stop hsecond)

theorem boot_inOrder : InOrder K.image.p4_table K.reserve K.boot := by
  have hreserve := K.reserve_le
  have hreserved : ∀ f < K.reserve, ¬ K.boot.frames.Free f := by
    rintro f hf ⟨hlt, hfree⟩
    have htotal : K.boot.frames.bitmap.total_pages = K.memory.totalPages :=
      K.memory.initPmm_total_pages
    have hge := ((K.memory.isPageFree_initPmm (htotal ▸ hlt)).mp hfree).1
    exact absurd hf (not_lt_of_ge hge)
  refine ⟨BootImage.tables_wellPaged, ?_, K.memory.initPmm_small, fun f hf => ?_, hreserved,
    by omega⟩
  · intro p q x hp hq hlen hle hdp hdq
    -- only the walks of at most one index succeed
    rcases p with _ | ⟨a, _ | ⟨b, p⟩⟩
    · exact (List.length_eq_zero_iff.mp hlen.symm).symm
    · rcases q with _ | ⟨a', _ | ⟨b', q⟩⟩
      · cases hlen
      · rw [hp.1 a rfl, hq.1 a' rfl]
      · rw [K.descend_window hq] at hdq
        cases hdq
    · rw [K.descend_window hp] at hdp
      cases hdp
  · obtain ⟨n, hn, hat⟩ := hf
    have hcases := BootImage.tables_at hn hat
    unfold BootImage.p3_table BootImage.p2_table BootImage.pt_tables
      BootImage.fbb_pt_tables at hcases
    exact hreserved f (by omega)

theorem boot_backing : Backing K.image.p4_table K.reserve K.boot K.vmRoot K.vmRoot := by
  obtain ⟨hlo, hhi, hpage⟩ := K.vmRoot_bounds
  refine ⟨K.boot_inOrder, by omega, by omega, hpage, fun a h1 h2 => by omega,
    fun a b f h1 h2 => by omega, fun a h1 h2 => ?_⟩
  have hwindow : InWindow a := ⟨by omega, h2⟩
  have hpath : Window [field a 39, field a 30, field a 21, field a 12] := hwindow.window
  rw [K.boot_inOrder.paged.walk_eq hwindow.ne]
  exact K.descend_window hpath

/-- Once the frame `d` is taken, `init_vmm` maps the root to it and writes the size. -/
theorem initVmm_eq {d : ℕ} (haddr : K.boot.frames.allocate.1 = d * 4096) :
    initVmm K.image K.boot =
      (mapPage PhysicalPages.allocate K.image.p4_table
        ⟨K.boot.mem, { K.boot.frames.allocate.2 with
          bitmap := K.boot.frames.allocate.2.bitmap.setPageUsed d }⟩ K.vmRoot (d * 4096) 3).bind
        (fun s => K.kernel.setSize s K.vmRoot PAGE_SIZE) := by
  have hdiv : d * 4096 / 0x1000 = d := Nat.mul_div_cancel _ (by norm_num)
  have hunfold : initVmm K.image K.boot =
      (mapPage PhysicalPages.allocate K.image.p4_table
        ⟨K.boot.mem, { K.boot.frames.allocate.2 with
          bitmap := K.boot.frames.allocate.2.bitmap.setPageUsed
            (K.boot.frames.allocate.1 / 0x1000) }⟩ K.vmRoot K.boot.frames.allocate.1 3).bind
        (fun s => K.kernel.setSize s K.vmRoot PAGE_SIZE) := rfl
  rw [hunfold, haddr, hdiv]

/-- What `init_vmm` leaves: a root region of one backed page, whose frame `d` was free and reads as
it did, and what was held is still held. The page and two tables have been taken. -/
structure Started (s₀ : Paged PhysicalPages) (d : ℕ) : Prop where
  backing : Backing K.image.p4_table K.reserve s₀ K.vmRoot (K.vmRoot + 4096)
  size : K.kernel.size s₀ K.vmRoot = some PAGE_SIZE
  next : K.kernel.next s₀ K.vmRoot = some (K.boot.mem d 0)
  walk : s₀.mem.walk K.image.p4_table K.vmRoot = some d
  frame : K.boot.frames.Free d
  held : ∀ f, Held K.image.p4_table K.boot f → Held K.image.p4_table s₀ f
  card : s₀.frames.freeFrames.card + 3 ≤ K.boot.frames.freeFrames.card

theorem init_started {s₀ : Paged PhysicalPages} (hinit : initVmm K.image K.boot = some s₀)
    (hgood : s₀.frames.ran_out ≠ true) : ∃ d, K.Started s₀ d := by
  obtain ⟨hlo, hhi, hpage⟩ := K.vmRoot_bounds
  have hgood₁ : K.boot.frames.allocate.2.ran_out ≠ true := by
    obtain ⟨s₁, hmap, hstore⟩ := Option.bind_eq_some_iff.mp hinit
    obtain ⟨m, -, rfl⟩ := Option.map_eq_some_iff.mp hstore
    have hcalls := mapPage_frames hmap
    exact fun hout => hgood (PhysicalPages.ran_out_of_calls hcalls hout)
  -- The page of the root is taken, marked used once more, and mapped.
  obtain ⟨d, haddr, hfree, hdata, hkeeps⟩ := K.boot_inOrder.take hgood₁
  rw [K.initVmm_eq haddr] at hinit
  obtain ⟨s₁, hmap, hstore⟩ := Option.bind_eq_some_iff.mp hinit
  have hused := hkeeps.inOrder.use d
  have hframes : s₀.frames = s₁.frames := store_frames hstore
  obtain ⟨hback, hkeeps', hwalk, -⟩ :=
    ((K.boot_backing.of_keeps hkeeps rfl).of_keeps hused rfl).extend
    (by omega) (le_refl _) (hused.dataFrame hdata) (fun a h1 h2 => absurd h1 (by omega)) hmap
    (hframes ▸ hgood)
  -- The size is stored into it.
  obtain ⟨s₀', hs₀', -, hback', hload, hother⟩ :=
    hback.store (a := K.vmRoot + 8) (v := PAGE_SIZE) (by omega) (by omega) (by omega)
  obtain rfl := Option.some.inj (hstore.symm.trans hs₀')
  obtain ⟨hwalks, hheld⟩ := hback.store_walk (by omega) (by omega) hstore
  have hwindow : InWindow K.vmRoot := ⟨by omega, by omega⟩
  have hkept := hkeeps.trans (hused.trans hkeeps')
  refine ⟨d, hback', hload, ?_, (hwalks _ hwindow.ne).trans hwalk, hfree,
    fun f hf => hheld f (hkept.held f hf).1, ?_⟩
  · show K.kernel.load s₀ K.vmRoot = _
    -- The link is the word before the size, and the frame still holds what it held at boot.
    rw [hother K.vmRoot (le_refl _) (by omega) (by omega) (by omega)]
    have hmem : s₁.mem d = K.boot.mem d := (hkeeps'.held d (hused.dataFrame hdata).held).2
    have hindex : field K.vmRoot 3 = 0 := field_eq (by
      show K.vmRoot / 2^3 % 512 = 0
      omega)
    show (s₁.mem.walk K.image.p4_table K.vmRoot).map _ = _
    rw [hwalk, Option.map_some, hmem, hindex]
  · -- One page for the root, and one for each of the two tables that its address lacks.
    have hsmall := K.boot_inOrder.small
    have htaken := PhysicalPages.card_allocate hsmall hgood₁
    obtain ⟨s₃, f, hmade, -, hpath, hs₁⟩ := hused.inOrder.map_spec hwindow hmap (hframes ▸ hgood)
    have hframes₃ : s₀.frames = s₃.frames := by
      rw [hframes, hs₁]
      split <;> rfl
    have hfirst : Window [field K.vmRoot 39, field K.vmRoot 30] := hwindow.window
    have htwo := hused.inOrder.madeRun_card hmade (hframes₃ ▸ hgood) (K.descend_window hfirst)
      (by rw [hpath]; exact Option.some_ne_none f)
    have hless : PhysicalPages.freeFrames ⟨K.boot.frames.allocate.2.bitmap.setPageUsed d,
        K.boot.frames.allocate.2.ran_out⟩ ⊆ K.boot.frames.allocate.2.freeFrames := by
      rw [PhysicalPages.freeFrames_setPageUsed (PhysicalPages.small_allocate hsmall)]
      exact Finset.erase_subset _ _
    have hused_card := Finset.card_le_card hless
    rw [hframes₃]
    exact le_trans (Nat.add_le_add_right htwo 1) (htaken ▸ Nat.add_le_add_right hused_card 1)

/-- Three free pages are enough for `init_vmm`, as `p3_table` is there. -/
theorem init_total {n : ℕ} (henough : K.boot.frames.Enough (n + 3)) :
    ∃ s₀, initVmm K.image K.boot = some s₀ ∧ s₀.frames.Enough n := by
  obtain ⟨hlo, hhi, hpage⟩ := K.vmRoot_bounds
  have hsmall := K.boot_inOrder.small
  have htaken := henough.allocate hsmall
  obtain ⟨d, haddr, -, hdata, hkeeps⟩ := K.boot_inOrder.take htaken.1
  have hused := hkeeps.inOrder.use d
  have hwindow : InWindow K.vmRoot := ⟨by omega, by omega⟩
  -- The first table of the root is `p3_table`, so two more have to be made.
  have hfirst : descend (K.boot.mem.tree K.image.p4_table) K.image.p4_table
      ([field K.vmRoot 39, field K.vmRoot 30, field K.vmRoot 21].take 1) ≠ none := by
    show descend _ _ [field K.vmRoot 39] ≠ none
    rw [hwindow.field_eq.1, descend_step K.p4_zero]
    exact Option.some_ne_none _
  obtain ⟨s₁, hmap, he⟩ := hused.inOrder.mapPage_total (d * 4096) hwindow (by omega) hfirst
    (htaken.use (PhysicalPages.small_allocate hsmall) hdata.held.2)
  obtain ⟨hback, -⟩ := ((K.boot_backing.of_keeps hkeeps rfl).of_keeps hused rfl).extend
    (by omega) (le_refl _) (hused.dataFrame hdata) (fun a h1 h2 => absurd h1 (by omega)) hmap he.1
  obtain ⟨s₀, hs₀, hframes, -⟩ :=
    hback.store (a := K.vmRoot + 8) (v := PAGE_SIZE) (by omega) (by omega) (by omega)
  refine ⟨s₀, ?_, hframes ▸ he⟩
  rw [K.initVmm_eq haddr, hmap]
  exact hs₀

/-! ## Runs of `vmm_allocate` -/

/-- A call that returns. -/
def AllocateStep (s : Paged PhysicalPages) (size : ℕ) (s' : Paged PhysicalPages) : Prop :=
  ∃ fuel p, K.kernel.vmmAllocate fuel s K.vmRoot size = some (p, s')

/-- The list with the region of the request still ends below 510 GiB. -/
def EndsBelow (s : Paged PhysicalPages) (size : ℕ) : Prop :=
  ∀ l x, K.kernel.RegionsAt s K.vmRoot (l ++ [x]) → x.stop + regionSize size < 510 * 2^30

/-- The row of regions, collapsed or not. -/
def Rows (s : Paged PhysicalPages) : Prop :=
  (∃ rs hi, Backed K.image.p4_table K.reserve K.vmRoot s rs hi) ∨
    ∃ z hi, Collapsed K.image.p4_table K.reserve K.vmRoot s z hi

variable {K} {s₀ s s' : Paged PhysicalPages} {size : ℕ}

/-- The list after `init_vmm`, on a frame that reads as zero. -/
theorem Started.backed {d : ℕ} (h : K.Started s₀ d) (hnext : K.kernel.next s₀ K.vmRoot = some 0) :
    Backed K.image.p4_table K.reserve K.vmRoot s₀ [⟨K.vmRoot, PAGE_SIZE⟩] (K.vmRoot + 4096) := by
  obtain ⟨hlo, hhi, hpage⟩ := K.vmRoot_bounds
  exact ⟨h.backing, ⟨⟨by show K.vmRoot ≠ 0; omega, hnext, h.size, trivial⟩, _, _, rfl, rfl⟩,
    .root hpage (by unfold PAGE_SIZE; omega), tiles_single⟩

theorem AllocateStep.ran_out (h : K.AllocateStep s size s') (hgood : s'.frames.ran_out ≠ true) :
    s.frames.ran_out ≠ true := by
  obtain ⟨fuel, p, hcall⟩ := h
  exact fun hout => hgood (PhysicalPages.ran_out_of_calls (vmmAllocate_frames hcall) hout)

theorem Rows.step (h : K.Rows s) (hbelow : K.EndsBelow s size) (hstep : K.AllocateStep s size s')
    (hgood : s'.frames.ran_out ≠ true) : K.Rows s' := by
  obtain ⟨fuel, p, hcall⟩ := hstep
  rcases h with ⟨rs, hi, hb⟩ | ⟨z, hi, hc⟩
  · obtain ⟨l, x, rfl⟩ : ∃ l x, rs = l ++ [x] := by
      obtain ⟨-, a, t, rfl, -⟩ := hb.regions
      exact ⟨_, _, (List.dropLast_append_getLast (List.cons_ne_nil a t)).symm⟩
    have hend := hbelow l x hb.regions
    rw [hb.last] at hend
    rcases hb.allocate hend hcall hgood with ⟨-, hb'⟩ | ⟨-, z, hc'⟩
    · exact Or.inl ⟨_, _, hb'⟩
    · exact Or.inr ⟨z, hi, hc'⟩
  · exact Or.inr ⟨z, hi, hc.allocate hcall⟩

/-- Where the regions of a row are: apart, and on backed pages. -/
theorem Rows.regions (h : K.Rows s) : ∃ hi, Backing K.image.p4_table K.reserve s K.vmRoot hi ∧
    (∀ a, K.kernel.OnList s K.vmRoot a → K.vmRoot ≤ a.addr ∧ a.stop ≤ hi) ∧
    ∀ a b v w, K.kernel.OnList s K.vmRoot a → K.kernel.OnList s K.vmRoot b →
      a.addr ≤ v → v < a.stop → b.addr ≤ w → w < b.stop → v / 4096 = w / 4096 → a = b := by
  rcases h with ⟨rs, hi, hb⟩ | ⟨z, hi, hc⟩
  · -- A row: two of its regions are apart by whole pages.
    have hmem : ∀ {a}, K.kernel.OnList s K.vmRoot a → a ∈ rs := hb.regions.mem_of_onList
    refine ⟨hi, hb.backing, fun a ha => hb.row.bounds (hmem ha),
      fun a b v w ha hb' h1 h2 h3 h4 heq => ?_⟩
    rcases hb.wellFormed.ordered.eq_or_apart (hmem ha) (hmem hb') with hab | hab | hab
    · exact hab
    all_goals
      have ha1 := hb.wellFormed.addr_page a (hmem ha)
      have ha2 := hb.wellFormed.size_page a (hmem ha)
      have hb1 := hb.wellFormed.addr_page b (hmem hb')
      have hb2 := hb.wellFormed.size_page b (hmem hb')
      unfold Region.stop PAGE_SIZE at *
      omega
  · -- A collapsed row: the second region is empty.
    have hmem : ∀ {a}, K.kernel.OnList s K.vmRoot a →
        a = ⟨K.vmRoot, z⟩ ∨ a = ⟨K.vmRoot + z, 0⟩ := hc.onList
    have hlt := hc.lt
    refine ⟨hi, hc.backing, fun a ha => ?_, fun a b v w ha hb h1 h2 h3 h4 heq => ?_⟩
    · unfold Region.stop
      rcases hmem ha with rfl | rfl
      · exact ⟨le_refl _, le_of_lt hlt⟩
      · dsimp only
        omega
    · unfold Region.stop at *
      rcases hmem ha with rfl | rfl
      · rcases hmem hb with rfl | rfl
        · rfl
        · dsimp only at h3 h4
          omega
      · dsimp only at h1 h2
        omega

/-- While the allocator does not run out and the list stays below 510 GiB, calls of `vmm_allocate`
from `init_vmm` on keep the row. -/
theorem rows_of_run {ts : List (Transition (Paged PhysicalPages) ℕ)}
    (hinit : initVmm K.image K.boot = some s₀) (hnext : K.kernel.next s₀ K.vmRoot = some 0)
    (hrun : Run K.AllocateStep s₀ ts s) (hbelow : ∀ x ∈ ts, K.EndsBelow x.pre x.label)
    (hout : s.frames.ran_out = false) : K.Rows s := by
  have hstart : s₀.frames.ran_out ≠ true → K.Rows s₀ := by
    intro hgood
    obtain ⟨d, hd⟩ := K.init_started hinit hgood
    exact Or.inl ⟨_, _, hd.backed hnext⟩
  have hkeep : ∀ s size s', (s.frames.ran_out ≠ true → K.Rows s) → K.EndsBelow s size →
      K.AllocateStep s size s' → s'.frames.ran_out ≠ true → K.Rows s' :=
    fun s size s' ih hg hstep hgood => (ih (hstep.ran_out hgood)).step hg hstep hgood
  exact hrun.invariant hstart hbelow hkeep (by rw [hout]; decide)

/-- A kernel whose image ends 12 KiB below 4 MiB, on memory that was cleared. -/
def small (mem_upper : BitVec 32) : Machine where
  memory := ⟨⟨0x3FD000, by norm_num⟩, fun _ => 0, 0, mem_upper, []⟩
  image := ⟨256, by norm_num⟩
  inside := by norm_num
  framebuffer_addr := none
  rest := fun _ _ => 0

/-- Its free pages are those behind the reserve. -/
theorem small_free {mem_upper : BitVec 32} {f : ℕ} : (small mem_upper).boot.frames.Free f ↔
    4093 ≤ f ∧ f < (small mem_upper).memory.totalPages := by
  have htotal : (small mem_upper).boot.frames.bitmap.total_pages =
      (small mem_upper).memory.totalPages := (small mem_upper).memory.initPmm_total_pages
  have hmap : ¬ Protected ((small mem_upper).memory.allMemory * 1024)
      (small mem_upper).memory.entries f := by
    rintro ⟨e, he, -⟩
    cases he
  -- The reserve ends 12 MiB behind the kernel.
  have hend : (small mem_upper).memory.image.reserveEnd / 4096 = 4093 := by
    show (0x3FD000 + 1024 * 1024 * 12) % 2^64 / 4096 = 4093
    norm_num
  have hbits : f < (small mem_upper).memory.totalPages →
      ((small mem_upper).memory.initPmm.isPageFree f = true ↔ 4093 ≤ f) := by
    intro hlt
    rw [(small mem_upper).memory.isPageFree_initPmm hlt, and_iff_left hmap, hend]
  unfold PhysicalPages.Free
  rw [htotal]
  constructor
  · rintro ⟨hlt, hfree⟩
    exact ⟨(hbits hlt).mp hfree, hlt⟩
  · rintro ⟨hge, hlt⟩
    exact ⟨hlt, (hbits hlt).mpr hge⟩

theorem small_enough {mem_upper : BitVec 32} {n : ℕ}
    (hn : 4093 + n ≤ (small mem_upper).memory.totalPages) :
    (small mem_upper).boot.frames.Enough n := by
  refine ⟨Bool.false_ne_true, ?_⟩
  have hsub : Finset.Ico 4093 (4093 + n) ⊆ (small mem_upper).boot.frames.freeFrames := by
    intro f hf
    obtain ⟨h1, h2⟩ := Finset.mem_Ico.mp hf
    exact PhysicalPages.mem_freeFrames.mpr (small_free.mpr ⟨h1, lt_of_lt_of_le h2 hn⟩)
  have hcard := Finset.card_le_card hsub
  rw [Nat.card_Ico] at hcard
  omega

/-- A frame that is free after the boot reads as zero. -/
theorem small_zero {mem_upper : BitVec 32} {d : ℕ} (hd : (small mem_upper).boot.frames.Free d)
    (i : Fin 512) : (small mem_upper).boot.mem d i = 0 := by
  obtain ⟨hge, -⟩ := small_free.mp hd
  show BootImage.tables ⟨256, _⟩ none _ d i = 0
  unfold BootImage.tables BootImage.p3_table BootImage.p2_table BootImage.pt_tables
    BootImage.fbb_pt_tables
  dsimp only
  rw [if_neg (by omega), if_neg (by omega), if_neg (by omega), if_neg (by omega), if_neg (by omega),
    if_neg (by omega), if_neg (by omega)]
  rfl

/-- On 16 MiB and 32 KiB, `init_vmm` and one allocation return. -/
theorem small_allocated : ∃ s₀ s fuel, initVmm (small 16416).image (small 16416).boot = some s₀ ∧
    (small 16416).kernel.next s₀ (small 16416).vmRoot = some 0 ∧
    (small 16416).EndsBelow s₀ 100 ∧
    (small 16416).kernel.vmmAllocate fuel s₀ (small 16416).vmRoot 100 =
      some ((small 16416).vmRoot + 4096 + 16, s) ∧ s.frames.ran_out = false ∧
    Backed 256 (small 16416).reserve (small 16416).vmRoot s
      [⟨(small 16416).vmRoot, 4096⟩, ⟨(small 16416).vmRoot + 4096, 4096⟩]
      ((small 16416).vmRoot + 4096 + 4096) := by
  have htotal : (small 16416).memory.totalPages = 4104 := by decide
  have hsize : regionSize 100 = 4096 := by decide
  obtain ⟨hlo, hhi, -⟩ := (small 16416).vmRoot_bounds
  obtain ⟨s₀, hinit, henough⟩ := (small 16416).init_total (n := 4) (small_enough (by omega))
  obtain ⟨d, hstart⟩ := (small 16416).init_started hinit henough.1
  have hnext : (small 16416).kernel.next s₀ (small 16416).vmRoot = some 0 :=
    hstart.next.trans (congrArg some (small_zero hstart.frame 0))
  have hback := hstart.backed hnext
  obtain ⟨fuel, s, hcall, ⟨hgood, -⟩, hback'⟩ := hback.allocate_next (n := 100) (k := 0) (by omega)
    (by omega) (by rw [hsize]; exact henough)
  -- There is one list, and the root is its last region.
  have hbelow : (small 16416).EndsBelow s₀ 100 := by
    intro l x hx
    have hone := hx.unique hback.regions
    obtain ⟨-, hlast⟩ := List.append_inj' (hone.trans (List.nil_append _).symm) rfl
    obtain rfl := (List.cons.inj hlast).1
    rw [hsize]
    show (small 16416).vmRoot + 4096 + 4096 < _
    omega
  rw [hsize] at hback'
  exact ⟨s₀, s, fuel, hinit, hnext, hbelow, hcall, by simpa using hgood, hback'⟩

end Machine

end Potatos
