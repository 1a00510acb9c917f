import Potatos.Mem.InitVmm

/-!
# Out of physical memory

`allocate_physical_page` returns 0 when it finds no free page, and `vmm_allocate_area` and
`map_page` do not look: they map the page, or link the table, at frame 0. So a call of
`vmm_allocate` that runs out and returns does what it does when it does not run out. It is never
atomic (`not_atomic`): its pointer would be 0 only for a region at the top of the address space, and
then the last link of the list has changed.
-/

namespace Potatos

open Lib RegionMemory

variable {p4_table vm_root n p fuel : ℕ} {s s' : Paged PhysicalPages}

/-- The list is the same, as `vmm_allocate` reads it: a root whose size reads as zero is a page. -/
def SameList (p4_table vm_root : ℕ) (s s' : Paged PhysicalPages) : Prop :=
  ∃ t t', (kernelMemory p4_table).fixRoot s vm_root = some t ∧
    (kernelMemory p4_table).fixRoot s' vm_root = some t' ∧
    ∀ a, (kernelMemory p4_table).OnList t vm_root a →
      (kernelMemory p4_table).next t' a.addr = (kernelMemory p4_table).next t a.addr ∧
        (kernelMemory p4_table).size t' a.addr = (kernelMemory p4_table).size t a.addr

/-- A failure that is reported and changes nothing: the pointer is 0, the bitmap, the tables and the
list are as before, and no entry of a table has come to hold frame 0. -/
structure Atomic (p4_table vm_root : ℕ) (s s' : Paged PhysicalPages) (p : ℕ) : Prop where
  reported : p = 0
  bitmap : s'.frames.bitmap = s.frames.bitmap
  tables : ∀ f, s.mem.IsTable p4_table f → s'.mem f = s.mem f
  regions : SameList p4_table vm_root s s'
  zero : ∀ f i, s'.mem.IsTable p4_table f → s'.mem.next f i = some 0 → s.mem.next f i = some 0

/-! ## Words without the present bit -/

/-- A store of a word without the present bit makes no walk succeed, whatever it hits. -/
theorem walk_of_store {m : PhysMem} {f : ℕ} {i : Fin 512} {v b g : ℕ} (hv : present v = false)
    (h : (m.set f i v).walk p4_table b = some g) : m.walk p4_table b = some g := by
  -- Every step that there is after the store was there before it.
  have hstep : ∀ x j y, (m.set f i v).next x j = some y → m.next x j = some y := by
    intro x j y hy
    by_cases hx : x = f
    · subst hx
      by_cases hj : j = i
      · subst hj
        rw [PhysMem.next, PhysMem.set_self, hv] at hy
        cases hy
      · rwa [PhysMem.next_congr (PhysMem.set_other hj)] at hy
    · rwa [PhysMem.next_congr (congrFun (PhysMem.set_of_ne hx) j)] at hy
  -- So every path is one of before.
  have hpath : ∀ (q : List (Fin 512)) x, descend (m.set f i v).next x q = some g →
      descend m.next x q = some g := by
    intro q
    induction q with
    | nil => exact fun x hx => hx
    | cons j q ih =>
      intro x hx
      obtain ⟨y, hy, hx⟩ := Option.bind_eq_some_iff.mp hx
      rw [descend_step (hstep x j y hy)]
      exact ih y hx
  exact hpath _ _ h

/-- What a word reads as after such a store, if it can still be read: what it read as before, or the
new word where the two addresses meet. -/
theorem load_of_store {a b v w : ℕ} (hv : present v = false)
    (hs : (kernelMemory p4_table).store s a v = some s')
    (hl : (kernelMemory p4_table).load s' b = some w) :
    (kernelMemory p4_table).load s b = some w ∨
      (w = v ∧ (kernelMemory p4_table).load s b = (kernelMemory p4_table).load s a) := by
  obtain ⟨m, hm, rfl⟩ := Option.map_eq_some_iff.mp hs
  obtain ⟨f, hf, rfl⟩ := Option.map_eq_some_iff.mp hm
  obtain ⟨g, hg, rfl⟩ := Option.map_eq_some_iff.mp hl
  have hwalk := walk_of_store hv hg
  have hb : (kernelMemory p4_table).load s b = some (s.mem g (field b 3)) := by
    show (s.mem.walk p4_table b).map _ = _
    rw [hwalk]
    rfl
  have ha : (kernelMemory p4_table).load s a = some (s.mem f (field a 3)) := by
    show (s.mem.walk p4_table a).map _ = _
    rw [hf]
    rfl
  rw [hb, ha]
  -- The word is the one that was stored, or it has not changed.
  by_cases hslot : g = f ∧ field b 3 = field a 3
  · right
    rw [hslot.1, hslot.2]
    exact ⟨PhysMem.set_self, rfl⟩
  · left
    congr 1
    by_cases hg : g = f
    · subst hg
      exact (PhysMem.set_other (fun hi => hslot ⟨rfl, hi⟩)).symm
    · exact (congrFun (PhysMem.set_of_ne hg) _).symm

theorem load_of_store_self {a v w : ℕ} (hv : present v = false)
    (hs : (kernelMemory p4_table).store s a v = some s')
    (hl : (kernelMemory p4_table).load s' a = some w) : w = v := by
  obtain ⟨m, hm, rfl⟩ := Option.map_eq_some_iff.mp hs
  obtain ⟨f, hf, rfl⟩ := Option.map_eq_some_iff.mp hm
  obtain ⟨g, hg, rfl⟩ := Option.map_eq_some_iff.mp hl
  obtain rfl := Option.some.inj (hf.symm.trans (walk_of_store hv hg))
  exact PhysMem.set_self

theorem present_even {v : ℕ} (h : v % 2 = 0) : present v = false := by
  rw [present, show PT_PRESENT_BIT = 1 from rfl, Nat.and_one_is_mod, h]
  rfl

/-- A header at the start of a page is the first two words of the page's frame. -/
theorem header_of_walk {a f : ℕ} (hpage : a % 4096 = 0) (h : s.mem.walk p4_table a = some f) :
    (kernelMemory p4_table).next s a = some (s.mem f 0) ∧
      (kernelMemory p4_table).size s a = some (s.mem f 1) := by
  have hnext : field a 3 = 0 := field_eq (show a / 2^3 % 512 = 0 by omega)
  have hsize : field (a + 8) 3 = 1 := field_eq (show (a + 8) / 2^3 % 512 = 1 by omega)
  have hwalk : s.mem.walk p4_table (a + 8) = some f := (walk_congr (by omega)).trans h
  constructor
  · show (s.mem.walk p4_table a).map _ = _
    rw [h, hnext]
    rfl
  · show (s.mem.walk p4_table (a + 8)).map _ = _
    rw [hwalk, hsize]
    rfl

/-! ## The last link -/

/-- After the last store of a call, of a link that is neither present nor 0, the link reads as the
new one, also as the next call reads the list. -/
theorem link_after {t t' : Paged PhysicalPages} {prev c w : ℕ} (hc : present c = false) (h0 : c ≠ 0)
    (hs : (kernelMemory p4_table).setNext s prev c = some t)
    (hfix : (kernelMemory p4_table).fixRoot t vm_root = some t')
    (hl : (kernelMemory p4_table).next t' prev = some w) : w = c := by
  obtain ⟨z, hz, hfix⟩ := Option.bind_eq_some_iff.mp hfix
  by_cases hzero : z = 0
  · subst hzero
    rw [if_pos rfl] at hfix
    rcases load_of_store (by decide) hfix hl with hold | ⟨-, hmeet⟩
    · exact load_of_store_self hc hs hold
    · -- the link is not where the size of the root is, which reads as zero
      exact absurd (load_of_store_self hc hs (hmeet.trans hz)).symm h0
  · rw [if_neg hzero] at hfix
    obtain rfl := Option.some.inj hfix
    exact load_of_store_self hc hs hl

theorem fixRoot_frames (h : (kernelMemory p4_table).fixRoot s vm_root = some s') :
    s'.frames = s.frames := by
  obtain ⟨z, -, h⟩ := Option.bind_eq_some_iff.mp h
  split at h
  · exact store_frames h
  · rw [← Option.some.inj h]

/-- The end of a call: a link to the new region is its last store, and where there was a next region
the size was not zero if the allocator was called. -/
theorem vmmAllocate_last (hroot : vm_root ≠ 0)
    (h : (kernelMemory p4_table).vmmAllocate fuel s vm_root n = some (p, s')) :
    ∃ t prev z c u, (kernelMemory p4_table).fixRoot s vm_root = some t ∧
      (kernelMemory p4_table).OnList t vm_root ⟨prev, z⟩ ∧
      (kernelMemory p4_table).next t prev = some c ∧
      (kernelMemory p4_table).setNext u prev (addw prev z) = some s' ∧
      (p = addw (addw prev z) 16 ∨ p = addw (addw prev z) 256) ∧
      (c = 0 ∨ c ≠ addw prev z ∨ s'.frames = s.frames) := by
  obtain ⟨t, hfix, h⟩ := Option.bind_eq_some_iff.mp h
  have hframes := fixRoot_frames hfix
  cases fuel with
  | zero => cases h
  | succ fuel =>
    rw [allocateLoop, if_neg hroot, if_pos rfl] at h
    obtain ⟨first, hfirst, h⟩ := Option.bind_eq_some_iff.mp h
    obtain ⟨prev, z, c, hon, hc, hz, hcase⟩ :=
      allocateLoop_end hroot (fun z hz => .root hz) hfirst h
    refine ⟨t, prev, z, c, ?_⟩
    -- The walk ends at the end of the list or in a gap, and both end with the link.
    rcases hcase with ⟨rfl, happ⟩ | ⟨hgap, hins⟩
    · obtain ⟨z', s₁, s₂, s₃, hz', -, -, -, h₄, rfl⟩ := appendRegion_eq_some.mp happ
      obtain rfl := Option.some.inj (hz.symm.trans hz')
      exact ⟨s₃, hfix, hon, hc, h₄, Or.inl rfl, Or.inl rfl⟩
    · obtain ⟨z', _, s₁, s₂, s₃, s₄, s₅, hz', h₁, -, h₂, h₃, h₄, h₅, h₆, rfl⟩ :=
        insertInGap_eq_some.mp hins
      obtain rfl := Option.some.inj (hz.symm.trans hz')
      refine ⟨s₅, hfix, hon, hc, h₆, Or.inr rfl, Or.inr ?_⟩
      by_cases hsame : c = addw prev z
      · -- no gap has no room for a page
        right
        have hzero : subw c (addw prev z) = 0 := by
          rw [← hsame]
          unfold subw addw at *
          omega
        have harea : s₄ = s₃ := by
          have hsize : alignToNearestPage (addw n sizeofVmmRegion) = 0 := by omega
          rw [hsize] at h₄
          exact (Option.some.inj h₄).symm
        rw [store_frames h₆, store_frames h₅, harea, store_frames h₃, store_frames h₂,
          store_frames h₁, hframes]
      · exact Or.inl hsame

namespace Machine

variable {K : Machine}

/-- A call of `vmm_allocate` that runs out of physical memory and returns is not atomic, in any
state. -/
theorem not_atomic
    (hcall : K.kernel.vmmAllocate fuel s K.vmRoot n = some (p, s'))
    (hbefore : s.frames.ran_out = false) (hafter : s'.frames.ran_out = true) :
    ¬ Atomic K.image.p4_table K.vmRoot s s' p := by
  intro hatomic
  have hroot : K.vmRoot ≠ 0 := by
    have := K.vmRoot_bounds
    omega
  obtain ⟨t, prev, z, c, u, hfix, hon, hc, hlast, hp, hcase⟩ := vmmAllocate_last hroot hcall
  obtain ⟨t₁, t', hfix₁, hfix', hlist⟩ := hatomic.regions
  obtain rfl := Option.some.inj (hfix.symm.trans hfix₁)
  have hnext := (hlist _ hon).1
  rw [show (⟨prev, z⟩ : Region).addr = prev from rfl, hc] at hnext
  -- the pointer is 0, so the new region is at the top of the address space
  have hzero := hatomic.reported
  have hnew : addw prev z % 2 = 0 ∧ addw prev z ≠ 0 := by
    unfold addw at *
    omega
  have hlink := link_after (present_even hnew.1) hnew.2 hlast hfix' hnext
  rcases hcase with rfl | hne | hframes
  · exact hnew.2 hlink.symm
  · exact hne hlink
  · rw [hframes, hbefore] at hafter
    cases hafter

/-! ## A call that runs out -/

/-- On 16 MiB `init_vmm` takes the last free page. -/
theorem small_used {s₀ : Paged PhysicalPages} {d : ℕ} (h : (small 16384).Started s₀ d) :
    s₀.frames.bitmap.freePage = none := by
  have htotal : (small 16384).memory.totalPages = 4096 := by decide
  have hsub : (small 16384).boot.frames.freeFrames ⊆ Finset.Ico 4093 4096 := by
    intro f hf
    have hfree := small_free.mp (PhysicalPages.mem_freeFrames.mp hf)
    rw [htotal] at hfree
    exact Finset.mem_Ico.mpr hfree
  have hcard := Finset.card_le_card hsub
  rw [Nat.card_Ico] at hcard
  have hboot := h.card
  have hnone : s₀.frames.freeFrames = ∅ := Finset.card_eq_zero.mp (by omega)
  apply Bitmap.freePage_eq_none.mpr
  intro f hf
  by_contra hbit
  have hmem := PhysicalPages.mem_freeFrames.mpr ⟨hf, by simpa using hbit⟩
  rw [hnone] at hmem
  exact absurd hmem (Finset.notMem_empty f)

/-- With no page left, a page whose tables are there is mapped to frame 0, and what is neither a
table nor free stays as it is. -/
theorem page_zero {reserve b c d : ℕ} (hin : InOrder p4_table reserve s)
    (hnone : s.frames.bitmap.freePage = none) (hb : InWindow b) (hc : InWindow c)
    (hsame : c / 2^21 = b / 2^21) (hwalk : s.mem.walk p4_table b = some d)
    (hunmapped : s.mem.walk p4_table c = none) :
    ∃ s₁, mapFreshPage p4_table s c = some s₁ ∧ s₁.frames = ⟨s.frames.bitmap, true⟩ ∧
      Keeps p4_table reserve s s₁ ∧ s₁.mem.walk p4_table c = some 0 ∧
      ∀ a, InWindow a → a / 4096 ≠ c / 4096 →
        s₁.mem.walk p4_table a = s.mem.walk p4_table a := by
  -- The tables of the page are those of the other.
  have hfields : field c 39 = field b 39 ∧ field c 30 = field b 30 ∧ field c 21 = field b 21 := by
    refine ⟨field_eq ?_, field_eq ?_, field_eq ?_⟩ <;> rw [field_val] <;> omega
  have htables : descend (s.mem.tree p4_table) p4_table
      [field c 39, field c 30, field c 21] ≠ none := by
    rw [hfields.1, hfields.2.1, hfields.2.2]
    exact hin.paged.table_of_walk hb.ne (by rw [hwalk]; exact Option.some_ne_none d)
  have hin' : InOrder p4_table reserve ⟨s.mem, ⟨s.frames.bitmap, true⟩⟩ :=
    ⟨hin.paged, hin.noAlias, hin.small, hin.tables, hin.reserved, hin.pos⟩
  obtain ⟨s₃, f, -, -, hf, hold, hcall⟩ := mapPage_spec hin'.paged (0 * 4096) 3 hc.ne
    (freshAllocs_of_tables hin'.paged hc.ne htables)
  obtain rfl := hold htables
  rw [if_neg (not_present_of_walk hin.paged hc hunmapped hf)] at hcall
  obtain ⟨hkeeps, hnew, hother⟩ := hin'.set_page hc (by norm_num : 0 < 2^40) hf rfl
  have halloc : s.frames.allocate = (0, ⟨s.frames.bitmap, true⟩) := by
    unfold PhysicalPages.allocate
    rw [Bitmap.allocatePhysicalPage_of_none hnone, hnone, Bool.or_comm]
    rfl
  refine ⟨_, ?_, rfl, ⟨hkeeps.inOrder, hkeeps.total, hkeeps.held⟩, hnew, hother⟩
  rw [mapFreshPage, halloc]
  exact hcall

/-- Once the page behind the last region is mapped, to whatever frame that is no table, the end of
`vmm_allocate` returns its pointer: no step looks at what the allocator returned. -/
theorem append_page {reserve root c d g : ℕ} {s₁ : Paged PhysicalPages}
    (hin : InOrder p4_table reserve s₁) (hc : root + 4096 = c) (htop : c + 16 < 2^64)
    (hpage8 : root % 4096 = 0) (hcwindow : field c 39 ≠ 510) (hrwindow : field root 39 ≠ 510)
    (hpage : mapFreshPage p4_table s c = some s₁) (hnew : s₁.mem.walk p4_table c = some g)
    (hroot : s₁.mem.walk p4_table root = some d) (hg : ¬ s₁.mem.IsTable p4_table g)
    (hd : ¬ s₁.mem.IsTable p4_table d)
    (hsize : (kernelMemory p4_table).size s root = some 4096) :
    ∃ s', (kernelMemory p4_table).appendRegion s 4096 root = some (c + 16, s') ∧
      s'.frames = s₁.frames ∧ InOrder p4_table reserve s' ∧
      (∀ x, s'.mem.IsTable p4_table x ↔ s₁.mem.IsTable p4_table x) ∧
      (∀ b, field b 39 ≠ 510 → s'.mem.walk p4_table b = s₁.mem.walk p4_table b) ∧
      s'.mem = ((s₁.mem.set g 0 0).set g 1 4096).set d 0 c := by
  have harea : (kernelMemory p4_table).vmmAllocateArea s c 4096 = some s₁ := by
    have hfirst : addw c (0 * PAGE_SIZE) = c := by
      rw [Nat.zero_mul]
      exact addw_of_lt (by omega)
    show (mapFreshPage p4_table s (addw c (0 * PAGE_SIZE))).bind _ = some s₁
    rw [hfirst, hpage]
    rfl
  -- The words of a header are the first two of its page.
  have hindex : field c 3 = 0 ∧ field (c + 8) 3 = 1 ∧ field root 3 = 0 := by
    refine ⟨field_eq ?_, field_eq ?_, field_eq ?_⟩
    · show c / 2^3 % 512 = 0
      omega
    · show (c + 8) / 2^3 % 512 = 1
      omega
    · show root / 2^3 % 512 = 0
      omega
  -- The three stores are into the new page and into the header before it, which are no tables.
  have hc8 : ∀ {m : PhysMem}, m.walk p4_table (c + 8) = m.walk p4_table c :=
    fun {m} => walk_congr (by omega)
  obtain ⟨s₂, h₂, hm₂, hf₂, hin₂, htable₂, hwalk₂⟩ := hin.store (v := 0) hnew hg
  have hpage₂ : s₂.mem.walk p4_table (c + 8) = some g :=
    calc s₂.mem.walk p4_table (c + 8) = s₂.mem.walk p4_table c := hc8
      _ = s₁.mem.walk p4_table c := hwalk₂ c hcwindow
      _ = some g := hnew
  obtain ⟨s₃, h₃, hm₃, hf₃, hin₃, htable₃, hwalk₃⟩ :=
    hin₂.store (v := 4096) hpage₂ (fun ht => hg ((htable₂ g).mp ht))
  have hroot₃ : s₃.mem.walk p4_table root = some d :=
    calc s₃.mem.walk p4_table root = s₂.mem.walk p4_table root := hwalk₃ _ hrwindow
      _ = s₁.mem.walk p4_table root := hwalk₂ _ hrwindow
      _ = some d := hroot
  obtain ⟨s₄, h₄, hm₄, hf₄, hin₄, htable₄, hwalk₄⟩ :=
    hin₃.store (v := c) hroot₃ (fun ht => hd ((htable₂ d).mp ((htable₃ d).mp ht)))
  have hframes : s₄.frames = s₁.frames := by
    calc s₄.frames = s₃.frames := hf₄
      _ = s₂.frames := hf₃
      _ = s₁.frames := hf₂
  have hwalk : ∀ b, field b 39 ≠ 510 → s₄.mem.walk p4_table b = s₁.mem.walk p4_table b := by
    intro b hb
    calc s₄.mem.walk p4_table b = s₃.mem.walk p4_table b := hwalk₄ b hb
      _ = s₂.mem.walk p4_table b := hwalk₃ b hb
      _ = s₁.mem.walk p4_table b := hwalk₂ b hb
  have hstop : addw root 4096 = c := by
    rw [← hc]
    exact addw_of_lt (by omega)
  refine ⟨s₄, appendRegion_eq_some.mpr ⟨4096, s₁, s₂, s₃, hsize, ?_⟩, hframes, hin₄,
    fun x => (htable₄ x).trans ((htable₃ x).trans (htable₂ x)), hwalk, ?_⟩
  · rw [hstop]
    exact ⟨harea, h₂, h₃, h₄, (addw_of_lt htop).symm⟩
  · rw [hm₄, hm₃, hm₂, hindex.1, hindex.2.1, hindex.2.2]

/-- With no page left: the root region in the frame `d`, and a second region of a page behind it in
frame 0. -/
structure OnZero (K : Machine) (s : Paged PhysicalPages) (d : ℕ) : Prop where
  inOrder : InOrder K.image.p4_table K.reserve s
  full : s.frames.bitmap.freePage = none
  root : s.mem.walk K.image.p4_table K.vmRoot = some d
  zero : s.mem.walk K.image.p4_table (K.vmRoot + 4096) = some 0
  behind : s.mem.walk K.image.p4_table (K.vmRoot + 8192) = none
  held_root : Held K.image.p4_table s d
  held_zero : Held K.image.p4_table s 0
  apart : d ≠ 0
  list : K.kernel.RegionsAt s K.vmRoot [⟨K.vmRoot, 4096⟩, ⟨K.vmRoot + 4096, 4096⟩]

/-- A call for a page when `init_vmm` has taken the last one: the new region is in frame 0. -/
theorem Started.runs_out {d : ℕ} {s₀ : Paged PhysicalPages} (h : K.Started s₀ d)
    (hnext : K.kernel.next s₀ K.vmRoot = some 0) (hfull : s₀.frames.bitmap.freePage = none)
    (hzero : Held K.image.p4_table s₀ 0) (htables : (K.vmRoot + 8192) / 2^21 = K.vmRoot / 2^21) :
    ∃ s', K.kernel.vmmAllocate 2 s₀ K.vmRoot 0 = some (K.vmRoot + 4096 + 16, s') ∧
      s'.frames.ran_out = true ∧ K.OnZero s' d := by
  obtain ⟨hlo, hhi, hpage8⟩ := K.vmRoot_bounds
  have hback := h.backed hnext
  have hwindow : ∀ a, 6 * 2^30 ≤ a → a < 9 * 2^30 → InWindow a :=
    fun a h1 h2 => ⟨by omega, by omega⟩
  have hrwindow : InWindow K.vmRoot := hwindow _ hlo (by omega)
  have hcall : K.kernel.vmmAllocate 2 s₀ K.vmRoot 0 = K.kernel.appendRegion s₀ 4096 K.vmRoot := by
    have hsize : regionSize 0 = 4096 := by decide
    refine (vmmAllocate_linked hback.regions.1 (by norm_num [PAGE_SIZE])).trans ?_
    rw [hsize, headAddr, allocateLoop, if_pos rfl]
  obtain ⟨f, hf, hdata⟩ := h.backing.mapped K.vmRoot (le_refl _) (by omega)
  obtain rfl := Option.some.inj (h.walk.symm.trans hf)
  have hd0 : d ≠ 0 := by
    have hge := hdata.ge
    have hpos := h.backing.inOrder.pos
    omega
  have hsize₀ : K.kernel.size s₀ K.vmRoot = some 4096 := h.size
  have hword : s₀.mem d 1 = 4096 :=
    Option.some.inj ((header_of_walk hpage8 h.walk).2.symm.trans hsize₀)
  obtain ⟨s₁, hpage, hframes₁, hkeeps, hnew, hother⟩ := page_zero (c := K.vmRoot + 4096)
    h.backing.inOrder hfull hrwindow (hwindow _ (by omega) (by omega)) (by omega) h.walk
    (h.backing.unmapped _ (le_refl _) (by omega))
  obtain ⟨hheld₁, hmem₁⟩ := hkeeps.held d hdata.held
  have hzero₁ := (hkeeps.held 0 hzero).1
  have hroot₁ := (hother K.vmRoot hrwindow (by omega)).trans h.walk
  obtain ⟨s', happend, hframes, hin', htable, hwalk, hmem⟩ := append_page hkeeps.inOrder rfl
    (by omega) hpage8 (hwindow _ (by omega) (by omega)).ne hrwindow.ne hpage hnew hroot₁ hzero₁.1
    hheld₁.1 hsize₀
  -- The two headers, as the stores leave them.
  have hroot' : s'.mem.walk K.image.p4_table K.vmRoot = some d := (hwalk _ hrwindow.ne).trans hroot₁
  have hnew' : s'.mem.walk K.image.p4_table (K.vmRoot + 4096) = some 0 :=
    (hwalk _ (hwindow _ (by omega) (by omega)).ne).trans hnew
  obtain ⟨hrn, hrs⟩ := header_of_walk hpage8 hroot'
  obtain ⟨hzn, hzs⟩ := header_of_walk (show (K.vmRoot + 4096) % 4096 = 0 by omega) hnew'
  have hd1 : s'.mem d 1 = 4096 := by
    rw [hmem, PhysMem.set_other (by decide), PhysMem.set_of_ne hd0, PhysMem.set_of_ne hd0, hmem₁,
      hword]
  have hz0 : s'.mem 0 0 = 0 := by
    rw [hmem, PhysMem.set_of_ne hd0.symm, PhysMem.set_other (by decide), PhysMem.set_self]
  have hz1 : s'.mem 0 1 = 4096 := by
    rw [hmem, PhysMem.set_of_ne hd0.symm, PhysMem.set_self]
  rw [hmem, PhysMem.set_self] at hrn
  rw [hd1] at hrs
  rw [hz0] at hzn
  rw [hz1] at hzs
  have hheld : ∀ f, Held K.image.p4_table s₁ f → Held K.image.p4_table s' f :=
    fun f hf => ⟨fun ht => hf.1 ((htable f).mp ht), fun hfree => hf.2 (hframes ▸ hfree)⟩
  refine ⟨s', hcall.trans happend, by rw [hframes, hframes₁], hin', ?_, hroot', hnew', ?_,
    hheld d hheld₁, hheld 0 hzero₁, hd0, ⟨by show K.vmRoot ≠ 0; omega, hrn, hrs,
      by show K.vmRoot + 4096 ≠ 0; omega, hzn, hzs, trivial⟩, _, _, rfl, rfl⟩
  · rw [hframes, hframes₁]
    exact hfull
  · rw [hwalk _ (hwindow _ (by omega) (by omega)).ne, hother _ (hwindow _ (by omega) (by omega))
      (by omega)]
    exact h.backing.unmapped _ (by omega) (by omega)

/-- After `init_vmm` on 16 MiB, the next call of `vmm_allocate` maps frame 0 and returns its
page. -/
theorem small_runs_out : ∃ s₀ s' d, initVmm (small 16384).image (small 16384).boot = some s₀ ∧
    s₀.frames.ran_out = false ∧
    (small 16384).kernel.next s₀ (small 16384).vmRoot = some 0 ∧
    (small 16384).kernel.vmmAllocate 2 s₀ (small 16384).vmRoot 0 =
      some ((small 16384).vmRoot + 4096 + 16, s') ∧
    s'.frames.ran_out = true ∧ (small 16384).OnZero s' d := by
  obtain ⟨s₀, hinit, henough⟩ := (small 16384).init_total (n := 0) (small_enough (by decide))
  obtain ⟨d, h⟩ := (small 16384).init_started hinit henough.1
  have hnext : (small 16384).kernel.next s₀ (small 16384).vmRoot = some 0 :=
    h.next.trans (congrArg some (small_zero h.frame 0))
  -- Frame 0 is no table, and does not become one.
  have hzero : Held 256 s₀ 0 := by
    refine h.held 0 ⟨fun ht => ?_, fun hfree => absurd (small_free.mp hfree).1 (by omega)⟩
    obtain ⟨k, hk, hat⟩ := ht
    have hcases := BootImage.tables_at hk hat
    unfold BootImage.p3_table BootImage.p2_table BootImage.pt_tables
      BootImage.fbb_pt_tables at hcases
    have hp4 : (small 16384).image.p4_table = 256 := rfl
    omega
  obtain ⟨s', hcall, hafter, hon⟩ := h.runs_out hnext (small_used h) hzero (by decide)
  exact ⟨s₀, s', d, hinit, by simpa using henough.1, hnext, hcall, hafter, hon⟩

theorem not_atomic_small : ∃ s₀ s', initVmm (small 16384).image (small 16384).boot = some s₀ ∧
    s'.frames.ran_out = true ∧
    ¬ Atomic 256 (small 16384).vmRoot s₀ s' ((small 16384).vmRoot + 4096 + 16) := by
  obtain ⟨s₀, s', d, hinit, hbefore, -, hcall, hafter, -⟩ := small_runs_out
  exact ⟨s₀, s', hinit, hafter, not_atomic hcall hbefore hafter⟩

/-- On 16 MiB, with all pages used after `init_vmm`, `vmm_allocate(0)` returns a pointer into a page
that it mapped to frame 0. -/
theorem frame_zero_mapped : ∃ s₀ s' p, initVmm (small 16384).image (small 16384).boot = some s₀ ∧
    (small 16384).kernel.vmmAllocate 2 s₀ (small 16384).vmRoot 0 = some (p, s') ∧
    s₀.frames.ran_out = false ∧ s'.frames.ran_out = true ∧ p ≠ 0 ∧ s'.mem.walk 256 p = some 0 ∧
    ¬ Atomic 256 (small 16384).vmRoot s₀ s' p := by
  obtain ⟨s₀, s', d, hinit, hbefore, -, hcall, hafter, hzero⟩ := small_runs_out
  obtain ⟨-, -, hpage⟩ := (small 16384).vmRoot_bounds
  have hne : (small 16384).vmRoot + 4096 + 16 ≠ 0 := by omega
  have hsame : ∀ r, r % 4096 = 0 → (r + 4096 + 16) / 4096 = (r + 4096) / 4096 :=
    fun r hr => by omega
  exact ⟨s₀, s', _, hinit, hcall, hbefore, hafter, hne,
    (walk_congr (hsame _ hpage)).trans hzero.zero, fun hatomic => hne hatomic.reported⟩

end Machine

end Potatos
