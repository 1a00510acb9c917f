import Potatos.Mem.KernelMemory

/-!
# Pages that stay mapped

`vmm_free` marks the frame of a header free and leaves its page mapped. So from the first call on
there are frames that are mapped and will be handed out again, two pages may come to have one frame,
and a range of regions is no `Backing` any more. What is left of it is `Covered`: each page of the
range has a frame, which is no table. `vmm_allocate_area` keeps this, also over pages that are
mapped already, as long as the allocator has a frame for each page that is new, and makes no table
of a frame that is mapped (`PagesLast`).
-/

namespace Potatos

open Lib RegionMemory

variable {p4_table reserve lo hi : ℕ} {s s' : Paged PhysicalPages} {f : ℕ}

/-! ## What `map_page` writes -/

theorem made_mem (h : Relation.ReflTransGen (Made PhysicalPages.allocate p4_table) s s')
    (hw : s.mem.WellPaged p4_table) :
    (∀ f, s.mem.IsTable p4_table f → s'.mem.IsTable p4_table f) ∧
      ∀ f, ¬ s'.mem.IsTable p4_table f → s'.mem f = s.mem f := by
  induction h with
  | refl => exact ⟨fun _ hf => hf, fun _ _ => rfl⟩
  | tail hs hstep ih =>
    obtain ⟨htables, hmem⟩ := ih
    obtain ⟨g, -, hiff, hother⟩ := hstep.isTable (made_wellPaged hs hw)
    refine ⟨fun f hf => (hiff f).mpr (Or.inl (htables f hf)), fun f hf => ?_⟩
    rw [hother f hf, hmem f (fun ht => hf ((hiff f).mpr (Or.inl ht)))]

/-- `map_page` writes into tables only. -/
theorem InOrder.mapPage_mem (h : InOrder p4_table reserve s) {virtual_address physical_address : ℕ}
    (hva : InWindow virtual_address)
    (hres : mapPage PhysicalPages.allocate p4_table s virtual_address physical_address 3 = some s')
    (hgood : s'.frames.ran_out ≠ true) :
    ∀ f, ¬ s'.mem.IsTable p4_table f → s'.mem f = s.mem f := by
  obtain ⟨s₃, g, hmade, hw₃, hpath, hs'⟩ := h.map_spec hva hres hgood
  obtain ⟨-, hmem⟩ := made_mem hmade h.paged
  intro f hf
  rw [hs'] at hf ⊢
  split_ifs at hf ⊢
  · exact hmem f hf
  · -- The last store is into a table, which it leaves one.
    have hat : At (s₃.mem.tree p4_table) p4_table 3 g := ⟨_, rfl, hpath⟩
    obtain ⟨hleaf, -⟩ := setLeaf_set (i := field virtual_address 12)
      (v := alignToPage physical_address ||| (3 : BitVec 8).toNat) hw₃ hat
    have htable : ∀ x, s₃.mem.IsTable p4_table x →
        (s₃.mem.set g (field virtual_address 12)
          (alignToPage physical_address ||| (3 : BitVec 8).toNat)).IsTable p4_table x := by
      rintro x ⟨n, hn, hx⟩
      exact ⟨n, hn, (hleaf.at_iff hw₃.layered hn).mpr hx⟩
    have hne : f ≠ g := by
      rintro rfl
      exact hf (htable f ⟨3, le_refl 3, hat⟩)
    exact (PhysMem.set_of_ne hne).trans (hmem f (fun ht => hf (htable f ht)))

/-- For a page that is mapped `vmm_allocate_area` takes a frame, and nothing else happens. -/
theorem mapFreshPage_of_mapped (hself : s.mem.next p4_table 510 = some p4_table) {a : ℕ}
    (ha : s.mem.walk p4_table a ≠ none) :
    mapFreshPage p4_table s a = some ⟨s.mem, s.frames.allocate.2⟩ :=
  mapPage_of_mapped (s := ⟨s.mem, s.frames.allocate.2⟩) hself _ _ ha

/-! ## Ranges -/

/-- Each page from `lo` up to `hi` has a frame, which is no table, and nothing from `hi` up to
510 GiB is mapped. The frames may be free, and two pages may have one. -/
structure Covered (p4_table reserve : ℕ) (s : Paged PhysicalPages) (lo hi : ℕ) : Prop where
  inOrder : InOrder p4_table reserve s
  bottom : 2^30 ≤ lo
  top : hi < 510 * 2^30
  page : hi % 4096 = 0
  mapped : ∀ a, lo ≤ a → a < hi →
    ∃ f, s.mem.walk p4_table a = some f ∧ ¬ s.mem.IsTable p4_table f ∧ reserve ≤ f
  unmapped : ∀ a, hi ≤ a → a < 510 * 2^30 → s.mem.walk p4_table a = none

theorem Backing.covered (h : Backing p4_table reserve s lo hi) :
    Covered p4_table reserve s lo hi := by
  refine ⟨h.inOrder, h.bottom, h.top, h.page, fun a ha hlt => ?_, h.unmapped⟩
  obtain ⟨f, hf, hdata⟩ := h.mapped a ha hlt
  exact ⟨f, hf, hdata.held.1, hdata.ge⟩

/-- No frame that is mapped from `lo` on has become a table. -/
def KeepsMapped (p4_table lo : ℕ) (s s' : Paged PhysicalPages) : Prop :=
  ∀ a f, lo ≤ a → a < 510 * 2^30 → s.mem.walk p4_table a = some f →
    ¬ s.mem.IsTable p4_table f → ¬ s'.mem.IsTable p4_table f

/-- The pages of the range have the frames that they had, and its words read as they did. -/
def SameWords (p4_table lo hi : ℕ) (s s' : Paged PhysicalPages) : Prop :=
  ∀ a, lo ≤ a → a < hi → s'.mem.walk p4_table a = s.mem.walk p4_table a ∧
    (kernelMemory p4_table).load s' a = (kernelMemory p4_table).load s a

namespace Covered

theorem window (h : Covered p4_table reserve s lo hi) {a : ℕ} (ha : lo ≤ a) (hlt : a < 510 * 2^30) :
    InWindow a :=
  ⟨le_trans h.bottom ha, hlt⟩

/-- The tables are as they were, and the bitmap is still in order. -/
theorem of_frames (h : Covered p4_table reserve s lo hi) {frames : PhysicalPages}
    (hin : InOrder p4_table reserve ⟨s.mem, frames⟩) :
    Covered p4_table reserve ⟨s.mem, frames⟩ lo hi :=
  ⟨hin, h.bottom, h.top, h.page, h.mapped, h.unmapped⟩

/-- Taking a frame. -/
theorem allocate (h : Covered p4_table reserve s lo hi) :
    Covered p4_table reserve ⟨s.mem, s.frames.allocate.2⟩ lo hi :=
  h.of_frames ⟨h.inOrder.paged, h.inOrder.noAlias, PhysicalPages.small_allocate h.inOrder.small,
    fun f hf hx => h.inOrder.tables f hf (PhysicalPages.free_of_allocate h.inOrder.small hx),
    fun f hf hx => h.inOrder.reserved f hf (PhysicalPages.free_of_allocate h.inOrder.small hx),
    h.inOrder.pos⟩

/-- A page of the range that is asked for once more. -/
theorem page_again (h : Covered p4_table reserve s lo hi) {a : ℕ} (ha : lo ≤ a) (hlt : a < hi) :
    mapFreshPage p4_table s a = some ⟨s.mem, s.frames.allocate.2⟩ := by
  obtain ⟨f, hf, -⟩ := h.mapped a ha hlt
  exact mapFreshPage_of_mapped h.inOrder.paged.self (by rw [hf]; exact Option.some_ne_none f)

/-- The page behind the range. -/
theorem page_new (h : Covered p4_table reserve s lo hi) (hle : lo ≤ hi)
    (htop : hi + 4096 < 510 * 2^30) (hres : mapFreshPage p4_table s hi = some s')
    (hgood : s'.frames.ran_out ≠ true) (hkept : KeepsMapped p4_table lo s s') :
    Covered p4_table reserve s' lo (hi + 4096) ∧ SameWords p4_table lo hi s s' ∧
      ∃ d, s'.mem.walk p4_table hi = some d ∧ s.frames.Free d := by
  have hpage := h.page
  obtain ⟨d, hfree, hdata, hkeeps, hres'⟩ := h.inOrder.fresh_page hres hgood
  have hsmall := hkeeps.inOrder.small
  have hlt := hdata.lt
  unfold Bitmap.Small at hsmall
  obtain ⟨hkeeps', hnew, hother⟩ := hkeeps.inOrder.mapped (h.window hle h.top) (by omega)
    (h.unmapped hi (le_refl hi) h.top) hres' hgood
  have hmem := hkeeps.inOrder.mapPage_mem (h.window hle h.top) hres' hgood
  have hd := hkeeps'.dataFrame hdata
  have hsame : ∀ a, lo ≤ a → a < hi → s'.mem.walk p4_table a = s.mem.walk p4_table a :=
    fun a ha hlt => hother a (h.window ha (by omega)) (by omega)
  refine ⟨⟨hkeeps'.inOrder, h.bottom, htop, by omega, fun a ha hlt => ?_, fun a ha hlt => ?_⟩,
    fun a ha hlt => ⟨hsame a ha hlt, ?_⟩, d, hnew, hfree⟩
  · by_cases hold : a < hi
    · obtain ⟨f, hf, htable, hge⟩ := h.mapped a ha hold
      exact ⟨f, (hsame a ha hold).trans hf, hkept a f ha (by omega) hf htable, hge⟩
    · exact ⟨d, (walk_congr (by omega)).trans hnew, hd.held.1, hd.ge⟩
  · rw [hother a (h.window (by omega) hlt) (by omega)]
    exact h.unmapped a (by omega) hlt
  · -- The frame is no table, so the call has not written to it.
    obtain ⟨f, hf, htable, -⟩ := h.mapped a ha hlt
    show (s'.mem.walk p4_table a).map _ = (s.mem.walk p4_table a).map _
    rw [hsame a ha hlt, hf, Option.map_some, Option.map_some,
      hmem f (hkept a f ha (by omega) hf htable)]

/-- A store into the range, and what it leaves of the words whose pages do not share the frame. -/
theorem store (h : Covered p4_table reserve s lo hi) {a v : ℕ} (ha : lo ≤ a) (hlt : a < hi)
    (h8 : a % 8 = 0) :
    ∃ s', (kernelMemory p4_table).store s a v = some s' ∧ s'.frames = s.frames ∧
      Covered p4_table reserve s' lo hi ∧
      (∀ b, lo ≤ b → b < hi → s'.mem.walk p4_table b = s.mem.walk p4_table b) ∧
      ∀ b, lo ≤ b → b < hi → b % 8 = 0 →
        (s.mem.walk p4_table b = s.mem.walk p4_table a → b / 4096 = a / 4096) →
        (kernelMemory p4_table).load s' b =
          if b = a then some v else (kernelMemory p4_table).load s b := by
  obtain ⟨f, hf, hnot, -⟩ := h.mapped a ha hlt
  obtain ⟨⟨m, frames⟩, hstore, hmem, hframes, hinOrder, htable, hwalk⟩ :=
    h.inOrder.store (v := v) hf hnot
  dsimp only at hmem hframes htable hwalk
  subst hmem hframes
  have htop := h.top
  have hwalk' : ∀ b, lo ≤ b → b < 510 * 2^30 →
      (s.mem.set f (field a 3) v).walk p4_table b = s.mem.walk p4_table b :=
    fun b hb hltb => hwalk b (h.window hb hltb).ne
  refine ⟨_, hstore, rfl, ⟨hinOrder, h.bottom, htop, h.page, fun b hb hltb => ?_,
    fun b hb hltb => ?_⟩, fun b hb hltb => hwalk' b hb (by omega), fun b hb hltb hb8 hpage => ?_⟩
  · obtain ⟨g, hg, htg, hge⟩ := h.mapped b hb hltb
    exact ⟨g, (hwalk' b hb (by omega)).trans hg, fun ht => htg ((htable g).mp ht), hge⟩
  · by_cases hlo : lo ≤ b
    · rw [hwalk' b hlo hltb]
      exact h.unmapped b hb hltb
    · omega
  · show ((s.mem.set f (field a 3) v).walk p4_table b).map _ =
      if b = a then some v else (s.mem.walk p4_table b).map _
    rw [hwalk' b hb (by omega)]
    split_ifs with heq
    · rw [heq, hf]
      exact congrArg some PhysMem.set_self
    · obtain ⟨g, hg, -⟩ := h.mapped b hb hltb
      rw [hg, Option.map_some, Option.map_some]
      congr 1
      -- Another word of the same frame is of the same page.
      by_cases hgf : g = f
      · subst hgf
        have hsame := hpage (hg.trans hf.symm)
        refine PhysMem.set_other (fun hindex => heq ?_)
        have hidx : b / 2^3 % 512 = a / 2^3 % 512 := congrArg Fin.val hindex
        omega
      · exact congrFun (PhysMem.set_of_ne hgf) _

end Covered

/-! ## The pages of a region -/

/-- `vmm_allocate_area` of one page more. -/
theorem vmmAllocateArea_succ {base i : ℕ} :
    (kernelMemory p4_table).vmmAllocateArea s base ((i + 1) * 4096) =
      ((kernelMemory p4_table).vmmAllocateArea s base (i * 4096)).bind
        (fun t => mapFreshPage p4_table t (addw base (i * 4096))) := by
  have hcount : ∀ k, (k * 4096 + 4096 - 1) / 4096 = k := fun k => by omega
  unfold vmmAllocateArea PAGE_SIZE
  rw [hcount, hcount, List.range_succ, List.foldlM_append]
  refine congrArg _ (funext fun t => ?_)
  show (mapFreshPage p4_table t (addw base (i * 4096))).bind some = _
  exact Option.bind_fun_some _

/-- The allocator has a page for each page of the region that is not mapped yet, and for the tables
that it lacks, and none of these tables is a frame that is mapped. -/
def PagesLast (p4_table lo : ℕ) (s : Paged PhysicalPages) (base size : ℕ) : Prop :=
  ∀ i < size / 4096, ∀ t,
    (kernelMemory p4_table).vmmAllocateArea s base (i * 4096) = some t →
    t.mem.walk p4_table (base + i * 4096) = none →
    ∃ t', mapFreshPage p4_table t (base + i * 4096) = some t' ∧ t'.frames.ran_out ≠ true ∧
      KeepsMapped p4_table lo t t'

/-- The pages of a region that begins in the range or right behind it. Right behind it, the first
page gets a frame that was free. -/
theorem Covered.area (h : Covered p4_table reserve s lo hi) {base size : ℕ} (hlo : lo ≤ base)
    (hhi : base ≤ hi) (hbase : base % 4096 = 0) (hsize : size % 4096 = 0)
    (htop : base + size < 510 * 2^30)
    (hlast : hi < base + size → PagesLast p4_table lo s base size) :
    ∃ s', (kernelMemory p4_table).vmmAllocateArea s base size = some s' ∧
      Covered p4_table reserve s' lo (max hi (base + size)) ∧ SameWords p4_table lo hi s s' ∧
      (base = hi → 0 < size → ∃ d, s'.mem.walk p4_table hi = some d ∧ s.frames.Free d) := by
  have hpage := h.page
  have hloop : ∀ n ≤ size / 4096,
      ∃ t, (kernelMemory p4_table).vmmAllocateArea s base (n * 4096) = some t ∧
        Covered p4_table reserve t lo (max hi (base + n * 4096)) ∧ SameWords p4_table lo hi s t ∧
        (base = hi → 0 < n → ∃ d, t.mem.walk p4_table hi = some d ∧ s.frames.Free d) := by
    intro n
    induction n with
    | zero =>
      intro _
      refine ⟨s, by rw [Nat.zero_mul]; rfl, ?_, fun _ _ _ => ⟨rfl, rfl⟩, fun _ h0 => by omega⟩
      rw [Nat.zero_mul, Nat.add_zero, Nat.max_eq_left hhi]
      exact h
    | succ n ih =>
      intro hn
      obtain ⟨t, ht, hc, hsame, hfirst⟩ := ih (by omega)
      have haddr : addw base (n * 4096) = base + n * 4096 := addw_of_lt (by omega)
      rw [vmmAllocateArea_succ, ht, Option.bind_some, haddr]
      by_cases hin : base + n * 4096 < hi
      · -- The page is of the range already.
        rw [Nat.max_eq_left (by omega)] at hc ⊢
        exact ⟨_, hc.page_again (by omega) (by omega), hc.allocate, hsame,
          fun heq _ => absurd hin (by omega)⟩
      · have hnext : base + (n + 1) * 4096 = base + n * 4096 + 4096 := by omega
        rw [Nat.max_eq_right (by omega)] at hc ⊢
        rw [hnext]
        obtain ⟨t', ht', hgood, hkept⟩ := hlast (by omega) n (by omega) t ht
          (hc.unmapped _ (le_refl _) hc.top)
        have hbelow : base + n * 4096 + 4096 < 510 * 2^30 := by omega
        obtain ⟨hc', hsame', d, hd, hfree⟩ := hc.page_new (by omega) hbelow ht' hgood hkept
        refine ⟨t', ht', hc', fun a ha hlt => ?_, fun heq _ => ?_⟩
        · obtain ⟨hwalk, hload⟩ := hsame a ha hlt
          obtain ⟨hwalk', hload'⟩ := hsame' a ha (by omega)
          exact ⟨hwalk'.trans hwalk, hload'.trans hload⟩
        · rcases Nat.eq_zero_or_pos n with rfl | hpos
          · -- The first page: nothing has been taken before.
            rw [Nat.zero_mul] at ht hd
            obtain rfl := Option.some.inj ht
            exact ⟨d, heq ▸ hd, hfree⟩
          · obtain ⟨g, hg, hfreeg⟩ := hfirst heq hpos
            exact ⟨g, ((hsame' hi (by omega) (by omega)).1).trans hg, hfreeg⟩
  have hcount : size / 4096 * 4096 = size := by omega
  obtain ⟨s', hs', hc, hsame, hfirst⟩ := hloop (size / 4096) (le_refl _)
  rw [hcount] at hs' hc
  exact ⟨s', hs', hc, hsame, fun heq hpos => hfirst heq (by omega)⟩

end Potatos
