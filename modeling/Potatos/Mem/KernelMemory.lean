import Potatos.Mem.PhysicalPages
import Potatos.Mem.RegionList

/-!
# Regions on mapped pages

`vmm.c` on the page tables and the bitmap: its loads and stores go through the hardware walk, and a
page of `vmm_allocate_area` is a frame from `allocate_physical_page` under `map_page`. `Backing`
says that each page of a range of addresses has a frame of its own, which is neither a table nor
free, and that nothing is mapped behind the range. Mapping the next page extends the range, a store
into it changes one word of it, and neither changes what other words of it read as.
-/

namespace Potatos

open Lib

/-- The body of the loop of `vmm_allocate_area`. -/
def mapFreshPage (p4_table : ℕ) (s : Paged PhysicalPages) (virtual_address : ℕ) :
    Option (Paged PhysicalPages) :=
  let (physical_address, frames) := s.frames.allocate
  mapPage PhysicalPages.allocate p4_table { s with frames := frames } virtual_address
    physical_address 3

/-- The memory of the kernel, through its page tables. -/
def kernelMemory (p4_table : ℕ) : RegionMemory (Paged PhysicalPages) where
  load s a := s.mem.load p4_table a
  store s a v := (s.mem.store p4_table a v).map (fun m => { s with mem := m })
  page s a := mapFreshPage p4_table s a

variable {p4_table reserve lo hi : ℕ} {s s' : Paged PhysicalPages} {f : ℕ}

/-! ## Stores outside the tables -/

/-- A store does not call the allocator. -/
theorem store_frames {a v : ℕ} (h : (kernelMemory p4_table).store s a v = some s') :
    s'.frames = s.frames := by
  obtain ⟨m, -, rfl⟩ := Option.map_eq_some_iff.mp h
  rfl

/-- A store into a frame that is not a table. -/
theorem InOrder.setData (h : InOrder p4_table reserve s) {i : Fin 512} {v : ℕ}
    (hf : ¬ s.mem.IsTable p4_table f) :
    InOrder p4_table reserve { s with mem := s.mem.set f i v } ∧
      (∀ x, (s.mem.set f i v).IsTable p4_table x ↔ s.mem.IsTable p4_table x) ∧
      ∀ a, field a 39 ≠ 510 → (s.mem.set f i v).walk p4_table a = s.mem.walk p4_table a := by
  -- No walk steps through the frame.
  have hsame : ∀ n ≤ 3, ∀ x, At (s.mem.tree p4_table) p4_table n x →
      ∀ j, (s.mem.set f i v).tree p4_table x j = s.mem.tree p4_table x j := by
    intro n hn x hx j
    have hne : x ≠ f := fun heq => hf ⟨n, hn, heq ▸ hx⟩
    rw [PhysMem.tree, PhysMem.tree, PhysMem.next_congr (congrFun (PhysMem.set_of_ne hne) j)]
  have hat : ∀ {n x}, n ≤ 3 →
      (At ((s.mem.set f i v).tree p4_table) p4_table n x ↔ At (s.mem.tree p4_table) p4_table n x) :=
    fun hn => at_of_tables hsame (by omega)
  have htable : ∀ x, (s.mem.set f i v).IsTable p4_table x ↔ s.mem.IsTable p4_table x :=
    fun x => exists_congr (fun n => and_congr_right (fun hn => hat hn))
  have hroot : p4_table ≠ f := fun heq => hf ⟨0, by omega, at_zero.mpr heq.symm⟩
  have hpaged : (s.mem.set f i v).WellPaged p4_table := by
    refine ⟨?_, fun m n x hm hn hxm hxn => ?_⟩
    · rw [PhysMem.next_congr (congrFun (PhysMem.set_of_ne hroot) _)]
      exact h.paged.self
    · exact h.paged.layered m n x hm hn ((hat hm).mp hxm) ((hat hn).mp hxn)
  exact ⟨⟨hpaged, h.noAlias.congr (fun p hp => descend_of_tables hsame (by omega)), h.small,
    fun x hx => h.tables x ((htable x).mp hx), h.reserved, h.pos⟩, htable,
    fun a ha => h.paged.walk_set hf ha⟩

/-- The store at an address whose page is not a table. -/
theorem InOrder.store (h : InOrder p4_table reserve s) {a v : ℕ}
    (hf : s.mem.walk p4_table a = some f) (hnot : ¬ s.mem.IsTable p4_table f) :
    ∃ s', (kernelMemory p4_table).store s a v = some s' ∧ s'.mem = s.mem.set f (field a 3) v ∧
      s'.frames = s.frames ∧ InOrder p4_table reserve s' ∧
      (∀ x, s'.mem.IsTable p4_table x ↔ s.mem.IsTable p4_table x) ∧
      ∀ b, field b 39 ≠ 510 → s'.mem.walk p4_table b = s.mem.walk p4_table b := by
  refine ⟨⟨s.mem.set f (field a 3) v, s.frames⟩, ?_, rfl, rfl, h.setData hnot⟩
  show ((s.mem.walk p4_table a).map _).map _ = _
  rw [hf]
  rfl

/-! ## The allocator during a call -/

theorem mapFreshPage_frames {a : ℕ} (h : mapFreshPage p4_table s a = some s') :
    PhysicalPages.Calls s.frames s'.frames :=
  .head rfl (mapPage_frames h)

/-- The page is mapped to a frame that was free. -/
theorem InOrder.fresh_page {a : ℕ} (h : InOrder p4_table reserve s)
    (hres : mapFreshPage p4_table s a = some s') (hgood : s'.frames.ran_out ≠ true) :
    ∃ d, s.frames.Free d ∧ DataFrame p4_table reserve ⟨s.mem, s.frames.allocate.2⟩ d ∧
      Keeps p4_table reserve s ⟨s.mem, s.frames.allocate.2⟩ ∧
      mapPage PhysicalPages.allocate p4_table ⟨s.mem, s.frames.allocate.2⟩ a (d * 4096) 3 =
        some s' := by
  obtain ⟨d, haddr, hfree, hdata, hkeeps⟩ :=
    h.take (fun hout => hgood (PhysicalPages.ran_out_of_calls (mapPage_frames hres) hout))
  exact ⟨d, hfree, hdata, hkeeps, haddr ▸ hres⟩

/-- A call of `vmm_allocate` calls the allocator some number of times. -/
theorem vmmAllocate_frames {fuel vm_root n p : ℕ}
    (h : (kernelMemory p4_table).vmmAllocate fuel s vm_root n = some (p, s')) :
    PhysicalPages.Calls s.frames s'.frames := by
  have hcalls : (kernelMemory p4_table).Related
      (fun s s' => PhysicalPages.Calls s.frames s'.frames) := by
    refine ⟨fun _ => .refl, fun _ _ _ => .trans, fun s a v s' hs => ?_,
      fun _ _ _ hs => mapFreshPage_frames hs⟩
    obtain ⟨m, -, rfl⟩ := Option.map_eq_some_iff.mp hs
    exact .refl
  exact hcalls.vmmAllocate h

/-! ## Ranges of mapped pages -/

/-- Each page from `lo` up to `hi` has a data frame of its own, and nothing from `hi` up to 510 GiB
is mapped. -/
structure Backing (p4_table reserve : ℕ) (s : Paged PhysicalPages) (lo hi : ℕ) : Prop where
  inOrder : InOrder p4_table reserve s
  bottom : 2^30 ≤ lo
  top : hi < 510 * 2^30
  page : hi % 4096 = 0
  mapped : ∀ a, lo ≤ a → a < hi →
    ∃ f, s.mem.walk p4_table a = some f ∧ DataFrame p4_table reserve s f
  apart : ∀ a b f, lo ≤ a → a < hi → lo ≤ b → b < hi → s.mem.walk p4_table a = some f →
    s.mem.walk p4_table b = some f → a / 4096 = b / 4096
  unmapped : ∀ a, hi ≤ a → a < 510 * 2^30 → s.mem.walk p4_table a = none

/-- Addresses of one page are translated alike. -/
theorem walk_congr {m : PhysMem} {a b : ℕ} (h : a / 4096 = b / 4096) :
    m.walk p4_table a = m.walk p4_table b := by
  have hfield : ∀ k, field a (12 + k) = field b (12 + k) := by
    intro k
    have hpow : (2 : ℕ)^(12 + k) = 4096 * 2^k := by rw [pow_add]; norm_num
    apply field_eq
    rw [field_val, hpow, ← Nat.div_div_eq_div_mul, ← Nat.div_div_eq_div_mul, h]
  have h39 := hfield 27
  have h30 := hfield 18
  have h21 := hfield 9
  have h12 := hfield 0
  simp only [Nat.reduceAdd] at h39 h30 h21 h12
  rw [PhysMem.walk, PhysMem.walk, h39, h30, h21, h12]

namespace Backing

/-- Frames that are held stay so when only the bitmap changes. -/
theorem of_keeps (h : Backing p4_table reserve s lo hi) (hk : Keeps p4_table reserve s s')
    (hmem : s'.mem = s.mem) : Backing p4_table reserve s' lo hi := by
  refine ⟨hk.inOrder, h.bottom, h.top, h.page, fun a ha hlt => ?_, ?_, ?_⟩
  · obtain ⟨f, hf, hdata⟩ := h.mapped a ha hlt
    exact ⟨f, hmem ▸ hf, hk.dataFrame hdata⟩
  · rw [hmem]
    exact h.apart
  · rw [hmem]
    exact h.unmapped

/-- `map_page` of the page behind the range, to a data frame that the range does not have. -/
theorem extend (h : Backing p4_table reserve s lo hi) (htop : hi + 4096 < 510 * 2^30)
    (hle : lo ≤ hi) {d : ℕ} (hd : DataFrame p4_table reserve s d)
    (hfresh : ∀ a, lo ≤ a → a < hi → s.mem.walk p4_table a ≠ some d)
    (hres : mapPage PhysicalPages.allocate p4_table s hi (d * 4096) 3 = some s')
    (hgood : s'.frames.ran_out ≠ true) :
    Backing p4_table reserve s' lo (hi + 4096) ∧ Keeps p4_table reserve s s' ∧
      s'.mem.walk p4_table hi = some d ∧
      ∀ a, lo ≤ a → a < hi → s'.mem.walk p4_table a = s.mem.walk p4_table a := by
  have hwindow : ∀ a, lo ≤ a → a < 510 * 2^30 → InWindow a :=
    fun a ha htop => ⟨le_trans h.bottom ha, htop⟩
  have hsmall := h.inOrder.small
  have hlt := hd.lt
  unfold Bitmap.Small at hsmall
  obtain ⟨hkeeps, hnew, hother⟩ := h.inOrder.mapped (hwindow hi hle (by omega)) (by omega)
    (h.unmapped hi (le_refl hi) (by omega)) hres hgood
  have hpage := h.page
  have hnewpage : ∀ a, a / 4096 = hi / 4096 → s'.mem.walk p4_table a = some d :=
    fun a ha => (walk_congr ha).trans hnew
  have hsame : ∀ a, lo ≤ a → a < hi → s'.mem.walk p4_table a = s.mem.walk p4_table a :=
    fun a ha hlt => hother a (hwindow a ha (by omega)) (by omega)
  -- An address of the longer range is of the old range or of the new page.
  refine ⟨⟨hkeeps.inOrder, h.bottom, htop, by omega, fun a ha hlt => ?_, ?_, fun a ha hlt => ?_⟩,
    hkeeps, hnew, hsame⟩
  · by_cases hold : a < hi
    · obtain ⟨f, hf, hdf⟩ := h.mapped a ha hold
      exact ⟨f, (hsame a ha hold).trans hf, hkeeps.dataFrame hdf⟩
    · exact ⟨d, hnewpage a (by omega), hkeeps.dataFrame hd⟩
  · -- Two addresses with one frame: both old, both new, or the frame of the new page is not fresh.
    intro a b f ha hlta hb hltb hwa hwb
    by_cases holda : a < hi
    · rw [hsame a ha holda] at hwa
      by_cases holdb : b < hi
      · rw [hsame b hb holdb] at hwb
        exact h.apart a b f ha holda hb holdb hwa hwb
      · rw [hnewpage b (by omega)] at hwb
        obtain rfl := Option.some.inj hwb
        exact absurd hwa (hfresh a ha holda)
    · by_cases holdb : b < hi
      · rw [hsame b hb holdb] at hwb
        rw [hnewpage a (by omega)] at hwa
        obtain rfl := Option.some.inj hwa
        exact absurd hwb (hfresh b hb holdb)
      · omega
  · have hne : a / 4096 ≠ hi / 4096 := by omega
    rw [hother a (hwindow a (by omega) hlt) hne]
    exact h.unmapped a (by omega) hlt

/-- A free frame is not in the range. -/
theorem walk_ne_of_free (h : Backing p4_table reserve s lo hi) {d a : ℕ} (hd : s.frames.Free d)
    (ha : lo ≤ a) (hlt : a < hi) : s.mem.walk p4_table a ≠ some d := by
  intro hwalk
  obtain ⟨f, hf, hdata⟩ := h.mapped a ha hlt
  obtain rfl := Option.some.inj (hf.symm.trans hwalk)
  exact hdata.held.2 hd

/-- The page behind the range mapped by `vmm_allocate_area`. -/
theorem page_mapped (h : Backing p4_table reserve s lo hi) (htop : hi + 4096 < 510 * 2^30)
    (hle : lo ≤ hi) (hres : mapFreshPage p4_table s hi = some s')
    (hgood : s'.frames.ran_out ≠ true) :
    Backing p4_table reserve s' lo (hi + 4096) ∧ Keeps p4_table reserve s s' ∧
      ∀ a, lo ≤ a → a < hi → s'.mem.walk p4_table a = s.mem.walk p4_table a := by
  obtain ⟨d, hfree, hdata, hkeeps, hres'⟩ := h.inOrder.fresh_page hres hgood
  obtain ⟨hback, hkeeps', -, hsame⟩ := (h.of_keeps hkeeps rfl).extend htop hle hdata
    (fun a ha hlt => h.walk_ne_of_free hfree ha hlt) hres' hgood
  exact ⟨hback, hkeeps.trans hkeeps', hsame⟩

/-- Four free pages are enough for a page behind the range. -/
theorem page_total (h : Backing p4_table reserve s lo hi) (hle : lo ≤ hi) {n : ℕ}
    (henough : s.frames.Enough (n + 4)) :
    ∃ s', mapFreshPage p4_table s hi = some s' ∧ s'.frames.Enough n := by
  have htaken := henough.allocate h.inOrder.small
  obtain ⟨d, haddr, -, -, hkeeps⟩ := h.inOrder.take htaken.1
  have hwindow : InWindow hi := ⟨le_trans h.bottom hle, h.top⟩
  exact hkeeps.inOrder.mapPage_total s.frames.allocate.1 hwindow (Nat.zero_le 3)
    (Option.some_ne_none _) htaken

/-- A word of the range is in its page's frame. -/
theorem load (h : Backing p4_table reserve s lo hi) {a : ℕ} (ha : lo ≤ a) (hlt : a < hi) :
    ∃ f, s.mem.walk p4_table a = some f ∧ DataFrame p4_table reserve s f ∧
      (kernelMemory p4_table).load s a = some (s.mem f (field a 3)) := by
  obtain ⟨f, hf, hdata⟩ := h.mapped a ha hlt
  refine ⟨f, hf, hdata, ?_⟩
  show (s.mem.walk p4_table a).map _ = _
  rw [hf]
  rfl

/-- Where the walks and the held frames stay, the words of the range read as before. -/
theorem load_congr (h : Backing p4_table reserve s lo hi) (hk : Keeps p4_table reserve s s')
    (hw : ∀ a, lo ≤ a → a < hi → s'.mem.walk p4_table a = s.mem.walk p4_table a) {a : ℕ}
    (ha : lo ≤ a) (hlt : a < hi) :
    (kernelMemory p4_table).load s' a = (kernelMemory p4_table).load s a := by
  obtain ⟨f, hf, hdata, hload⟩ := h.load ha hlt
  rw [hload]
  show (s'.mem.walk p4_table a).map _ = _
  rw [hw a ha hlt, hf, Option.map_some, (hk.held f hdata.held).2]

/-- A store into the range. -/
theorem store (h : Backing p4_table reserve s lo hi) {a v : ℕ} (ha : lo ≤ a) (hlt : a < hi)
    (h8 : a % 8 = 0) :
    ∃ s', (kernelMemory p4_table).store s a v = some s' ∧ s'.frames = s.frames ∧
      Backing p4_table reserve s' lo hi ∧
      (kernelMemory p4_table).load s' a = some v ∧
      ∀ b, lo ≤ b → b < hi → b % 8 = 0 → b ≠ a →
        (kernelMemory p4_table).load s' b = (kernelMemory p4_table).load s b := by
  obtain ⟨f, hf, hdata⟩ := h.mapped a ha hlt
  obtain ⟨⟨m, frames⟩, hstore, hmem, hframes, hinOrder, htable, hwalk⟩ :=
    h.inOrder.store (v := v) hf hdata.held.1
  dsimp only at hmem hframes htable hwalk
  subst hmem hframes
  have htop := h.top
  have hbottom := h.bottom
  have hwalk' : ∀ b, lo ≤ b → b < 510 * 2^30 →
      (s.mem.set f (field a 3) v).walk p4_table b = s.mem.walk p4_table b := by
    intro b hb hltb
    have hwindow : InWindow b := ⟨by omega, hltb⟩
    exact hwalk b hwindow.ne
  refine ⟨_, hstore, rfl, ⟨hinOrder, hbottom, htop, h.page, fun b hb hltb => ?_, ?_,
    fun b hb hltb => ?_⟩, ?_, fun b hb hltb hb8 hne => ?_⟩
  · obtain ⟨g, hg, hdg⟩ := h.mapped b hb hltb
    exact ⟨g, (hwalk' b hb (by omega)).trans hg,
      ⟨fun ht => hdg.held.1 ((htable g).mp ht), hdg.held.2⟩, hdg.lt, hdg.ge⟩
  · intro b c g hb hltb hc hltc hwb hwc
    rw [hwalk' b hb (by omega)] at hwb
    rw [hwalk' c hc (by omega)] at hwc
    exact h.apart b c g hb hltb hc hltc hwb hwc
  · by_cases hlo : lo ≤ b
    · rw [hwalk' b hlo hltb]
      exact h.unmapped b hb hltb
    · omega
  · show ((s.mem.set f (field a 3) v).walk p4_table a).map _ = _
    rw [hwalk' a ha (by omega), hf]
    exact congrArg some PhysMem.set_self
  · show ((s.mem.set f (field a 3) v).walk p4_table b).map _ = (s.mem.walk p4_table b).map _
    rw [hwalk' b hb (by omega)]
    obtain ⟨g, hg, -⟩ := h.mapped b hb hltb
    rw [hg, Option.map_some, Option.map_some]
    congr 1
    -- another word of the same frame is of the same page
    by_cases hgf : g = f
    · subst hgf
      have hpage := h.apart a b g ha hlt hb hltb hf hg
      refine PhysMem.set_other (fun heq => hne ?_)
      have hidx : b / 2^3 % 512 = a / 2^3 % 512 := congrArg Fin.val heq
      omega
    · exact congrFun (PhysMem.set_of_ne hgf) _

/-- A store into the range changes no walk, and makes no table. -/
theorem store_walk (h : Backing p4_table reserve s lo hi) {a v : ℕ} (ha : lo ≤ a) (hlt : a < hi)
    (hs : (kernelMemory p4_table).store s a v = some s') :
    (∀ b, field b 39 ≠ 510 → s'.mem.walk p4_table b = s.mem.walk p4_table b) ∧
      ∀ x, Held p4_table s x → Held p4_table s' x := by
  obtain ⟨f, hf, hdata⟩ := h.mapped a ha hlt
  obtain ⟨_, hstore, -, hframes, -, htable, hwalk⟩ := h.inOrder.store (v := v) hf hdata.held.1
  obtain rfl := Option.some.inj (hs.symm.trans hstore)
  exact ⟨hwalk, fun x hx => ⟨fun ht => hx.1 ((htable x).mp ht), hframes ▸ hx.2⟩⟩

end Backing

end Potatos
