import Potatos.Mem.BootTables
import Potatos.Mem.Pmm

/-!
# Page tables from the bitmap

`map_page` with `allocate_physical_page` of `bitmap.c` as its allocator. `InOrder` is what relates
the two: no table is a frame that the bitmap would hand out, and the tables of the addresses between
1 GiB and 510 GiB are not shared, though the boot tables share those at both ends of `p3_table`. As
long as the allocator does not run out, `map_page` keeps this (`InOrder.mapped`), maps the one page,
and leaves alone the frames that are neither tables nor free.

The bytes of the bitmap are kept apart from the frames: `init_bitmap` reaches them through the boot
tables, which map 4 MiB, and so they lie in the reserve.
-/

namespace Potatos

open Lib

/-- The bitmap, and whether a call of `allocate_physical_page` found no free page. -/
structure PhysicalPages where
  bitmap : Bitmap
  ran_out : Bool

namespace PhysicalPages

/-- `allocate_physical_page`. -/
def allocate (frames : PhysicalPages) : ℕ × PhysicalPages :=
  let (page, bitmap) := frames.bitmap.allocatePhysicalPage
  (page, ⟨bitmap, frames.ran_out || frames.bitmap.freePage.isNone⟩)

/-- The bitmap would hand out the frame. -/
def Free (frames : PhysicalPages) (f : ℕ) : Prop :=
  f < frames.bitmap.total_pages ∧ frames.bitmap.isPageFree f = true

/-- Some number of calls. -/
def Calls : PhysicalPages → PhysicalPages → Prop :=
  Relation.ReflTransGen (fun x y => x.allocate.2 = y)

variable {frames frames' : PhysicalPages}

theorem ran_out_allocate (h : frames.ran_out = true) : frames.allocate.2.ran_out = true := by
  show (frames.ran_out || _) = true
  rw [h]
  rfl

/-- What ran out stays so. -/
theorem ran_out_of_calls (h : Calls frames frames') (hout : frames.ran_out = true) :
    frames'.ran_out = true := by
  induction h with
  | refl => exact hout
  | tail _ hstep ih => exact hstep ▸ ran_out_allocate ih

theorem total_pages_allocate :
    frames.allocate.2.bitmap.total_pages = frames.bitmap.total_pages :=
  Bitmap.allocate_total_pages

theorem Free.lt {f : ℕ} (hf : frames.Free f) (hb : frames.bitmap.Small) : f < 2^40 := by
  have hlt := hf.1
  unfold Bitmap.Small at hb
  omega

/-- A search that ends at a frame takes it. -/
theorem allocate_of_some (hb : frames.bitmap.Small) {f : ℕ}
    (hf : frames.bitmap.freePage = some f) :
    frames.Free f ∧ frames.allocate.1 = f * 4096 ∧
      ∀ x, frames.allocate.2.Free x ↔ frames.Free x ∧ x ≠ f := by
  obtain ⟨hlt, hbit, -⟩ := Bitmap.freePage_eq_some.mp hf
  have hpage : frames.allocate.1 = 4096 * f :=
    congrArg Prod.fst (Bitmap.allocatePhysicalPage_of_some hb hf)
  refine ⟨⟨hlt, hbit⟩, by omega, fun x => ?_⟩
  have hbits : frames.allocate.2.bitmap.isPageFree x = true ↔
      frames.bitmap.isPageFree x = true ∧ x ≠ f := Bitmap.isPageFree_allocate hb hf
  unfold Free
  rw [total_pages_allocate, hbits, and_assoc]

/-- A call that does not run out returns a free frame, which is then used. -/
theorem allocate_spec (hb : frames.bitmap.Small) (h : frames.allocate.2.ran_out ≠ true) :
    ∃ f, frames.Free f ∧ frames.allocate.1 = f * 4096 ∧
      ∀ x, frames.allocate.2.Free x ↔ frames.Free x ∧ x ≠ f := by
  have hfree : frames.bitmap.freePage ≠ none := by
    intro hnone
    apply h
    show (frames.ran_out || frames.bitmap.freePage.isNone) = true
    rw [hnone, Bool.or_comm]
    rfl
  obtain ⟨f, hf⟩ := Option.ne_none_iff_exists'.mp hfree
  exact ⟨f, allocate_of_some hb hf⟩

/-- Calls only take pages. -/
theorem free_of_allocate (hb : frames.bitmap.Small) {f : ℕ} (h : frames.allocate.2.Free f) :
    frames.Free f := by
  obtain ⟨hlt, hfree⟩ := h
  rw [total_pages_allocate] at hlt
  refine ⟨hlt, ?_⟩
  cases hpage : frames.bitmap.freePage with
  | none =>
    have hsame : frames.allocate.2.bitmap = frames.bitmap :=
      congrArg Prod.snd (Bitmap.allocatePhysicalPage_of_none hpage)
    exact hsame ▸ hfree
  | some k => exact ((Bitmap.isPageFree_allocate hb hpage).mp hfree).1

theorem small_allocate (hb : frames.bitmap.Small) : frames.allocate.2.bitmap.Small := by
  unfold Bitmap.Small
  rw [total_pages_allocate]
  exact hb

theorem free_of_calls (h : Calls frames frames') (hb : frames.bitmap.Small) :
    frames'.bitmap.Small ∧ ∀ f, frames'.Free f → frames.Free f := by
  induction h with
  | refl => exact ⟨hb, fun _ hf => hf⟩
  | tail _ hstep ih =>
    obtain ⟨hsmall, hfree⟩ := ih
    subst hstep
    exact ⟨small_allocate hsmall, fun f hf => hfree f (free_of_allocate hsmall hf)⟩

/-! ## How many pages are free -/

/-- The free frames. -/
def freeFrames (frames : PhysicalPages) : Finset ℕ :=
  (Finset.range frames.bitmap.total_pages).filter (fun f => frames.bitmap.isPageFree f = true)

theorem mem_freeFrames {f : ℕ} : f ∈ frames.freeFrames ↔ frames.Free f := by
  unfold freeFrames Free
  rw [Finset.mem_filter, Finset.mem_range]

/-- With a free frame the search ends at one. -/
theorem exists_freePage (h : frames.freeFrames.Nonempty) :
    ∃ f, frames.bitmap.freePage = some f := by
  obtain ⟨x, hx⟩ := h
  obtain ⟨hlt, hbit⟩ := mem_freeFrames.mp hx
  apply Option.ne_none_iff_exists'.mp
  intro hnone
  rw [Bitmap.freePage_eq_none.mp hnone x hlt] at hbit
  cases hbit

theorem freeFrames_erase {f : ℕ} (h : ∀ x, frames'.Free x ↔ frames.Free x ∧ x ≠ f) :
    frames'.freeFrames = frames.freeFrames.erase f := by
  ext x
  rw [mem_freeFrames, h, Finset.mem_erase, mem_freeFrames, and_comm]

/-- The allocator did not run out, and at least `n` pages are free. -/
def Enough (n : ℕ) (frames : PhysicalPages) : Prop :=
  frames.ran_out ≠ true ∧ n ≤ frames.freeFrames.card

theorem Enough.less {n k : ℕ} (h : Enough k frames) (hk : n ≤ k) : Enough n frames :=
  ⟨h.1, le_trans hk h.2⟩

/-- A call that does not run out takes one free page. -/
theorem card_allocate (hb : frames.bitmap.Small) (hgood : frames.allocate.2.ran_out ≠ true) :
    frames.allocate.2.freeFrames.card + 1 = frames.freeFrames.card := by
  obtain ⟨f, hf, -, hfree⟩ := allocate_spec hb hgood
  rw [freeFrames_erase hfree, Finset.card_erase_add_one (mem_freeFrames.mpr hf)]

theorem card_of_calls (h : Calls frames frames') (hb : frames.bitmap.Small) :
    frames'.freeFrames.card ≤ frames.freeFrames.card :=
  Finset.card_le_card (fun f hf =>
    mem_freeFrames.mpr ((free_of_calls h hb).2 f (mem_freeFrames.mp hf)))

theorem Enough.allocate {n : ℕ} (h : Enough (n + 1) frames) (hb : frames.bitmap.Small) :
    Enough n frames.allocate.2 := by
  obtain ⟨hout, hcard⟩ := h
  obtain ⟨k, hk⟩ := exists_freePage (Finset.card_pos.mp (by omega : 0 < frames.freeFrames.card))
  have hgood : frames.allocate.2.ran_out ≠ true := by
    show (frames.ran_out || frames.bitmap.freePage.isNone) ≠ true
    rw [hk, Bool.or_comm]
    exact hout
  have hone := card_allocate hb hgood
  exact ⟨hgood, by omega⟩

/-- Marking a page used takes it from the free ones. -/
theorem free_setPageUsed (hb : frames.bitmap.Small) {d x : ℕ} {out : Bool} :
    Free ⟨frames.bitmap.setPageUsed d, out⟩ x ↔ frames.Free x ∧ x ≠ d := by
  have htotal := Bitmap.setPageUsed_total_pages (b := frames.bitmap) d
  unfold Free
  dsimp only
  rw [htotal, Bitmap.isPageFree_setPageUsed hb]
  constructor
  · rintro ⟨hlt, hfree⟩
    split at hfree
    · cases hfree
    · rename_i hne
      exact ⟨⟨hlt, hfree⟩, fun h => hne ⟨h, h ▸ hlt⟩⟩
  · rintro ⟨⟨hlt, hfree⟩, hne⟩
    exact ⟨hlt, (if_neg (fun h => hne h.1)).trans hfree⟩

/-- Giving a page back frees no other one. -/
theorem free_of_setPageFree (hb : frames.bitmap.Small) {d x : ℕ} {out : Bool}
    (h : Free ⟨frames.bitmap.setPageFree d, out⟩ x) (hne : x ≠ d) : frames.Free x := by
  obtain ⟨hlt, hfree⟩ := h
  rw [Bitmap.setPageFree_total_pages] at hlt
  rw [Bitmap.isPageFree_setPageFree hb, if_neg (fun heq => hne heq.1)] at hfree
  exact ⟨hlt, hfree⟩

theorem freeFrames_setPageUsed (hb : frames.bitmap.Small) {d : ℕ} {out : Bool} :
    freeFrames ⟨frames.bitmap.setPageUsed d, out⟩ = frames.freeFrames.erase d :=
  freeFrames_erase (fun _ => free_setPageUsed hb)

/-- Marking a page that is not free takes none. -/
theorem Enough.use {n d : ℕ} (h : Enough n frames) (hb : frames.bitmap.Small)
    (hd : ¬ frames.Free d) : Enough n { frames with bitmap := frames.bitmap.setPageUsed d } := by
  refine ⟨h.1, ?_⟩
  rw [freeFrames_setPageUsed hb, Finset.erase_eq_of_notMem (fun h => hd (mem_freeFrames.mp h))]
  exact h.2

/-- Without a free page a call returns 0, and takes none. -/
theorem allocate_of_empty (h : frames.freeFrames = ∅) :
    frames.allocate = (0, ⟨frames.bitmap, true⟩) := by
  have hnone : frames.bitmap.freePage = none := by
    apply Bitmap.freePage_eq_none.mpr
    intro x hx
    by_contra hfree
    have hmem := mem_freeFrames.mpr ⟨hx, by simpa using hfree⟩
    rw [h] at hmem
    exact absurd hmem (Finset.notMem_empty x)
  have hout : (frames.ran_out || frames.bitmap.freePage.isNone) = true := by
    rw [hnone, Bool.or_comm]
    rfl
  unfold allocate
  rw [hout, Bitmap.allocatePhysicalPage_of_none hnone]

/-- With a free page a call returns one, and takes it. -/
theorem allocate_of_nonempty (hb : frames.bitmap.Small) (h : frames.freeFrames.Nonempty) :
    ∃ f, frames.Free f ∧ frames.allocate.1 = f * 4096 ∧
      ∀ x, frames.allocate.2.Free x ↔ frames.Free x ∧ x ≠ f := by
  obtain ⟨f, hf⟩ := exists_freePage h
  exact ⟨f, allocate_of_some hb hf⟩

/-- What a call returns is a free frame, or frame 0. -/
theorem allocate_free_or_zero (hb : frames.bitmap.Small) :
    ∃ f, frames.allocate.1 = f * 4096 ∧ f < 2^40 ∧ (f = 0 ∨ frames.Free f) := by
  rcases Finset.eq_empty_or_nonempty frames.freeFrames with hnone | hsome
  · have haddr : frames.allocate.1 = 0 := congrArg Prod.fst (allocate_of_empty hnone)
    exact ⟨0, haddr.trans (Nat.zero_mul 4096).symm, by norm_num, Or.inl rfl⟩
  · obtain ⟨f, hf, haddr, -⟩ := allocate_of_nonempty hb hsome
    exact ⟨f, haddr, hf.lt hb, Or.inr hf⟩

end PhysicalPages

/-! ## The order of tables and frames -/

/-- The first indices of the addresses from 1 GiB up to 510 GiB. -/
def Window (p : List (Fin 512)) : Prop :=
  (∀ a ∈ p[0]?, a = 0) ∧ ∀ b ∈ p[1]?, b ≠ 0 ∧ b ≠ 510

theorem window_prefix {p : List (Fin 512)} {i : Fin 512} (h : Window (p ++ [i])) : Window p :=
  ⟨fun a ha => h.1 a (List.getElem?_append_left (List.getElem?_eq_some_iff.mp ha).1 ▸ ha),
    fun b hb => h.2 b (List.getElem?_append_left (List.getElem?_eq_some_iff.mp hb).1 ▸ hb)⟩

/-- No table is free, the frames below `reserve` are not free, and the tables between 1 GiB and
510 GiB have one path each. -/
structure InOrder (p4_table reserve : ℕ) (s : Paged PhysicalPages) : Prop where
  paged : s.mem.WellPaged p4_table
  noAlias : NoAlias (s.mem.tree p4_table) p4_table Window 3
  small : s.frames.bitmap.Small
  tables : ∀ f, s.mem.IsTable p4_table f → ¬ s.frames.Free f
  reserved : ∀ f < reserve, ¬ s.frames.Free f
  pos : 0 < reserve

/-- The frame is neither a table nor free. -/
def Held (p4_table : ℕ) (s : Paged PhysicalPages) (f : ℕ) : Prop :=
  ¬ s.mem.IsTable p4_table f ∧ ¬ s.frames.Free f

/-- What the functions that map pages leave as it is: the order, and the frames that are held. -/
structure Keeps (p4_table reserve : ℕ) (s s' : Paged PhysicalPages) : Prop where
  inOrder : InOrder p4_table reserve s'
  total : s'.frames.bitmap.total_pages = s.frames.bitmap.total_pages
  held : ∀ f, Held p4_table s f → Held p4_table s' f ∧ s'.mem f = s.mem f

variable {p4_table reserve : ℕ} {s s' s'' : Paged PhysicalPages} {f : ℕ}

theorem made_calls (h : Relation.ReflTransGen (Made PhysicalPages.allocate p4_table) s s') :
    PhysicalPages.Calls s.frames s'.frames := by
  induction h with
  | refl => exact .refl
  | tail _ hstep ih =>
    exact ih.tail hstep.frames

theorem Keeps.refl (h : InOrder p4_table reserve s) : Keeps p4_table reserve s s :=
  ⟨h, rfl, fun _ hf => ⟨hf, rfl⟩⟩

theorem Keeps.trans (h : Keeps p4_table reserve s s') (h' : Keeps p4_table reserve s' s'') :
    Keeps p4_table reserve s s'' := by
  refine ⟨h'.inOrder, h'.total.trans h.total, fun f hf => ?_⟩
  obtain ⟨hf', hmem⟩ := h.held f hf
  obtain ⟨hf'', hmem'⟩ := h'.held f hf'
  exact ⟨hf'', hmem'.trans hmem⟩

/-- A frame that holds data of the kernel: no table, not free, and not in the reserve. -/
structure DataFrame (p4_table reserve : ℕ) (s : Paged PhysicalPages) (f : ℕ) : Prop where
  held : Held p4_table s f
  lt : f < s.frames.bitmap.total_pages
  ge : reserve ≤ f

theorem Keeps.dataFrame (h : Keeps p4_table reserve s s') (hf : DataFrame p4_table reserve s f) :
    DataFrame p4_table reserve s' f :=
  ⟨(h.held f hf.held).1, h.total ▸ hf.lt, hf.ge⟩

namespace InOrder

/-- A frame that the allocator returns can become a table. -/
theorem freshFrame (h : InOrder p4_table reserve s) (hgood : s.frames.allocate.2.ran_out ≠ true) :
    s.mem.FreshFrame p4_table s.frames.allocate.1 := by
  obtain ⟨g, hg, haddr, -⟩ := PhysicalPages.allocate_spec h.small hgood
  have hpos : 0 < g := by
    rcases Nat.eq_zero_or_pos g with rfl | hpos
    · exact absurd hg (h.reserved 0 h.pos)
    · exact hpos
  exact ⟨g, haddr, hpos, hg.lt h.small, fun ht => h.tables g ht hg⟩

/-- Taking a frame for data. -/
theorem take (h : InOrder p4_table reserve s) (hgood : s.frames.allocate.2.ran_out ≠ true) :
    ∃ d, s.frames.allocate.1 = d * 4096 ∧ s.frames.Free d ∧
      DataFrame p4_table reserve ⟨s.mem, s.frames.allocate.2⟩ d ∧
      Keeps p4_table reserve s ⟨s.mem, s.frames.allocate.2⟩ := by
  obtain ⟨d, hd, haddr, hfree⟩ := PhysicalPages.allocate_spec h.small hgood
  have htotal : s.frames.allocate.2.bitmap.total_pages = s.frames.bitmap.total_pages :=
    PhysicalPages.total_pages_allocate
  have hsmall := PhysicalPages.small_allocate h.small
  have hge : reserve ≤ d := by
    by_contra hlt
    exact h.reserved d (by omega) hd
  refine ⟨d, haddr, hd, ⟨⟨fun ht => h.tables d ht hd, fun hx => ((hfree d).mp hx).2 rfl⟩,
    htotal ▸ hd.1, hge⟩, ?_, htotal, fun f hf => ⟨⟨hf.1, fun hx => hf.2 ((hfree f).mp hx).1⟩, rfl⟩⟩
  exact ⟨h.paged, h.noAlias, hsmall, fun f hf hx => h.tables f hf ((hfree f).mp hx).1,
    fun f hf hx => h.reserved f hf ((hfree f).mp hx).1, h.pos⟩

/-- Marking a page used. -/
theorem use (h : InOrder p4_table reserve s) (d : ℕ) :
    Keeps p4_table reserve s
      { s with frames := { s.frames with bitmap := s.frames.bitmap.setPageUsed d } } := by
  have htotal := Bitmap.setPageUsed_total_pages (b := s.frames.bitmap) d
  have hold : ∀ f, PhysicalPages.Free ⟨s.frames.bitmap.setPageUsed d, s.frames.ran_out⟩ f →
      s.frames.Free f := fun f hf => ((PhysicalPages.free_setPageUsed h.small).mp hf).1
  exact ⟨⟨h.paged, h.noAlias, h.small.setPageUsed d, fun f hf hx => h.tables f hf (hold f hx),
    fun f hf hx => h.reserved f hf (hold f hx), h.pos⟩, htotal,
    fun f hf => ⟨⟨hf.1, fun hx => hf.2 (hold f hx)⟩, rfl⟩⟩

/-- Giving back a frame that is no table and not in the reserve. -/
theorem giveBack (h : InOrder p4_table reserve s) (hnot : ¬ s.mem.IsTable p4_table f)
    (hge : reserve ≤ f) :
    InOrder p4_table reserve
      ⟨s.mem, ⟨s.frames.bitmap.setPageFree f, s.frames.ran_out⟩⟩ := by
  have hold : ∀ x, PhysicalPages.Free ⟨s.frames.bitmap.setPageFree f, s.frames.ran_out⟩ x →
      x ≠ f → s.frames.Free x := fun x => PhysicalPages.free_of_setPageFree h.small
  exact ⟨h.paged, h.noAlias, h.small.congr (Bitmap.setPageFree_total_pages f),
    fun x hx hfree => h.tables x hx (hold x hfree (fun heq => hnot (heq ▸ hx))),
    fun x hx hfree => h.reserved x hx (hold x hfree (by omega)), h.pos⟩

/-- Making a table. -/
theorem made (h : InOrder p4_table reserve s) (hmade : Made PhysicalPages.allocate p4_table s s')
    (hgood : s'.frames.ran_out ≠ true) : Keeps p4_table reserve s s' := by
  have hpaged := hmade.wellPaged h.paged
  obtain ⟨g, halloc, htable, hmem⟩ := hmade.isTable h.paged
  have hframes : s.frames.allocate.2 = s'.frames := congrArg Prod.snd halloc
  rw [← hframes] at hgood
  obtain ⟨g', hg, haddr, hfree⟩ := PhysicalPages.allocate_spec h.small hgood
  obtain rfl : g' = g := by
    have haddr' : s.frames.allocate.1 = g * 4096 := congrArg Prod.fst halloc
    omega
  rw [hframes] at hfree
  have htotal : s'.frames.bitmap.total_pages = s.frames.bitmap.total_pages :=
    hframes ▸ PhysicalPages.total_pages_allocate
  have hsmall : s'.frames.bitmap.Small := hframes ▸ PhysicalPages.small_allocate h.small
  -- The frame of the new table is not free any more, and no other frame has become free.
  have hold : ∀ f, s'.frames.Free f → s.frames.Free f ∧ f ≠ g' := fun f hf => (hfree f).mp hf
  have hnoAlias : NoAlias (s'.mem.tree p4_table) p4_table Window 3 := by
    obtain ⟨k, f, i, x, hm⟩ := hmade
    exact hm.link.noAlias h.paged.layered (fun _ _ => window_prefix) h.noAlias
  refine ⟨⟨hpaged, hnoAlias, hsmall, fun f hf hx => ?_, fun f hf hx => ?_, h.pos⟩, htotal,
    fun f hf => ?_⟩
  · rcases (htable f).mp hf with hf | rfl
    · exact h.tables f hf (hold f hx).1
    · exact (hold f hx).2 rfl
  · exact h.reserved f hf (hold f hx).1
  · have hnot : ¬ s'.mem.IsTable p4_table f := by
      intro hf'
      rcases (htable f).mp hf' with hf' | rfl
      · exact hf.1 hf'
      · exact hf.2 hg
    exact ⟨⟨hnot, fun hx => hf.2 (hold f hx).1⟩, hmem f hnot⟩

/-- Making tables one after the other. -/
theorem madeRun (h : InOrder p4_table reserve s)
    (hmade : Relation.ReflTransGen (Made PhysicalPages.allocate p4_table) s s')
    (hgood : s'.frames.ran_out ≠ true) : Keeps p4_table reserve s s' := by
  induction hmade with
  | refl => exact Keeps.refl h
  | tail hrun hstep ih =>
    -- the allocator had not run out before the last table either
    have hkeeps := ih (fun hout =>
      hgood (PhysicalPages.ran_out_of_calls (made_calls (.single hstep)) hout))
    exact hkeeps.trans (hkeeps.inOrder.made hstep hgood)

/-- Two tables are missing, so making them takes two pages. -/
theorem madeRun_card (h : InOrder p4_table reserve s)
    (hmade : Relation.ReflTransGen (Made PhysicalPages.allocate p4_table) s s')
    (hgood : s'.frames.ran_out ≠ true) {a b c : Fin 512}
    (hnone : descend (s.mem.tree p4_table) p4_table [a, b] = none)
    (hsome : descend (s'.mem.tree p4_table) p4_table [a, b, c] ≠ none) :
    s'.frames.freeFrames.card + 2 ≤ s.frames.freeFrames.card := by
  rcases hmade.cases_head with rfl | ⟨t, hone, hrest⟩
  · -- Without a new table the walk still fails at its second step.
    have hpath : [a, b, c] = [a, b] ++ [c] := rfl
    rw [hpath, descend_append, hnone] at hsome
    exact absurd rfl hsome
  · rcases hrest.cases_head with rfl | ⟨u, htwo, hrest⟩
    · -- One new table completes a walk by one step only.
      obtain ⟨k, f, i, g, hm⟩ := hone
      exact absurd (hm.link.descend_none h.paged.layered (p := [a, b]) (by simp) hnone) hsome
    · have hgoodu : u.frames.ran_out ≠ true :=
        fun hout => hgood (PhysicalPages.ran_out_of_calls (made_calls hrest) hout)
      have hgoodt : t.frames.ran_out ≠ true :=
        fun hout => hgoodu (PhysicalPages.ran_out_of_calls (made_calls (.single htwo)) hout)
      have hkt := h.made hone hgoodt
      have hku := hkt.inOrder.made htwo hgoodu
      -- Each of the two takes a page, and what is made after them gives none back.
      have h1 := PhysicalPages.card_allocate h.small (hone.frames ▸ hgoodt)
      have h2 := PhysicalPages.card_allocate hkt.inOrder.small (htwo.frames ▸ hgoodu)
      have h3 := PhysicalPages.card_of_calls (made_calls hrest) hku.inOrder.small
      rw [hone.frames] at h1
      rw [htwo.frames] at h2
      omega

/-- Writing an entry of a last-level table. -/
theorem setLeaf (h : InOrder p4_table reserve s) {i : Fin 512} {v : ℕ}
    (hf : At (s.mem.tree p4_table) p4_table 3 f) :
    Keeps p4_table reserve s { s with mem := s.mem.set f i v } := by
  obtain ⟨hleaf, hpaged⟩ := setLeaf_set (i := i) (v := v) h.paged hf
  have htable : ∀ x, (s.mem.set f i v).IsTable p4_table x ↔ s.mem.IsTable p4_table x :=
    fun x => exists_congr (fun n => and_congr_right (fun hn => hleaf.at_iff h.paged.layered hn))
  refine ⟨⟨hpaged, h.noAlias.congr (fun p hp => hleaf.descend_table h.paged.layered hp), h.small,
    fun x hx => h.tables x ((htable x).mp hx), h.reserved, h.pos⟩, rfl, fun x hx => ?_⟩
  refine ⟨⟨fun ht => hx.1 ((htable x).mp ht), hx.2⟩, PhysMem.set_of_ne ?_⟩
  rintro rfl
  exact hx.1 ⟨3, le_refl 3, hf⟩

end InOrder

/-! ## `map_page` -/

/-- The addresses from 1 GiB up to 510 GiB. -/
def InWindow (a : ℕ) : Prop := 2^30 ≤ a ∧ a < 510 * 2^30

theorem InWindow.field_eq {a : ℕ} (h : InWindow a) :
    field a 39 = 0 ∧ field a 30 ≠ 0 ∧ field a 30 ≠ 510 := by
  obtain ⟨h1, h2⟩ := h
  refine ⟨Potatos.field_eq ?_, fun h => ?_, fun h => ?_⟩
  · show a / 2^39 % 512 = 0
    omega
  · have hval : a / 2^30 % 512 = 0 := congrArg Fin.val h
    omega
  · have hval : a / 2^30 % 512 = 510 := congrArg Fin.val h
    omega

theorem InWindow.ne {a : ℕ} (h : InWindow a) : field a 39 ≠ 510 := by
  rw [h.field_eq.1]
  decide

theorem InWindow.window {a : ℕ} (h : InWindow a) :
    Window [field a 39, field a 30, field a 21] := by
  obtain ⟨h1, h2, h3⟩ := h.field_eq
  refine ⟨fun x hx => ?_, fun x hx => ?_⟩
  · obtain rfl := Option.some.inj hx
    exact h1
  · obtain rfl := Option.some.inj hx
    exact ⟨h2, h3⟩

/-- Addresses of different pages have different slots. -/
theorem InOrder.page_eq_of_slot (h : InOrder p4_table reserve s) {a a' : ℕ} (ha : InWindow a)
    (ha' : InWindow a') (hslot : s.mem.leafSlot p4_table a = s.mem.leafSlot p4_table a')
    (hsome : s.mem.leafSlot p4_table a ≠ none) : a / 4096 = a' / 4096 := by
  rw [h.paged.leafSlot_eq ha.ne] at hslot hsome
  rw [h.paged.leafSlot_eq ha'.ne] at hslot
  cases hd : descend (s.mem.tree p4_table) p4_table [field a 39, field a 30, field a 21] with
  | none => rw [hd] at hsome; exact absurd rfl hsome
  | some f =>
    rw [hd] at hslot
    obtain ⟨f', hd', heq⟩ := Option.map_eq_some_iff.mp hslot.symm
    obtain ⟨rfl, h12⟩ := Prod.mk.inj heq
    -- One table is below one pair of indices, as nothing in the window is aliased.
    have hpath := h.noAlias _ _ _ ha.window ha'.window rfl (le_refl 3) hd hd'
    simp only [List.cons.injEq, and_true] at hpath
    obtain ⟨-, h30, h21⟩ := hpath
    have e30 : a / 2^30 % 512 = a' / 2^30 % 512 := congrArg Fin.val h30
    have e21 : a / 2^21 % 512 = a' / 2^21 % 512 := congrArg Fin.val h21
    have e12 : a' / 2^12 % 512 = a / 2^12 % 512 := congrArg Fin.val h12
    obtain ⟨h1, h2⟩ := ha
    obtain ⟨h1', h2'⟩ := ha'
    omega

/-- What `map_page` did when the allocator did not run out. -/
theorem InOrder.map_spec (h : InOrder p4_table reserve s) {virtual_address physical_address : ℕ}
    (hva : InWindow virtual_address)
    (hres : mapPage PhysicalPages.allocate p4_table s virtual_address physical_address 3 = some s')
    (hgood : s'.frames.ran_out ≠ true) :
    ∃ s₃ f, Relation.ReflTransGen (Made PhysicalPages.allocate p4_table) s s₃ ∧
      s₃.mem.WellPaged p4_table ∧
      descend (s₃.mem.tree p4_table) p4_table
        [field virtual_address 39, field virtual_address 30, field virtual_address 21] = some f ∧
      s' = if present (s₃.mem f (field virtual_address 12)) then s₃
        else { s₃ with
          mem := s₃.mem.set f (field virtual_address 12)
            (alignToPage physical_address ||| (3 : BitVec 8).toNat) } := by
  -- The call has returned and the allocator did not run out, so every frame it took was fresh.
  have hfresh := freshAllocs_of_result (J := InOrder p4_table reserve)
    (B := fun frames => frames.ran_out = true) (fun _ => PhysicalPages.ran_out_allocate)
    (fun _ hs hg => hs.freshFrame hg) (fun _ _ hs hm hg => (hs.made hm hg).inOrder)
    (fun _ hs => hs.paged) h hva.ne hres hgood
  obtain ⟨s₃, f, hmade, hw₃, hf, -, hcall⟩ := mapPage_spec h.paged physical_address 3 hva.ne hfresh
  exact ⟨s₃, f, hmade, hw₃, hf, Option.some.inj (hres.symm.trans hcall)⟩

/-- The last store of `map_page`: it maps this page, and no other page is mapped differently. -/
theorem InOrder.set_page (h : InOrder p4_table reserve s) {virtual_address d : ℕ}
    (hva : InWindow virtual_address) (hd : d < 2^40)
    (hf : descend (s.mem.tree p4_table) p4_table
      [field virtual_address 39, field virtual_address 30, field virtual_address 21] = some f)
    (hs' : s' = ⟨s.mem.set f (field virtual_address 12)
      (alignToPage (d * 4096) ||| (3 : BitVec 8).toNat), s.frames⟩) :
    Keeps p4_table reserve s s' ∧ s'.mem.walk p4_table virtual_address = some d ∧
      ∀ a, InWindow a → a / 4096 ≠ virtual_address / 4096 →
        s'.mem.walk p4_table a = s.mem.walk p4_table a := by
  subst hs'
  have hat : At (s.mem.tree p4_table) p4_table 3 f := ⟨_, rfl, hf⟩
  have hkeeps := h.setLeaf (i := field virtual_address 12)
    (v := alignToPage (d * 4096) ||| (3 : BitVec 8).toNat) hat
  have hslot : s.mem.leafSlot p4_table virtual_address = some (f, field virtual_address 12) := by
    rw [h.paged.leafSlot_eq hva.ne, hf]
    rfl
  obtain ⟨hleaf, -⟩ := setLeaf_set (i := field virtual_address 12)
    (v := alignToPage (d * 4096) ||| (3 : BitVec 8).toNat) h.paged hat
  refine ⟨hkeeps, ?_, fun a ha hne => ?_⟩
  · have hf' := (hleaf.descend_table h.paged.layered (by simp)).trans hf
    rw [hkeeps.inOrder.paged.walk_of_table hva.ne hf']
    have hnext : (s.mem.set f (field virtual_address 12)
        (alignToPage (d * 4096) ||| (3 : BitVec 8).toNat)).next f (field virtual_address 12) =
          some (d * 4096 / 4096) := next_mapped (by omega) (by decide) PhysMem.set_self
    rw [Nat.mul_div_cancel _ (by norm_num)] at hnext
    exact hnext
  · -- Another page with the same slot would be an alias.
    obtain ⟨-, hsame⟩ := set_walks (i := field virtual_address 12)
      (v := alignToPage (d * 4096) ||| (3 : BitVec 8).toNat) h.paged hat ha.ne
    refine hsame (fun hslota => hne ?_)
    exact h.page_eq_of_slot ha hva (hslota.trans hslot.symm)
      (by rw [hslota]; exact Option.some_ne_none _)

/-- The entry of a page that is not mapped is not present. -/
theorem not_present_of_walk {m : PhysMem} {a : ℕ} (hw : m.WellPaged p4_table) (ha : InWindow a)
    (hnone : m.walk p4_table a = none)
    (hf : descend (m.tree p4_table) p4_table [field a 39, field a 30, field a 21] = some f) :
    present (m f (field a 12)) ≠ true := by
  intro hp
  have hwalk := hw.walk_of_table ha.ne hf
  rw [hnone, PhysMem.next, if_pos hp] at hwalk
  cases hwalk

/-- `map_page` of an address between 1 GiB and 510 GiB that is not mapped, when the allocator did
not run out: it maps this page, and no other page there is mapped differently. -/
theorem InOrder.mapped (h : InOrder p4_table reserve s) {virtual_address d : ℕ}
    (hva : InWindow virtual_address) (hd : d < 2^40)
    (hnone : s.mem.walk p4_table virtual_address = none)
    (hres : mapPage PhysicalPages.allocate p4_table s virtual_address (d * 4096) 3 = some s')
    (hgood : s'.frames.ran_out ≠ true) :
    Keeps p4_table reserve s s' ∧ s'.mem.walk p4_table virtual_address = some d ∧
      ∀ a, InWindow a → a / 4096 ≠ virtual_address / 4096 →
        s'.mem.walk p4_table a = s.mem.walk p4_table a := by
  obtain ⟨s₃, f, hmade, hw₃, hf, hs'⟩ := h.map_spec hva hres hgood
  have hwalks : ∀ a, InWindow a → s₃.mem.walk p4_table a = s.mem.walk p4_table a :=
    fun a ha => made_walk_eq hmade h.paged ha.ne
  rw [if_neg (not_present_of_walk hw₃ hva ((hwalks _ hva).trans hnone) hf)] at hs'
  -- The tables are made first, and then the entry of the page is written.
  have hgood₃ : s₃.frames.ran_out ≠ true := by
    rw [hs'] at hgood
    exact hgood
  have hkeeps₃ := h.madeRun hmade hgood₃
  obtain ⟨hkeeps, hwalk, hother⟩ := hkeeps₃.inOrder.set_page hva hd hf hs'
  exact ⟨hkeeps₃.trans hkeeps, hwalk, fun a ha hne => (hother a ha hne).trans (hwalks a ha)⟩

/-- `map_page` returns when a page is free for each table that is not there. -/
theorem InOrder.mapPage_total (h : InOrder p4_table reserve s) {virtual_address n k : ℕ}
    (physical_address : ℕ) (hva : InWindow virtual_address) (hk : k ≤ 3)
    (hpath : descend (s.mem.tree p4_table) p4_table ([field virtual_address 39,
      field virtual_address 30, field virtual_address 21].take k) ≠ none)
    (henough : s.frames.Enough (n + (3 - k))) :
    ∃ s', mapPage PhysicalPages.allocate p4_table s virtual_address physical_address 3 = some s' ∧
      s'.frames.Enough n := by
  -- The budget is the number of free pages above `n`; each table that is made takes one.
  obtain ⟨hfresh, hend⟩ := freshAllocs_of_budget
    (J := fun k s => InOrder p4_table reserve s ∧ s.frames.Enough (n + k))
    (fun k s hs => hs.1.freshFrame (hs.2.allocate hs.1.small).1)
    (fun k s hs => ⟨hs.1, hs.2.less (by omega)⟩)
    (fun k s s' _ hs hmade => by
      have hnext : s'.frames.Enough (n + k) := hmade.frames ▸ hs.2.allocate hs.1.small
      exact ⟨(hs.1.made hmade hnext.1).inOrder, hnext⟩)
    h.paged hva.ne hk hpath ⟨h, henough⟩
  obtain ⟨_, _, -, -, -, -, hcall⟩ := mapPage_spec h.paged physical_address 3 hva.ne hfresh
  obtain ⟨s₃, hs₃, hframes⟩ := hend _ _ _ hcall
  exact ⟨_, hcall, hframes ▸ hs₃.2⟩

end Potatos
