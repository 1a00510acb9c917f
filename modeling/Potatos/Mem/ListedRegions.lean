import Potatos.Mem.CoveredPages
import Potatos.Mem.RegionFree

/-!
# Lists of regions on mapped pages

One call of `vmm_allocate` or of `vmm_free` on the page tables and the bitmap, on any list of
regions whose pages are mapped (`Listed`), with gaps where regions were given back. A new region is
put into the first gap that is large enough, whose pages are mapped already, or behind the last
region (`Listed.allocate`). A region is taken out of the list, and its pages stay mapped
(`Listed.free`).

What the calls write is headers, and what carries them is that no two headers of the list share a
frame (`Headers`). Nothing in `vmm.c` sees to it: the frame under a new header may be one that
`vmm_free` gave back from under another one. So it is a condition on the call (`Unshared`).
-/

namespace Potatos

open Lib RegionMemory

variable {p4_table reserve vm_root hi hi' size n p fuel : ℕ} {s s' : Paged PhysicalPages}
  {rs l r : List Region} {a x y : Region}

/-- The list with a region more behind `x`. -/
theorem mem_behind : a ∈ l ++ x :: y :: r ↔ a ∈ l ++ x :: r ∨ a = y := by
  simp only [List.mem_append, List.mem_cons]
  tauto

/-! ## The headers -/

/-- The headers of the list are at the starts of mapped pages, and no two of them share a frame. -/
structure Headers (p4_table reserve vm_root : ℕ) (s : Paged PhysicalPages) (rs : List Region)
    (hi : ℕ) : Prop where
  covered : Covered p4_table reserve s vm_root hi
  addr : ∀ a ∈ rs, vm_root ≤ a.addr ∧ a.addr < hi ∧ a.addr % 4096 = 0
  apart : ∀ a ∈ rs, ∀ b ∈ rs, s.mem.walk p4_table a.addr = s.mem.walk p4_table b.addr →
    a.addr = b.addr

namespace Headers

/-- A store into a header changes that word of the headers. -/
theorem store (h : Headers p4_table reserve vm_root s rs hi) (ha : a ∈ rs) {k v : ℕ}
    (hk : k = 0 ∨ k = 8) :
    ∃ s', (kernelMemory p4_table).store s (a.addr + k) v = some s' ∧
      Headers p4_table reserve vm_root s' rs hi ∧
      ∀ b ∈ rs, ∀ j, j = 0 ∨ j = 8 → (kernelMemory p4_table).load s' (b.addr + j) =
        if b.addr + j = a.addr + k then some v
        else (kernelMemory p4_table).load s (b.addr + j) := by
  have hpage := h.covered.page
  obtain ⟨halo, hahi, hapage⟩ := h.addr a ha
  obtain ⟨s', hs', -, hc, hwalk, hload⟩ :=
    h.covered.store (a := a.addr + k) (v := v) (by omega) (by omega) (by omega)
  refine ⟨s', hs', ⟨hc, h.addr, fun b hb c hcm heq => ?_⟩, fun b hb j hj => ?_⟩
  · obtain ⟨hblo, hbhi, -⟩ := h.addr b hb
    obtain ⟨hclo, hchi, -⟩ := h.addr c hcm
    rw [hwalk _ hblo hbhi, hwalk _ hclo hchi] at heq
    exact h.apart b hb c hcm heq
  · obtain ⟨hblo, hbhi, hbpage⟩ := h.addr b hb
    refine hload (b.addr + j) (by omega) (by omega) (by omega) (fun heq => ?_)
    -- The words of one header are in one page.
    rw [walk_congr (show (b.addr + j) / 4096 = b.addr / 4096 by omega),
      walk_congr (show (a.addr + k) / 4096 = a.addr / 4096 by omega)] at heq
    rw [h.apart b hb a ha heq]
    omega

/-- `current->next = v`. -/
theorem setNext (h : Headers p4_table reserve vm_root s rs hi) (ha : a ∈ rs) (v : ℕ) :
    ∃ s', (kernelMemory p4_table).setNext s a.addr v = some s' ∧
      Headers p4_table reserve vm_root s' rs hi ∧
      (∀ b ∈ rs, (kernelMemory p4_table).next s' b.addr =
        if b.addr = a.addr then some v else (kernelMemory p4_table).next s b.addr) ∧
      ∀ b ∈ rs, (kernelMemory p4_table).size s' b.addr = (kernelMemory p4_table).size s b.addr := by
  obtain ⟨-, -, hapage⟩ := h.addr a ha
  obtain ⟨s', hs', h', hload⟩ := h.store (v := v) ha (Or.inl rfl)
  refine ⟨s', hs', h', fun b hb => hload b hb 0 (Or.inl rfl), fun b hb => ?_⟩
  obtain ⟨-, -, hbpage⟩ := h.addr b hb
  exact (hload b hb 8 (Or.inr rfl)).trans (if_neg (by omega))

/-- `current->size = v`. -/
theorem setSize (h : Headers p4_table reserve vm_root s rs hi) (ha : a ∈ rs) (v : ℕ) :
    ∃ s', (kernelMemory p4_table).setSize s a.addr v = some s' ∧
      Headers p4_table reserve vm_root s' rs hi ∧
      (∀ b ∈ rs, (kernelMemory p4_table).size s' b.addr =
        if b.addr = a.addr then some v else (kernelMemory p4_table).size s b.addr) ∧
      ∀ b ∈ rs, (kernelMemory p4_table).next s' b.addr = (kernelMemory p4_table).next s b.addr := by
  obtain ⟨-, -, hapage⟩ := h.addr a ha
  obtain ⟨s', hs', h', hload⟩ := h.store (v := v) ha (Or.inr rfl)
  refine ⟨s', hs', h', fun b hb => ?_, fun b hb => ?_⟩
  · refine (hload b hb 8 (Or.inr rfl)).trans (if_congr ?_ rfl rfl)
    omega
  · obtain ⟨-, -, hbpage⟩ := h.addr b hb
    exact (hload b hb 0 (Or.inl rfl)).trans (if_neg (by omega))

/-- Mapping pages leaves the headers. -/
theorem of_same (h : Headers p4_table reserve vm_root s rs hi)
    (hc : Covered p4_table reserve s' vm_root hi') (hle : hi ≤ hi')
    (hsame : SameWords p4_table vm_root hi s s') :
    Headers p4_table reserve vm_root s' rs hi' ∧
      ∀ b ∈ rs, (kernelMemory p4_table).next s' b.addr = (kernelMemory p4_table).next s b.addr ∧
        (kernelMemory p4_table).size s' b.addr = (kernelMemory p4_table).size s b.addr := by
  have hpage := h.covered.page
  refine ⟨⟨hc, fun a ha => ?_, fun a ha b hb heq => ?_⟩, fun b hb => ?_⟩
  · obtain ⟨hlo, hhi, hpage⟩ := h.addr a ha
    exact ⟨hlo, lt_of_lt_of_le hhi hle, hpage⟩
  · obtain ⟨halo, hahi, -⟩ := h.addr a ha
    obtain ⟨hblo, hbhi, -⟩ := h.addr b hb
    rw [(hsame _ halo hahi).1, (hsame _ hblo hbhi).1] at heq
    exact h.apart a ha b hb heq
  · obtain ⟨hblo, hbhi, hbpage⟩ := h.addr b hb
    exact ⟨(hsame _ hblo hbhi).2, (hsame (b.addr + 8) (by omega) (by omega)).2⟩

/-- A header more, on a page whose frame no other header has. -/
theorem cons (h : Headers p4_table reserve vm_root s (l ++ r) hi)
    (haddr : vm_root ≤ a.addr ∧ a.addr < hi ∧ a.addr % 4096 = 0)
    (hown : ∀ b ∈ l ++ r, s.mem.walk p4_table b.addr ≠ s.mem.walk p4_table a.addr) :
    Headers p4_table reserve vm_root s (l ++ a :: r) hi := by
  have hcases : ∀ b ∈ l ++ a :: r, b ∈ l ++ r ∨ b = a := by
    intro b hb
    simp only [List.mem_append, List.mem_cons] at hb ⊢
    tauto
  refine ⟨h.covered, fun b hb => ?_, fun b hb c hc heq => ?_⟩
  · rcases hcases b hb with hold | rfl
    · exact h.addr b hold
    · exact haddr
  · rcases hcases b hb with holdb | rfl
    · rcases hcases c hc with holdc | rfl
      · exact h.apart b holdb c holdc heq
      · exact absurd heq (hown b holdb)
    · rcases hcases c hc with holdc | rfl
      · exact absurd heq.symm (hown c holdc)
      · rfl

/-- The headers of some of the regions. -/
theorem subset (h : Headers p4_table reserve vm_root s rs hi) (hsub : l ⊆ rs) :
    Headers p4_table reserve vm_root s l hi :=
  ⟨h.covered, fun a ha => h.addr a (hsub ha), fun a ha b hb => h.apart a (hsub ha) b (hsub hb)⟩

end Headers

/-! ## The list -/

/-- A list of regions from the root on, on pages that are mapped up to `hi`. -/
structure Listed (p4_table reserve vm_root : ℕ) (s : Paged PhysicalPages) (rs : List Region)
    (hi : ℕ) : Prop where
  headers : Headers p4_table reserve vm_root s rs hi
  regions : (kernelMemory p4_table).RegionsAt s vm_root rs
  wellFormed : WellFormed rs
  below : ∀ a ∈ rs, a.stop ≤ hi

/-- The page at `c` has a frame that no header of the list has, and that stays so: it is mapped to
another one, or it is not mapped, and the allocator has none of theirs. -/
def Unshared (p4_table : ℕ) (s : Paged PhysicalPages) (rs : List Region) (c : ℕ) : Prop :=
  ∀ a ∈ rs, ∀ f, s.mem.walk p4_table a.addr = some f →
    s.mem.walk p4_table c ≠ some f ∧ (s.mem.walk p4_table c = none → ¬ s.frames.Free f)

/-- What a call of `vmm_allocate` needs where it puts the region of `size` bytes: a frame of its own
for the header, and at the end of the list pages for all of it, below 510 GiB. -/
def Room (p4_table vm_root : ℕ) (s : Paged PhysicalPages) (rs : List Region) (size : ℕ) : Prop :=
  ∀ l x r, rs = l ++ x :: r → FirstGap size l x r → Unshared p4_table s rs x.stop ∧
    (r = [] → x.stop + size < 510 * 2^30 ∧ PagesLast p4_table vm_root s x.stop size)

/-- A row of backed regions is such a list, and a page behind it gets a frame of its own. -/
theorem Backed.listed (h : Backed p4_table reserve vm_root s rs hi) :
    Listed p4_table reserve vm_root s rs hi ∧ Unshared p4_table s rs hi := by
  have haddr : ∀ a ∈ rs, vm_root ≤ a.addr ∧ a.addr < hi ∧ a.addr % 4096 = 0 := by
    intro a ha
    obtain ⟨hlo, hhi, hpage⟩ := h.header ha
    exact ⟨hlo, by omega, hpage⟩
  refine ⟨⟨⟨h.backing.covered, haddr, fun a ha b hb heq => ?_⟩, h.regions, h.wellFormed,
    fun _ ha => (h.row.bounds ha).2⟩, fun a ha f hf => ⟨?_, fun _ hfree => ?_⟩⟩
  · obtain ⟨halo, hahi, hapage⟩ := haddr a ha
    obtain ⟨hblo, hbhi, hbpage⟩ := haddr b hb
    obtain ⟨f, hf, -⟩ := h.backing.mapped a.addr halo hahi
    have hpage := h.backing.apart a.addr b.addr f halo hahi hblo hbhi hf (heq.symm.trans hf)
    omega
  · rw [h.backing.unmapped hi (le_refl hi) h.backing.top]
    exact (Option.some_ne_none f).symm
  · obtain ⟨halo, hahi, -⟩ := haddr a ha
    obtain ⟨g, hg, hdata⟩ := h.backing.mapped a.addr halo hahi
    obtain rfl := Option.some.inj (hf.symm.trans hg)
    exact hdata.held.2 hfree

/-- Behind a row, four free pages for each page of the region are enough room. -/
theorem Backed.room (h : Backed p4_table reserve vm_root s rs hi) (hsize : size % 4096 = 0)
    (htop : hi + size < 510 * 2^30) (hpos : 0 < size)
    (henough : s.frames.Enough (4 * (size / 4096))) : Room p4_table vm_root s rs size := by
  intro l x r hsplit hfirst
  subst hsplit
  -- A row has no gap, so the region is the last one.
  have hr : r = [] := by
    cases r with
    | nil => rfl
    | cons y r =>
      have hgap := hfirst.large_enough (List.cons_ne_nil y r)
      have hy : y.addr = x.stop := h.no_gap
      rw [headAddr] at hgap
      omega
  subst hr
  have hstop : x.stop = hi := h.last
  rw [hstop]
  refine ⟨h.listed.2, fun _ => ⟨htop, fun i hi' t ht hnone => ?_⟩⟩
  have hlo := h.row.le
  have hpages : i * 4096 / 4096 = i := Nat.mul_div_cancel i (by norm_num)
  have hcount : 4 * (size / 4096 - i) + 4 * (i * 4096 / 4096) = 4 * (size / 4096) := by omega
  obtain ⟨t', ht', hleft⟩ := h.backing.area_total (k := 4 * (size / 4096 - i)) hlo
    (Nat.mul_mod_left i 4096) (by omega) (hcount ▸ henough)
  obtain rfl := Option.some.inj (ht.symm.trans ht')
  obtain ⟨hback, -⟩ := h.backing.area hlo (Nat.mul_mod_left i 4096) (by omega) ht hleft.1
  obtain ⟨u, hu, hgood, -⟩ := hback.page_total (by omega) (hleft.less (by omega : 0 + 4 ≤ _))
  refine ⟨u, hu, hgood, fun a f ha hlt hf _ => ?_⟩
  -- What is mapped is held, and is no table afterwards.
  obtain ⟨-, hkeeps, -⟩ := hback.page_mapped (by omega) (by omega) hu hgood
  rcases Nat.lt_or_ge a (hi + i * 4096) with hin | hout
  · obtain ⟨g, hg, hdata⟩ := hback.mapped a ha hin
    obtain rfl := Option.some.inj (hf.symm.trans hg)
    exact (hkeeps.held f hdata.held).1.1
  · rw [hback.unmapped a hout hlt] at hf
    cases hf

/-- The new header and the link to it, and every other header as it was. -/
structure LinksNew (p4_table : ℕ) (s s' : Paged PhysicalPages) (rs : List Region) (x : Region)
    (size next : ℕ) : Prop where
  links : ∀ b ∈ rs, (kernelMemory p4_table).next s' b.addr =
    if b.addr = x.addr then some x.stop else (kernelMemory p4_table).next s b.addr
  sizes : ∀ b ∈ rs, (kernelMemory p4_table).size s' b.addr = (kernelMemory p4_table).size s b.addr
  new_link : (kernelMemory p4_table).next s' x.stop = some next
  new_size : (kernelMemory p4_table).size s' x.stop = some size

namespace Listed

/-- Where a region of the list is. -/
theorem bounds (h : Listed p4_table reserve vm_root s rs hi) (ha : a ∈ rs) :
    vm_root ≤ a.addr ∧ a.addr + 4096 ≤ a.stop ∧ a.stop ≤ hi ∧ a.addr % 4096 = 0 ∧
      a.stop % 4096 = 0 ∧ addw a.addr a.size = a.stop := by
  have htop := h.headers.covered.top
  have hstop := h.below a ha
  have hsize := h.wellFormed.size_page a ha
  have hge := h.wellFormed.size_ge ha
  obtain ⟨hlo, -, hpage⟩ := h.headers.addr a ha
  unfold Region.stop PAGE_SIZE at *
  exact ⟨hlo, by omega, hstop, hpage, by omega, addw_of_lt (by omega)⟩

/-- The new header makes the list with the new region. -/
theorem insert (h : Listed p4_table reserve vm_root s (l ++ x :: r) hi)
    (hh : Headers p4_table reserve vm_root s' (l ++ x :: ⟨x.stop, size⟩ :: r) hi') (hle : hi ≤ hi')
    (hnew : LinksNew p4_table s s' (l ++ x :: r) x size (headAddr r)) (hsize : size % 4096 = 0)
    (hpos : 0 < size) (hend : x.stop + size ≤ hi') (hr : ∀ a ∈ r, x.stop + size ≤ a.addr) :
    Listed p4_table reserve vm_root s' (l ++ x :: ⟨x.stop, size⟩ :: r) hi' := by
  have htop := hh.covered.top
  have hbottom := hh.covered.bottom
  obtain ⟨hxlo, hxstop, -⟩ := h.bounds (a := x) (by simp)
  obtain ⟨hl, b, t, ht, hb⟩ := h.regions
  obtain ⟨t', ht'⟩ := head_of_split ht.symm (⟨x.stop, size⟩ :: r)
  have hsame : ∀ a ∈ l ++ r,
      (kernelMemory p4_table).next s' a.addr = (kernelMemory p4_table).next s a.addr ∧
        (kernelMemory p4_table).size s' a.addr = (kernelMemory p4_table).size s a.addr :=
    fun a ha => ⟨(hnew.links a (mem_of_rest ha)).trans (if_neg (h.wellFormed.addr_ne ha)),
      hnew.sizes a (mem_of_rest ha)⟩
  have hxnext := (hnew.links x (by simp)).trans (if_pos rfl)
  have hxsize := (hnew.sizes x (by simp)).trans (hl.header).2
  refine ⟨hh, ⟨hl.insert (show x.stop ≠ 0 by omega) hsame hxnext hxsize hnew.new_link hnew.new_size,
    b, t', ht', hb⟩, h.wellFormed.insert hsize hpos (by omega) hr, fun a ha => ?_⟩
  rcases mem_behind.mp ha with ha | rfl
  · exact le_trans (h.below a ha) hle
  · exact hend

/-- The headers of the list, with the new one behind `x`. -/
theorem headers_insert (h : Listed p4_table reserve vm_root s (l ++ x :: r) hi)
    (hh : Headers p4_table reserve vm_root s' (l ++ x :: r) hi') (hlt : x.stop < hi')
    (hown : ∀ b ∈ l ++ x :: r, s'.mem.walk p4_table b.addr ≠ s'.mem.walk p4_table x.stop) :
    Headers p4_table reserve vm_root s' (l ++ x :: ⟨x.stop, size⟩ :: r) hi' := by
  obtain ⟨hxlo, hxstop, -, -, hxpage, -⟩ := h.bounds (a := x) (by simp)
  have hsplit : l ++ x :: r = (l ++ [x]) ++ r := by simp
  rw [hsplit] at hh hown
  have hcons := hh.cons (a := ⟨x.stop, size⟩)
    ⟨by show vm_root ≤ x.stop; omega, hlt, hxpage⟩ hown
  rwa [List.append_assoc, List.singleton_append] at hcons

/-- The branch of `vmm_allocate` for a gap, whose pages are mapped already. -/
theorem insertInGap (h : Listed p4_table reserve vm_root s (l ++ x :: y :: r) hi)
    (hown : Unshared p4_table s (l ++ x :: y :: r) x.stop) (hsize : size % 4096 = 0)
    (hpos : 0 < size) (hgap : x.stop + size ≤ y.addr) :
    ∃ s', (kernelMemory p4_table).insertInGap s size x.addr = some (addw x.stop 256, s') ∧
      Listed p4_table reserve vm_root s' (l ++ x :: ⟨x.stop, size⟩ :: y :: r) hi := by
  have htop := h.headers.covered.top
  obtain ⟨hxlo, hxle, hxhi, hxpage, hspage, hstop⟩ := h.bounds (a := x) (by simp)
  obtain ⟨-, hyle, hyhi, -⟩ := h.bounds (a := y) (by simp)
  have hxs := (h.regions.1.header).2
  have hxn := (h.regions.1.header).1
  obtain ⟨new, hnew⟩ : ∃ new : Region, new = ⟨x.stop, size⟩ := ⟨_, rfl⟩
  have haddr : x.stop = new.addr := by rw [hnew]
  have h₀ : Headers p4_table reserve vm_root s (l ++ x :: new :: y :: r) hi := by
    rw [hnew]
    refine h.headers_insert h.headers (by omega) (fun b hb => ?_)
    obtain ⟨hblo, hbhi, -⟩ := h.headers.addr b hb
    obtain ⟨f, hf, -⟩ := h.headers.covered.mapped b.addr hblo hbhi
    rw [hf]
    exact (hown b hb f hf).1.symm
  have hx : x ∈ l ++ x :: new :: y :: r := by simp
  have hn : new ∈ l ++ x :: new :: y :: r := by simp
  have hold : ∀ b ∈ l ++ x :: y :: r, b ∈ l ++ x :: new :: y :: r :=
    fun b hb => mem_behind.mpr (Or.inl hb)
  -- No header of the list is where the new one is.
  have hne : ∀ b ∈ l ++ x :: y :: r, b.addr ≠ new.addr := by
    intro b hb heq
    obtain ⟨hblo, hbhi, -⟩ := h.headers.addr b hb
    obtain ⟨f, hf, -⟩ := h.headers.covered.mapped b.addr hblo hbhi
    exact (hown b hb f hf).1 (by rw [haddr, ← heq]; exact hf)
  have hnx : new.addr ≠ x.addr := fun heq => hne x (by simp) heq.symm
  obtain ⟨s₁, e₁, h₁, z₁, n₁⟩ := h₀.setSize hn size
  have hnext : (kernelMemory p4_table).next s₁ x.addr = some y.addr := (n₁ x hx).trans hxn
  obtain ⟨s₂, e₂, h₂, n₂, z₂⟩ := h₁.setNext hn y.addr
  obtain ⟨s₃, e₃, h₃, n₃, z₃⟩ := h₂.setNext hx new.addr
  obtain ⟨s₄, e₄, hc₄, hsame, -⟩ := h₃.covered.area (show vm_root ≤ new.addr by omega) (by omega)
    (by omega) hsize (by omega) (fun hlt => absurd hlt (by omega))
  rw [Nat.max_eq_left (by omega)] at hc₄
  obtain ⟨h₄, w₄⟩ := h₃.of_same hc₄ (le_refl hi) hsame
  obtain ⟨s₅, e₅, h₅, z₅, n₅⟩ := h₄.setSize hn size
  obtain ⟨s₆, e₆, h₆, n₆, z₆⟩ := h₅.setNext hx new.addr
  have hcall : (kernelMemory p4_table).insertInGap s size x.addr = some (addw x.stop 256, s₆) := by
    refine insertInGap_eq_some.mpr ⟨x.size, y.addr, s₁, s₂, s₃, s₄, s₅, hxs, ?_⟩
    rw [hstop, haddr]
    exact ⟨e₁, hnext, e₂, e₃, e₄, e₅, e₆, rfl⟩
  -- The links and the sizes that the six steps leave.
  have hlinks : ∀ b ∈ l ++ x :: new :: y :: r, (kernelMemory p4_table).next s₆ b.addr =
      if b.addr = x.addr then some new.addr else if b.addr = new.addr then some y.addr
      else (kernelMemory p4_table).next s b.addr := by
    intro b hb
    rw [n₆ b hb, n₅ b hb, (w₄ b hb).1, n₃ b hb, n₂ b hb, n₁ b hb]
    split_ifs <;> rfl
  have hsizes : ∀ b ∈ l ++ x :: new :: y :: r, (kernelMemory p4_table).size s₆ b.addr =
      if b.addr = new.addr then some size else (kernelMemory p4_table).size s b.addr := by
    intro b hb
    rw [z₆ b hb, z₅ b hb, (w₄ b hb).2, z₃ b hb, z₂ b hb, z₁ b hb]
    split_ifs <;> rfl
  have hlinked : LinksNew p4_table s s₆ (l ++ x :: y :: r) x size (headAddr (y :: r)) := by
    refine ⟨fun b hb => ?_, fun b hb => ?_, ?_, ?_⟩
    · rw [hlinks b (hold b hb), if_neg (hne b hb), haddr]
    · rw [hsizes b (hold b hb), if_neg (hne b hb)]
    · rw [haddr, hlinks new hn, if_neg hnx, if_pos rfl]
      rfl
    · rw [haddr, hsizes new hn, if_pos rfl]
  exact ⟨s₆, hcall, h.insert (hnew ▸ h₆) (le_refl hi) hlinked hsize hpos (by omega)
    (h.wellFormed.behind hgap)⟩

/-- The end of `vmm_allocate`. Behind the last region there may be pages that are mapped. -/
theorem appendRegion (h : Listed p4_table reserve vm_root s (l ++ [x]) hi)
    (hown : Unshared p4_table s (l ++ [x]) x.stop) (hsize : size % 4096 = 0) (hpos : 0 < size)
    (htop : x.stop + size < 510 * 2^30) (hlast : PagesLast p4_table vm_root s x.stop size) :
    ∃ s', (kernelMemory p4_table).appendRegion s size x.addr = some (addw x.stop 16, s') ∧
      Listed p4_table reserve vm_root s' (l ++ [x, ⟨x.stop, size⟩])
        (max hi (x.stop + size)) := by
  obtain ⟨hxlo, hxle, hxhi, hxpage, hspage, hstop⟩ := h.bounds (a := x) (by simp)
  have hxs := (h.regions.1.header).2
  obtain ⟨s₁, e₁, hc₁, hsame, hfirst⟩ := h.headers.covered.area (show vm_root ≤ x.stop by omega)
    hxhi hspage hsize htop (fun _ => hlast)
  have hle : x.stop + size ≤ max hi (x.stop + size) := Nat.le_max_right ..
  have hle' : hi ≤ max hi (x.stop + size) := Nat.le_max_left ..
  generalize max hi (x.stop + size) = stop at *
  obtain ⟨h₁, w₁⟩ := h.headers.of_same hc₁ hle' hsame
  obtain ⟨new, hnew⟩ : ∃ new : Region, new = ⟨x.stop, size⟩ := ⟨_, rfl⟩
  have haddr : x.stop = new.addr := by rw [hnew]
  -- The first page was mapped to a frame of its own, or it has got one that was free.
  have hfree : ∀ b ∈ l ++ [x], s₁.mem.walk p4_table b.addr ≠ s₁.mem.walk p4_table x.stop := by
    intro b hb
    obtain ⟨hblo, hbhi, -⟩ := h.headers.addr b hb
    obtain ⟨f, hf, -⟩ := h.headers.covered.mapped b.addr hblo hbhi
    obtain ⟨hother, hheld⟩ := hown b hb f hf
    rw [(hsame b.addr hblo hbhi).1, hf]
    rcases Nat.lt_or_ge x.stop hi with hlt | hge
    · rw [(hsame x.stop (by omega) hlt).1]
      exact hother.symm
    · have heq : x.stop = hi := le_antisymm hxhi hge
      obtain ⟨d, hd, hdfree⟩ := hfirst heq hpos
      rw [heq, hd]
      rintro ⟨rfl⟩
      exact hheld (h.headers.covered.unmapped x.stop (by omega) (by omega)) hdfree
  have h₁' : Headers p4_table reserve vm_root s₁ (l ++ [x, new]) stop := by
    rw [hnew]
    exact h.headers_insert h₁ (by omega) hfree
  have hx : x ∈ l ++ [x, new] := by simp
  have hn : new ∈ l ++ [x, new] := by simp
  have hold : ∀ b ∈ l ++ [x], b ∈ l ++ [x, new] := fun b hb => mem_behind.mpr (Or.inl hb)
  have hne : ∀ b ∈ l ++ [x], b.addr ≠ new.addr :=
    fun b hb heq => hfree b hb (by rw [haddr, heq])
  have hnx : new.addr ≠ x.addr := fun heq => hne x (by simp) heq.symm
  obtain ⟨s₂, e₂, h₂, n₂, z₂⟩ := h₁'.setNext hn 0
  obtain ⟨s₃, e₃, h₃, z₃, n₃⟩ := h₂.setSize hn size
  obtain ⟨s₄, e₄, h₄, n₄, z₄⟩ := h₃.setNext hx new.addr
  have hcall : (kernelMemory p4_table).appendRegion s size x.addr = some (addw x.stop 16, s₄) := by
    refine appendRegion_eq_some.mpr ⟨x.size, s₁, s₂, s₃, hxs, ?_⟩
    rw [hstop, haddr]
    exact ⟨by rw [← haddr]; exact e₁, e₂, e₃, e₄, rfl⟩
  have hlinked : LinksNew p4_table s s₄ (l ++ [x]) x size (headAddr []) := by
    refine ⟨fun b hb => ?_, fun b hb => ?_, ?_, ?_⟩
    · have hb' := hold b hb
      rw [n₄ b hb', n₃ b hb', n₂ b hb', if_neg (hne b hb), (w₁ b hb).1, haddr]
    · have hb' := hold b hb
      rw [z₄ b hb', z₃ b hb', if_neg (hne b hb), z₂ b hb', (w₁ b hb).2]
    · rw [haddr, n₄ new hn, if_neg hnx, n₃ new hn, n₂ new hn, if_pos rfl]
      rfl
    · rw [haddr, z₄ new hn, z₃ new hn, if_pos rfl]
  exact ⟨s₄, hcall, h.insert (hnew ▸ h₄) hle' hlinked hsize hpos hle
    (fun a ha => absurd ha List.not_mem_nil)⟩

/-- What `vmm_allocate` does: it puts a region behind `x`, where there is the first gap that is
large enough, or behind the last region, and the pointer tells the two apart. -/
theorem allocate (h : Listed p4_table reserve vm_root s rs hi) (hpos : 0 < regionSize n)
    (hfuel : rs.length < fuel) (hroom : Room p4_table vm_root s rs (regionSize n)) :
    ∃ l x r p s' hi', rs = l ++ x :: r ∧ FirstGap (regionSize n) l x r ∧
      (kernelMemory p4_table).vmmAllocate fuel s vm_root n = some (p, s') ∧
      Listed p4_table reserve vm_root s' (l ++ x :: ⟨x.stop, regionSize n⟩ :: r) hi' ∧
      ((HasGap (regionSize n) rs ∧ p = x.stop + 256) ∨
        (¬ HasGap (regionSize n) rs ∧ p = x.stop + 16)) := by
  have hpage : regionSize n % 4096 = 0 := regionSize_page n
  have htop := h.headers.covered.top
  obtain ⟨hl, a, t, rfl, rfl⟩ := h.regions
  obtain ⟨fuel, rfl⟩ : ∃ k, fuel = k + 1 := ⟨fuel - 1, by rw [List.length_cons] at hfuel; omega⟩
  have hapos := h.wellFormed.pos a (List.mem_cons_self ..)
  have hfuel' : t.length < fuel := by rw [List.length_cons] at hfuel; omega
  obtain ⟨l, x, r, hsplit, hno, hcase⟩ :=
    allocateLoop_linked (regionSize n) hl h.wellFormed hfuel'
  rw [vmmAllocate_linked hl (by omega), hsplit]
  rw [hsplit] at h hroom
  obtain ⟨-, -, hxhi, -⟩ := h.bounds (a := x) (by simp)
  -- The new region is in a gap behind `x`, or `x` is the last region.
  rcases hcase with ⟨y, r', rfl, hgap, heq⟩ | ⟨rfl, heq⟩
  · have hfirst : FirstGap (regionSize n) l x (y :: r') := ⟨hno, fun _ => hgap⟩
    obtain ⟨s', hcall, h'⟩ := h.insertInGap (hroom l x (y :: r') rfl hfirst).1 hpage hpos hgap
    rw [heq, hcall, addw_of_lt (by omega)]
    exact ⟨l, x, y :: r', _, s', hi, rfl, hfirst, rfl, h', Or.inl ⟨hasGap_of_split hgap, rfl⟩⟩
  · have hfirst : FirstGap (regionSize n) l x [] := ⟨hno, fun hne => absurd rfl hne⟩
    obtain ⟨hown, hpages⟩ := hroom l x [] rfl hfirst
    obtain ⟨hbelow, hlast⟩ := hpages rfl
    obtain ⟨s', hcall, h'⟩ := h.appendRegion hown hpage hpos hbelow hlast
    rw [heq, hcall, addw_of_lt (by omega)]
    exact ⟨l, x, [], _, s', _, rfl, hfirst, rfl, h', Or.inr ⟨hno, rfl⟩⟩

/-- What `vmm_free` does, on a pointer that is not the root's: it takes out the region whose header
is sixteen bytes before the pointer, or nothing. -/
theorem free (h : Listed p4_table reserve vm_root s rs hi) (hfuel : rs.length < fuel)
    (hp : subw p 16 ≠ vm_root) :
    ∃ s', kernelFree p4_table fuel s vm_root p = some s' ∧
      ((∃ l x y r, rs = l ++ x :: y :: r ∧ y.addr = subw p 16 ∧
          Listed p4_table reserve vm_root s' (l ++ x :: r) hi) ∨
        ((∀ y ∈ rs, y.addr ≠ subw p 16) ∧ s' = s)) := by
  obtain ⟨hl, a, t, rfl, rfl⟩ := h.regions
  obtain ⟨fuel, rfl⟩ : ∃ k, fuel = k + 1 := ⟨fuel - 1, by rw [List.length_cons] at hfuel; omega⟩
  have hne : a.addr ≠ subw p 16 := hp.symm
  have hfuel' : t.length < fuel := by rw [List.length_cons] at hfuel; omega
  rw [kernelFree, vmmFree_linked hl hne]
  rcases freeLoop_linked (releaseRegion p4_table) (subw p 16) hl hfuel' with
    ⟨l, x, y, r, hsplit, hy, heq⟩ | ⟨hnone, heq⟩
  · -- The link of `x` passes over `y`, whose frame is then free in the bitmap.
    rw [heq, hsplit]
    obtain ⟨t', ht'⟩ := head_of_split hsplit r
    rw [hsplit] at h hl
    have hsub : List.Sublist (l ++ x :: r) (l ++ x :: y :: r) :=
      ((List.sublist_cons_self y r).cons_cons x).append_left l
    obtain ⟨s₁, e₁, h₁, n₁, z₁⟩ := h.headers.setNext (a := x) (by simp) (headAddr r)
    obtain ⟨hylo, hyhi, -⟩ := h.headers.addr y (by simp)
    obtain ⟨f, hf, hnot, hge⟩ := h₁.covered.mapped y.addr hylo hyhi
    have hsame : ∀ b ∈ l ++ r,
        (kernelMemory p4_table).next s₁ b.addr = (kernelMemory p4_table).next s b.addr ∧
          (kernelMemory p4_table).size s₁ b.addr = (kernelMemory p4_table).size s b.addr := by
      intro b hb
      have hrest : b ∈ l ++ y :: r := ((List.sublist_cons_self y r).append_left l).subset hb
      exact ⟨(n₁ b (mem_of_rest hrest)).trans (if_neg (h.wellFormed.addr_ne hrest)),
        z₁ b (mem_of_rest hrest)⟩
    have hlist := hl.unlink hsame ((n₁ x (by simp)).trans (if_pos rfl))
      ((z₁ x (by simp)).trans (hl.header).2)
    have hheaders := h₁.subset hsub.subset
    rw [e₁, Option.bind_some, ← hy, releaseRegion_eq hheaders.covered.inOrder.paged.self hf]
    refine ⟨_, rfl, Or.inl ⟨l, x, y, r, rfl, rfl, ⟨⟨?_, hheaders.addr, hheaders.apart⟩,
      ⟨hlist.congr (fun _ _ => ⟨rfl, rfl⟩), a, t', ht', rfl⟩, h.wellFormed.sublist hsub,
      fun b hb => h.below b (hsub.subset hb)⟩⟩⟩
    exact hheaders.covered.of_frames (hheaders.covered.inOrder.giveBack hnot hge)
  · refine ⟨s, heq, Or.inr ⟨fun y hy => ?_, rfl⟩⟩
    rcases List.mem_cons.mp hy with rfl | hy
    · exact hne
    · exact hnone y hy

end Listed

/-- A region of a row that is given back leaves its page to the next header there. -/
theorem Backed.free_own (h : Backed p4_table reserve vm_root s (l ++ x :: y :: r) hi)
    (hfuel : (l ++ x :: y :: r).length < fuel) :
    ∃ s', kernelFree p4_table fuel s vm_root (y.addr + 16) = some s' ∧
      Listed p4_table reserve vm_root s' (l ++ x :: r) hi ∧
      Unshared p4_table s' (l ++ x :: r) x.stop ∧ s'.mem.walk p4_table x.stop ≠ none := by
  have htop := h.backing.top
  have hy : y.addr = x.stop := h.no_gap
  have hymem : y ∈ l ++ x :: y :: r := by simp
  obtain ⟨hylo, hyhi, hypage⟩ := h.header hymem
  obtain ⟨hxlo, -⟩ := h.header (x := x) (by simp)
  have hxsize := h.wellFormed.size_ge (a := x) (by simp)
  have htarget : subw (y.addr + 16) 16 = y.addr := subw_header (by omega)
  have hne : y.addr ≠ vm_root := by
    unfold Region.stop PAGE_SIZE at *
    omega
  obtain ⟨s', f, hcall, hfreed, -⟩ := h.free hymem hne hfuel
  obtain ⟨s'', hcall', hcase⟩ := h.listed.1.free hfuel (htarget.symm ▸ hne)
  obtain rfl := Option.some.inj (hcall.symm.trans hcall')
  have hw : WellFormed ((l ++ [x]) ++ y :: r) := by
    rw [List.append_assoc]
    exact h.wellFormed
  have hlisted : Listed p4_table reserve vm_root s' (l ++ x :: r) hi := by
    rcases hcase with ⟨l', x', y', r', heq, hy', hlisted⟩ | ⟨hnone, -⟩
    · -- There is one region at the address.
      have heq' : (l ++ [x]) ++ y :: r = (l' ++ [x']) ++ y' :: r' := by
        rw [List.append_assoc, List.append_assoc]
        exact heq
      have hrest := hw.rest_unique heq' (hy'.trans htarget)
      rw [List.append_assoc, List.append_assoc] at hrest
      exact hrest ▸ hlisted
    · exact absurd htarget.symm (hnone y hymem)
  refine ⟨s', hcall, hlisted, fun a ha g hg => ⟨fun hshare => ?_, fun hnone => ?_⟩, ?_⟩
  · have hmem : a ∈ (l ++ [x]) ++ r := by
      rw [List.append_assoc]
      exact ha
    have hold : a ∈ l ++ x :: y :: r :=
      (((List.sublist_cons_self y r).cons_cons x).append_left l).subset ha
    obtain ⟨halo, hahi, -⟩ := hlisted.headers.addr a ha
    have hwindow : ∀ b, vm_root ≤ b → b < hi → InWindow b :=
      fun b hb hlt => ⟨le_trans h.backing.bottom hb, by omega⟩
    rw [hfreed.walks _ (hwindow a.addr halo hahi).ne] at hg
    rw [← hy, hfreed.walks _ (hwindow y.addr hylo (by omega)).ne] at hshare
    exact hw.addr_ne hmem (h.listed.1.headers.apart a hold y hymem (hg.trans hshare.symm))
  · rw [← hy, hfreed.after] at hnone
    cases hnone
  · rw [← hy, hfreed.after]
    exact Option.some_ne_none f

end Potatos
