import Potatos.Mem.InitVmm

/-!
# Giving regions back

`vmm_free` on the page tables and the bitmap, with the frame that the tables map as the result of
`get_physical_address`. It takes the header's frame for free in the bitmap and then calls `map_page`
for the header with the address 0 and no flags. `map_page` does not write an entry that is present,
so the page stays mapped (`mapPage_of_mapped`), and no call undoes the backing of a region
(`vmmFree_undoes_never`), nor does any call after allocations from `init_vmm` on (`regions_freed`).
The pages behind the header are not looked at.
-/

namespace Potatos

open Lib RegionMemory

/-! ## `vmm_free` -/

/-- What `vmm_free` does with a region that it found: `set_page_free` of the header's frame, and
`map_page` of the header to nothing. -/
def releaseRegion (p4_table : ℕ) (s : Paged PhysicalPages) (target_address : ℕ) :
    Option (Paged PhysicalPages) := do
  let physical_address ← s.mem.translate p4_table target_address
  let bitmap := s.frames.bitmap.setPageFree (physical_address / PAGE_SIZE)
  mapPage PhysicalPages.allocate p4_table { s with frames := { s.frames with bitmap := bitmap } }
    target_address 0 0

/-- `vmm_free` in the memory of the kernel. -/
def kernelFree (p4_table fuel : ℕ) (s : Paged PhysicalPages) (vm_root address : ℕ) :
    Option (Paged PhysicalPages) :=
  (kernelMemory p4_table).vmmFree (releaseRegion p4_table) fuel s vm_root address

/-- What giving back the `k` pages from the address `base` on would be. -/
structure Undone (p4_table : ℕ) (s s' : Paged PhysicalPages) (base k : ℕ) : Prop where
  unmapped : ∀ i < k, s'.mem.walk p4_table (base + i * PAGE_SIZE) = none
  free : ∀ i < k, ∀ f, s.mem.walk p4_table (base + i * PAGE_SIZE) = some f →
    s'.frames.bitmap.isPageFree f = true
  walks : ∀ a, (∀ i < k, a / PAGE_SIZE ≠ (base + i * PAGE_SIZE) / PAGE_SIZE) →
    s'.mem.walk p4_table a = s.mem.walk p4_table a
  bits : ∀ f, (∀ i < k, s.mem.walk p4_table (base + i * PAGE_SIZE) ≠ some f) →
    s'.frames.bitmap.isPageFree f = s.frames.bitmap.isPageFree f

variable {p4_table reserve hi vm_root fuel k : ℕ} {s s' : Paged PhysicalPages} {a x y : Region}
  {l r : List Region}

/-- The release of a mapped page only clears its bit in the bitmap. -/
theorem releaseRegion_eq (hself : s.mem.next p4_table 510 = some p4_table) {target_address f : ℕ}
    (hwalk : s.mem.walk p4_table target_address = some f) :
    releaseRegion p4_table s target_address =
      some ⟨s.mem, ⟨s.frames.bitmap.setPageFree f, s.frames.ran_out⟩⟩ := by
  have hpage : (f * 4096 + target_address % 4096) / PAGE_SIZE = f := by
    unfold PAGE_SIZE
    omega
  have hphys : s.mem.translate p4_table target_address =
      some (f * 4096 + target_address % 4096) := by
    rw [PhysMem.translate, hwalk]
    rfl
  -- The page is mapped, so the call with address 0 changes nothing.
  have hkeep : ∀ t : Paged PhysicalPages, t.mem = s.mem →
      mapPage PhysicalPages.allocate p4_table t target_address 0 0 = some t := by
    intro t ht
    refine mapPage_of_mapped ?_ 0 0 ?_
    · rw [ht]
      exact hself
    · rw [ht, hwalk]
      exact Option.some_ne_none f
  rw [releaseRegion, hphys, Option.bind_eq_bind, Option.bind_some, hpage]
  exact hkeep _ rfl

/-- The release returns only on a mapped page. -/
theorem walk_of_releaseRegion {target_address : ℕ}
    (h : releaseRegion p4_table s target_address = some s') :
    ∃ f, s.mem.walk p4_table target_address = some f := by
  obtain ⟨_, hphys, -⟩ := Option.bind_eq_some_iff.mp h
  obtain ⟨f, hf, -⟩ := Option.map_eq_some_iff.mp hphys
  exact ⟨f, hf⟩

/-- The loop of `vmm_free` comes to each header of the list, unless it has found its target
before. -/
theorem freeLoop_passes {σ : Type} {M : RegionMemory σ} {s res : σ}
    {release : σ → ℕ → Option σ} {target : ℕ} (hroot : vm_root ≠ 0) (ha : M.OnList s vm_root a)
    (h : M.freeLoop release target fuel s vm_root 0 = some res) :
    ∃ current fuel prev, M.freeLoop release target fuel s current prev = some res ∧ current ≠ 0 ∧
      (current = a.addr ∨ current = target) ∧
      (prev = 0 ∨ ∃ b, M.OnList s vm_root b ∧ b.addr = prev) := by
  induction ha with
  | root _ => exact ⟨vm_root, fuel, 0, h, hroot, Or.inl rfl, Or.inl rfl⟩
  | @next b n _ hb hnext hn _ ih =>
    obtain ⟨current, fuel, prev, hloop, hcurrent, hcase, hprev⟩ := ih
    by_cases htarget : current = target
    · exact ⟨current, fuel, prev, hloop, hcurrent, Or.inr htarget, hprev⟩
    · -- One pass further, from this header to the next one.
      obtain rfl : current = b.addr := hcase.resolve_right htarget
      cases fuel with
      | zero => cases hloop
      | succ fuel =>
        rw [freeLoop, if_neg hcurrent, if_neg htarget, hnext, Option.bind_eq_bind,
          Option.bind_some] at hloop
        exact ⟨n, fuel, b.addr, hloop, hn, Or.inl rfl, Or.inr ⟨b, hb, rfl⟩⟩

/-- A call for a region on the list unlinks it from a header before it, and releases it. -/
theorem vmmFree_onList {σ : Type} {M : RegionMemory σ} {s res : σ} {release : σ → ℕ → Option σ}
    (hroot : vm_root ≠ 0) (ha : M.OnList s vm_root a) (hlt : a.addr + 16 < 2^64)
    (h : M.vmmFree release fuel s vm_root (a.addr + 16) = some res) :
    ∃ prev next t, (prev = 0 ∨ ∃ b, M.OnList s vm_root b ∧ b.addr = prev) ∧
      M.setNext s prev next = some t ∧ release t a.addr = some res := by
  rw [vmmFree, show sizeofVmmRegion = 16 from rfl, subw_header hlt] at h
  obtain ⟨current, fuel, prev, hloop, hcurrent, hcase, hprev⟩ := freeLoop_passes hroot ha h
  obtain rfl : current = a.addr := hcase.elim id id
  cases fuel with
  | zero => cases hloop
  | succ fuel =>
    rw [freeLoop, if_neg hcurrent, if_pos rfl] at hloop
    obtain ⟨next, -, hloop⟩ := Option.bind_eq_some_iff.mp hloop
    obtain ⟨t, ht, hloop⟩ := Option.bind_eq_some_iff.mp hloop
    exact ⟨prev, next, t, hprev, ht, hloop⟩

/-- The self-map is in place, and its slot is not a link of the list. -/
structure SelfMapped (p4_table vm_root : ℕ) (s : Paged PhysicalPages) : Prop where
  self : s.mem.next p4_table 510 = some p4_table
  apart : ∀ b, (kernelMemory p4_table).OnList s vm_root b →
    s.mem.walk p4_table b.addr = some p4_table → field b.addr 3 ≠ 510

/-- A store elsewhere leaves the self-map in place. -/
theorem self_of_store {prev v : ℕ} (hself : s.mem.next p4_table 510 = some p4_table)
    (hprev : s.mem.walk p4_table prev = some p4_table → field prev 3 ≠ 510)
    (h : (kernelMemory p4_table).setNext s prev v = some s') :
    s'.mem.next p4_table 510 = some p4_table := by
  obtain ⟨m, hm, rfl⟩ := Option.map_eq_some_iff.mp h
  obtain ⟨f, hwalk, rfl⟩ := Option.map_eq_some_iff.mp hm
  have hkeep : s.mem.set f (field prev 3) v p4_table 510 = s.mem p4_table 510 := by
    by_cases hf : p4_table = f
    · subst hf
      exact PhysMem.set_other (hprev hwalk).symm
    · rw [PhysMem.set_of_ne hf]
  exact (PhysMem.next_congr hkeep).trans hself

/-- No call of `vmm_free` undoes the backing of a region of the list, in any state with the
self-map: a call that returns leaves the header mapped, to the frame that it takes for free. -/
theorem vmmFree_undoes_never (hmapped : SelfMapped p4_table vm_root s) (hroot : vm_root ≠ 0)
    (ha : (kernelMemory p4_table).OnList s vm_root a) (hlt : a.addr + 16 < 2^64)
    (hsize : PAGE_SIZE ≤ a.size) :
    ∀ fuel s', kernelFree p4_table fuel s vm_root (a.addr + 16) = some s' →
      (∃ f, s'.mem.walk p4_table a.addr = some f ∧
        s'.frames.bitmap = s.frames.bitmap.setPageFree f) ∧
      ¬ Undone p4_table s s' a.addr (a.size / PAGE_SIZE) := by
  intro fuel s' h
  obtain ⟨prev, next, t, hprev, ht, hrelease⟩ := vmmFree_onList hroot ha hlt h
  -- The one store before the release is into a header or at `NULL`, and not into the self-map.
  have hapart : s.mem.walk p4_table prev = some p4_table → field prev 3 ≠ 510 := by
    rcases hprev with rfl | ⟨b, hb, rfl⟩
    · exact fun _ => by decide
    · exact hmapped.apart b hb
  obtain ⟨f, hf⟩ := walk_of_releaseRegion hrelease
  rw [releaseRegion_eq (self_of_store hmapped.self hapart ht) hf] at hrelease
  obtain rfl := Option.some.inj hrelease
  -- The first page of the region is still mapped.
  refine ⟨⟨f, hf, by rw [store_frames ht]⟩, fun hundone => ?_⟩
  have hpages : 0 < a.size / PAGE_SIZE := Nat.div_pos hsize (by norm_num [PAGE_SIZE])
  have hnone := hundone.unmapped 0 hpages
  rw [Nat.zero_mul, Nat.add_zero] at hnone
  exact Option.some_ne_none f (hf.symm.trans hnone)

/-! ## `vmm_free` on a row of regions -/

/-- What a call of `vmm_free` for the region of the header `base` does: it clears the bit of the
header's frame `f` in the bitmap, and no address notices. -/
structure Freed (p4_table : ℕ) (s s' : Paged PhysicalPages) (base f : ℕ) : Prop where
  before : s.mem.walk p4_table base = some f
  after : s'.mem.walk p4_table base = some f
  free : s'.frames.Free f
  walks : ∀ b, field b 39 ≠ 510 → s'.mem.walk p4_table b = s.mem.walk p4_table b
  bits : ∀ g, g ≠ f → s'.frames.bitmap.isPageFree g = s.frames.bitmap.isPageFree g

/-- Such a call gives no region back. -/
theorem Freed.not_undone {base f : ℕ} (h : Freed p4_table s s' base f) (hk : 1 ≤ k) :
    ¬ Undone p4_table s s' base k := by
  intro hundone
  have hnone := hundone.unmapped 0 hk
  rw [Nat.zero_mul, Nat.add_zero] at hnone
  exact Option.some_ne_none f (h.after.symm.trans hnone)

/-- The link that `vmm_free` stores takes the region out of the row. -/
theorem Backed.unlink {x z : Region} (h : Backed p4_table reserve vm_root s (l ++ x :: z :: r) hi)
    (hlink : (kernelMemory p4_table).setNext s x.addr (headAddr r) = some s') :
    s'.frames = s.frames ∧ InOrder p4_table reserve s' ∧
      (∀ b, field b 39 ≠ 510 → s'.mem.walk p4_table b = s.mem.walk p4_table b) ∧
      (kernelMemory p4_table).RegionsAt s' vm_root (l ++ x :: r) := by
  obtain ⟨hxlo, hxhi, hxpage⟩ := h.header (x := x) (by simp)
  obtain ⟨_, hs', hframes, hback, hself, hother⟩ :=
    h.backing.store (a := x.addr) (v := headAddr r) hxlo (by omega) (by omega)
  obtain rfl := Option.some.inj (hlink.symm.trans hs')
  obtain ⟨hwalks, -⟩ := h.backing.store_walk hxlo (by omega) hlink
  obtain ⟨hsame, hxsize⟩ := h.header_congr hother
  obtain ⟨hl, a, t, ht, ha⟩ := h.regions
  obtain ⟨t', ht'⟩ := head_of_split ht.symm r
  refine ⟨hframes, hback.inOrder, hwalks, hl.unlink (fun b hb => hsame b ?_) hself hxsize, a, t',
    ht', ha⟩
  exact ((List.sublist_cons_self z r).append_left l).subset hb

/-- On a row of regions `vmm_free` returns, for a region other than the root. -/
theorem Backed.free {rs : List Region} (h : Backed p4_table reserve vm_root s rs hi)
    (hy : y ∈ rs) (hne : y.addr ≠ vm_root) (hfuel : rs.length < fuel) :
    ∃ s' f, kernelFree p4_table fuel s vm_root (y.addr + 16) = some s' ∧
      Freed p4_table s s' y.addr f ∧
      ∃ l x r, rs = l ++ x :: y :: r ∧
        (kernelMemory p4_table).RegionsAt s' vm_root (l ++ x :: r) := by
  obtain ⟨hl, a, t, rfl, rfl⟩ := h.regions
  have hbottom := h.backing.bottom
  have htop := h.backing.top
  obtain ⟨hylo, hyhi, -⟩ := h.header hy
  have hwindow : InWindow y.addr := ⟨by omega, by omega⟩
  have htarget : subw (y.addr + 16) 16 = y.addr := subw_header (by omega)
  have hmem : y ∈ t := (List.mem_cons.mp hy).resolve_left
    (fun heq => hne (congrArg Region.addr heq))
  obtain ⟨fuel, rfl⟩ : ∃ k, fuel = k + 1 := ⟨fuel - 1, by rw [List.length_cons] at hfuel; omega⟩
  have hlen : t.length < fuel := by rw [List.length_cons] at hfuel; omega
  rw [kernelFree, vmmFree_linked hl (htarget.symm ▸ hne.symm), htarget]
  rcases freeLoop_linked (releaseRegion p4_table) y.addr hl hlen with
    ⟨l, x, z, r, hsplit, hz, heq⟩ | ⟨hnone, -⟩
  · -- The region that the loop finds is the one that was asked for.
    have hzmem : z ∈ a :: t := by rw [hsplit]; simp
    have hxmem : x ∈ a :: t := by rw [hsplit]; simp
    obtain rfl : z = y := h.wellFormed.ordered.eq_of_start hzmem hy h.wellFormed.pos hz
    obtain ⟨f, hf, hdata⟩ := h.backing.mapped z.addr hylo (by omega)
    obtain ⟨hxlo, hxhi, hxpage⟩ := h.header hxmem
    obtain ⟨s₁, h₁, -⟩ :=
      h.backing.store (a := x.addr) (v := headAddr r) hxlo (by omega) (by omega)
    obtain ⟨hframes, hinOrder, hwalks, hlist, hhead⟩ := (hsplit ▸ h).unlink h₁
    -- The store into the link has changed no walk.
    have hf₁ := (hwalks z.addr hwindow.ne).trans hf
    rw [heq, setNext, h₁, Option.bind_some, releaseRegion_eq hinOrder.paged.self hf₁]
    have hlt : f < s₁.frames.bitmap.total_pages := hframes ▸ hdata.lt
    refine ⟨_, f, rfl, ⟨hf, hf₁, ⟨?_, ?_⟩, hwalks, fun g hg => ?_⟩, l, x, r, hsplit,
      hlist.congr (fun _ _ => ⟨rfl, rfl⟩), hhead⟩
    · rw [Bitmap.setPageFree_total_pages]
      exact hlt
    · rw [Bitmap.isPageFree_setPageFree hinOrder.small, if_pos ⟨rfl, hlt⟩]
    · rw [Bitmap.isPageFree_setPageFree hinOrder.small, if_neg (fun hc => hg hc.1), hframes]
  · exact absurd rfl (hnone y hmem)

/-! ## After `init_vmm` -/

namespace Machine

variable {K : Machine}

/-- The row of regions does not touch the self-map. -/
theorem Rows.selfMapped (h : K.Rows s) : SelfMapped K.image.p4_table K.vmRoot s := by
  obtain ⟨hi, hback, hon, -⟩ := h.regions
  refine ⟨hback.inOrder.paged.self, fun b hb hwalk => absurd hwalk ?_⟩
  obtain ⟨hlo, hstop⟩ := hon b hb
  have htop := hback.top
  rcases Nat.lt_or_ge b.addr hi with hlt | hge
  · obtain ⟨f, hf, hdata⟩ := hback.mapped b.addr hlo hlt
    rw [hf]
    rintro ⟨rfl⟩
    exact hdata.held.1 ⟨0, Nat.zero_le 3, at_zero.mpr rfl⟩
  · have hend : b.addr = hi := by
      unfold Region.stop at hstop
      omega
    rw [hback.unmapped b.addr hge (by omega)]
    exact (Option.some_ne_none _).symm

/-- In every state that calls of `vmm_allocate` reach from `init_vmm`, `vmm_free` returns for every
region but the root, and gives nothing back: the header stays mapped to a frame that the bitmap then
hands out, and the other pages stay as they were. -/
theorem regions_freed {s₀ : Paged PhysicalPages} {ts : List (Transition (Paged PhysicalPages) ℕ)}
    (hinit : initVmm K.image K.boot = some s₀) (hnext : K.kernel.next s₀ K.vmRoot = some 0)
    (hrun : Run K.AllocateStep s₀ ts s) (hbelow : ∀ x ∈ ts, K.EndsBelow x.pre x.label)
    (hout : s.frames.ran_out = false) (ha : K.kernel.OnList s K.vmRoot a)
    (hne : a.addr ≠ K.vmRoot) (hsize : PAGE_SIZE ≤ a.size) :
    ∃ fuel s' f, kernelFree K.image.p4_table fuel s K.vmRoot (a.addr + 16) = some s' ∧
      Freed K.image.p4_table s s' a.addr f := by
  rcases rows_of_run hinit hnext hrun hbelow hout with ⟨rs, hi, hb⟩ | ⟨z, hi, hc⟩
  · obtain ⟨s', f, hcall, hfreed, -⟩ :=
      hb.free (hb.regions.mem_of_onList ha) hne (Nat.lt_succ_self rs.length)
    exact ⟨_, s', f, hcall, hfreed⟩
  · -- The only other region of a collapsed row has no page.
    have hmem := hc.onList ha
    rcases hmem with rfl | rfl
    · exact absurd rfl hne
    · exact absurd hsize (by norm_num [PAGE_SIZE])

/-- On the row of two regions after one allocation. -/
theorem vmmFree_undoes_never_small : ∃ s a, (small 16416).kernel.OnList s (small 16416).vmRoot a ∧
    ∀ fuel s', kernelFree 256 fuel s (small 16416).vmRoot (a.addr + 16) = some s' →
      (∃ f, s'.mem.walk 256 a.addr = some f ∧
        s'.frames.bitmap = s.frames.bitmap.setPageFree f) ∧
      ¬ Undone 256 s s' a.addr (a.size / PAGE_SIZE) := by
  obtain ⟨s₀, s, fuel, -, -, -, -, -, hback⟩ := small_allocated
  obtain ⟨hlo, hhi, -⟩ := (small 16416).vmRoot_bounds
  have hrows : (small 16416).Rows s := Or.inl ⟨_, _, hback⟩
  have hlist := hback.regions.1
  have hroot : (small 16416).kernel.OnList s (small 16416).vmRoot ⟨(small 16416).vmRoot, 4096⟩ :=
    .root hlist.2.2.1
  have hsecond := RegionMemory.OnList.next hroot hlist.2.1 hlist.2.2.2.1 hlist.2.2.2.2.2.1
  exact ⟨s, _, hsecond, vmmFree_undoes_never hrows.selfMapped (by omega) hsecond
    (by show (small 16416).vmRoot + 4096 + 16 < _; omega) (le_refl 4096)⟩

/-- After one allocation, giving the region back leaves its page mapped to a free frame. -/
theorem not_undone_small : ∃ s₀ s s' fuel p f,
    initVmm (small 16416).image (small 16416).boot = some s₀ ∧
    (small 16416).kernel.vmmAllocate fuel s₀ (small 16416).vmRoot 100 = some (p, s) ∧
    s.frames.ran_out = false ∧
    kernelFree 256 3 s (small 16416).vmRoot p = some s' ∧
    s'.mem.walk 256 (p - 16) = some f ∧ s'.frames.Free f ∧ ¬ Undone 256 s s' (p - 16) 1 := by
  obtain ⟨s₀, s, fuel, hinit, -, -, hcall, hgood, hback⟩ := small_allocated
  obtain ⟨s', f, hfree, hfreed, -⟩ := hback.free
    (y := ⟨(small 16416).vmRoot + 4096, 4096⟩) (by simp)
    (by show (small 16416).vmRoot + 4096 ≠ _; omega) (Nat.lt_succ_self _)
  exact ⟨s₀, s, s', fuel, _, f, hinit, hcall, hgood, hfree, hfreed.after, hfreed.free,
    hfreed.not_undone (le_refl 1)⟩

end Machine

end Potatos
