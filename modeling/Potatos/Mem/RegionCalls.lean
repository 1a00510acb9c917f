import Potatos.Mem.ListedRegions
import Potatos.Mem.OutOfMemory

/-!
# Any calls on the list of regions

Runs of `vmm_allocate` and of `vmm_free` from `init_vmm` on, on the page tables and the bitmap, with
the frame that the tables map as the result of `get_physical_address` in `vmm_free`.

While there is room for each request (`Room`), every state that the calls reach has a list of
regions that starts at the root, in order and apart (`region_list`), and each call does to it what
it is to do: `vmm_allocate` inserts one region behind the first that a large enough gap follows, or
behind the last, and `vmm_free` takes out the one whose header is before the pointer, if there is
one. Once the allocator has run out two headers share frame 0, and the list bends back on itself
(`list_bends_small`).

`vmm_allocate` has two ends. Behind the last region it adds the size of the header to an integer,
and the pointer is sixteen bytes into the region. In a gap it adds it to a pointer to headers, and
the pointer is sixteen headers in, 256 bytes. `vmm_free` looks for a header sixteen bytes before the
pointer, so it finds the region only in the first case (`vmmAllocate_agrees_iff`).
-/

namespace Potatos

open Lib RegionMemory

inductive VmmOp where
  | allocate (size : ℕ)
  | free (address : ℕ)

namespace Machine

variable {K : Machine} {s₀ s s' : Paged PhysicalPages} {rs l r : List Region} {x y : Region}
  {n p fuel hi hi' size : ℕ}

/-- A call that returns. -/
inductive Call (K : Machine) : Paged PhysicalPages → VmmOp → Paged PhysicalPages → Prop where
  | allocate {fuel n p : ℕ} {s s' : Paged PhysicalPages} :
      K.kernel.vmmAllocate fuel s K.vmRoot n = some (p, s') → Call K s (.allocate n) s'
  | free {fuel p : ℕ} {s s' : Paged PhysicalPages} :
      kernelFree K.image.p4_table fuel s K.vmRoot p = some s' → Call K s (.free p) s'

/-- The calls that are allowed: a request that does not wrap and for which there is room, and a
pointer that is not the root's. -/
def Allowed (K : Machine) (s : Paged PhysicalPages) : VmmOp → Prop
  | .allocate n => n + 16 + 4095 < 2^64 ∧
      ∀ rs, K.kernel.RegionsAt s K.vmRoot rs → Room K.image.p4_table K.vmRoot s rs (regionSize n)
  | .free p => p < 2^64 ∧ p ≠ K.vmRoot + 16

/-- What `vmm_allocate` does to the list. -/
structure Allocates (K : Machine) (s : Paged PhysicalPages) (rs : List Region) (n : ℕ)
    (l : List Region) (x : Region) (r : List Region) (s' : Paged PhysicalPages) : Prop where
  returns : ∃ p, ∀ fuel, rs.length < fuel → K.kernel.vmmAllocate fuel s K.vmRoot n = some (p, s')
  split : rs = l ++ x :: r
  size : regionSize n = (n + 16 + 4095) / 4096 * 4096
  first : FirstGap (regionSize n) l x r
  regions : K.kernel.RegionsAt s' K.vmRoot (l ++ x :: ⟨x.stop, regionSize n⟩ :: r)
  wellFormed : WellFormed (l ++ x :: ⟨x.stop, regionSize n⟩ :: r)

/-- What `vmm_free` does to the list. -/
structure Frees (K : Machine) (s : Paged PhysicalPages) (rs : List Region) (p : ℕ)
    (rs' : List Region) (s' : Paged PhysicalPages) : Prop where
  returns : ∀ fuel, rs.length < fuel → kernelFree K.image.p4_table fuel s K.vmRoot p = some s'
  removed : (∃ l y r, rs = l ++ y :: r ∧ y.addr = subw p 16 ∧ rs' = l ++ r) ∨
    ((∀ y ∈ rs, y.addr ≠ subw p 16) ∧ rs' = rs)
  regions : K.kernel.RegionsAt s' K.vmRoot rs'
  wellFormed : WellFormed rs'

/-- A list of the machine. -/
abbrev Lists (K : Machine) (s : Paged PhysicalPages) (rs : List Region) (hi : ℕ) : Prop :=
  Listed K.image.p4_table K.reserve K.vmRoot s rs hi

theorem Allowed.room (h : K.Allowed s (.allocate n)) (hl : K.Lists s rs hi) :
    0 < regionSize n ∧ Room K.image.p4_table K.vmRoot s rs (regionSize n) := by
  have hsize := le_regionSize h.1
  exact ⟨by omega, h.2 rs hl.regions⟩

/-- An allowed pointer is not the root's, also where it wraps. -/
theorem Allowed.subw_ne (h : K.Allowed s (.free p)) : subw p 16 ≠ K.vmRoot := by
  obtain ⟨hp, hne⟩ := h
  have hroot := K.vmRoot_bounds
  unfold subw
  omega

theorem Lists.allocate (hl : K.Lists s rs hi) (hn : K.Allowed s (.allocate n)) :
    ∃ l x r s', K.Allocates s rs n l x r s' ∧
      ∃ hi', K.Lists s' (l ++ x :: ⟨x.stop, regionSize n⟩ :: r) hi' := by
  obtain ⟨hpos, hroom⟩ := hn.room hl
  obtain ⟨l, x, r, p, s', hi', hsplit, hfirst, hcall, hl', -⟩ :=
    Listed.allocate hl hpos (Nat.lt_succ_self _) hroom
  exact ⟨l, x, r, s', ⟨⟨p, fun fuel hfuel => vmmAllocate_mono hcall hfuel⟩, hsplit,
    regionSize_eq hn.1, hfirst, hl'.regions, hl'.wellFormed⟩, hi', hl'⟩

theorem Lists.free (hl : K.Lists s rs hi) (hp : K.Allowed s (.free p)) :
    ∃ rs' s', K.Frees s rs p rs' s' ∧ K.Lists s' rs' hi := by
  obtain ⟨s', hcall, hcase⟩ := Listed.free hl (Nat.lt_succ_self _) hp.subw_ne
  have hreturns : ∀ fuel, rs.length < fuel →
      kernelFree K.image.p4_table fuel s K.vmRoot p = some s' :=
    fun fuel hfuel => vmmFree_mono hcall hfuel
  rcases hcase with ⟨l, x, y, r, rfl, hy, hl'⟩ | ⟨hnone, rfl⟩
  · -- The region is taken out behind `x`.
    exact ⟨l ++ x :: r, s', ⟨hreturns, Or.inl ⟨l ++ [x], y, r, by simp, hy, by simp⟩,
      hl'.regions, hl'.wellFormed⟩, hl'⟩
  · exact ⟨rs, s', ⟨hreturns, Or.inr ⟨hnone, rfl⟩, hl.regions, hl.wellFormed⟩, hl⟩

/-- An allowed call leaves a list. -/
theorem Call.lists {op : VmmOp} (hcall : K.Call s op s') (hop : K.Allowed s op)
    (hl : K.Lists s rs hi) : ∃ rs' hi', K.Lists s' rs' hi' := by
  cases hcall with
  | @allocate fuel n p _ _ hcall =>
    obtain ⟨l, x, r, t, ha, hi', hl'⟩ := hl.allocate hop
    obtain ⟨q, hq⟩ := ha.returns
    have h1 := vmmAllocate_mono hcall (show fuel ≤ fuel + rs.length + 1 by omega)
    have h2 := hq (fuel + rs.length + 1) (by omega)
    obtain ⟨-, rfl⟩ := Prod.mk.inj (Option.some.inj (h1.symm.trans h2))
    exact ⟨_, hi', hl'⟩
  | @free fuel p _ _ hcall =>
    obtain ⟨rs', t, hf, hl'⟩ := hl.free hop
    have h1 := vmmFree_mono hcall (show fuel ≤ fuel + rs.length + 1 by omega)
    have h2 := hf.returns (fuel + rs.length + 1) (by omega)
    obtain rfl := Option.some.inj (h1.symm.trans h2)
    exact ⟨rs', hi, hl'⟩

/-! ## Runs -/

theorem allowed_of_backed (h : Backed K.image.p4_table K.reserve K.vmRoot s rs hi)
    (hn : n + 16 + 4095 < 2^64) (htop : hi + regionSize n < 510 * 2^30)
    (henough : s.frames.Enough (4 * (regionSize n / 4096))) : K.Allowed s (.allocate n) := by
  have hsize := le_regionSize hn
  exact ⟨hn, fun rs' hrs => hrs.unique h.regions ▸
    h.room (regionSize_page n) htop (by omega) henough⟩

/-- The gap between two regions is room for a request that fits there. -/
theorem Lists.allowed_gap (hl : K.Lists s [x, y] hi)
    (hown : Unshared K.image.p4_table s [x, y] x.stop) (hn : n + 16 + 4095 < 2^64)
    (hgap : x.stop + regionSize n ≤ y.addr) : K.Allowed s (.allocate n) := by
  refine ⟨hn, fun rs hrs l z r hsplit hfirst => ?_⟩
  obtain rfl := hrs.unique hl.regions
  obtain ⟨rfl, rfl, rfl⟩ := hfirst.of_two hsplit hgap
  exact ⟨hown, fun hnil => absurd hnil (List.cons_ne_nil y [])⟩

/-- The states after two allocations of a page each, and after the first of them is freed. -/
structure Gap (K : Machine) (s₀ s₁ s₂ s₃ : Paged PhysicalPages) : Prop where
  first : ∃ fuel, K.kernel.vmmAllocate fuel s₀ K.vmRoot 100 = some (K.vmRoot + 4096 + 16, s₁)
  second : ∃ fuel,
    K.kernel.vmmAllocate fuel s₁ K.vmRoot 100 = some (K.vmRoot + 4096 + 4096 + 16, s₂)
  freed : ∃ fuel,
    kernelFree K.image.p4_table fuel s₂ K.vmRoot (K.vmRoot + 4096 + 16) = some s₃
  allowed₀ : K.Allowed s₀ (.allocate 100)
  allowed₁ : K.Allowed s₁ (.allocate 100)
  allowed₃ : K.Allowed s₃ (.allocate 100)
  backed : Backed K.image.p4_table K.reserve K.vmRoot s₁
    [⟨K.vmRoot, 4096⟩, ⟨K.vmRoot + 4096, 4096⟩] (K.vmRoot + 4096 + 4096)
  lists : ∃ hi, K.Lists s₃ [⟨K.vmRoot, 4096⟩, ⟨K.vmRoot + 4096 + 4096, 4096⟩] hi
  fits : K.vmRoot + 4096 + regionSize 100 ≤ K.vmRoot + 4096 + 4096

/-- Eight free pages are enough for them. -/
theorem Started.gap {d : ℕ} (h : K.Started s₀ d) (hnext : K.kernel.next s₀ K.vmRoot = some 0)
    (henough : s₀.frames.Enough 8) : ∃ s₁ s₂ s₃, K.Gap s₀ s₁ s₂ s₃ := by
  obtain ⟨hlo, hhi, -⟩ := K.vmRoot_bounds
  have hsize : regionSize 100 = 4096 := by decide
  have hsmall : (100 : ℕ) + 16 + 4095 < 2^64 := by norm_num
  have hpos : 0 < regionSize 100 := by rw [hsize]; norm_num
  have htop₀ : K.vmRoot + 4096 + regionSize 100 < 510 * 2^30 := by rw [hsize]; omega
  have htop₁ : K.vmRoot + 4096 + 4096 + regionSize 100 < 510 * 2^30 := by rw [hsize]; omega
  have h₀ := h.backed hnext
  obtain ⟨f₁, s₁, hfirst, henough₁, h₁⟩ := h₀.allocate_next (k := 4) hpos htop₀
    (by rw [hsize]; exact henough)
  rw [hsize] at h₁
  obtain ⟨f₂, s₂, hsecond, -, h₂⟩ := h₁.allocate_next (k := 0) hpos htop₁
    (by rw [hsize]; exact henough₁)
  simp only [hsize, List.cons_append, List.nil_append] at h₁ h₂
  obtain ⟨s₃, hfree, hlists, hown, -⟩ := Backed.free_own (l := []) h₂ (Nat.lt_succ_self _)
  have hfits : K.vmRoot + 4096 + regionSize 100 ≤ K.vmRoot + 4096 + 4096 := by
    rw [hsize]
  have hallowed₀ : K.Allowed s₀ (.allocate 100) :=
    allowed_of_backed h₀ hsmall htop₀ (by rw [hsize]; exact henough.less (by norm_num))
  have hallowed₁ : K.Allowed s₁ (.allocate 100) :=
    allowed_of_backed h₁ hsmall htop₁ (by rw [hsize]; exact henough₁)
  exact ⟨s₁, s₂, s₃, ⟨f₁, hfirst⟩, ⟨f₂, hsecond⟩, ⟨_, hfree⟩, hallowed₀, hallowed₁,
    Lists.allowed_gap hlists hown hsmall hfits, h₁, ⟨_, hlists⟩, hfits⟩

/-- The state, and the pointers that `vmm_allocate` returned. -/
structure VmmState where
  pages : Paged PhysicalPages
  returned : List ℕ

/-- A call that returns, of `vmm_free` for a pointer that `vmm_allocate` returned. -/
inductive VmmStep (K : Machine) : VmmState → VmmOp → VmmState → Prop where
  | allocate {s : VmmState} {fuel n p : ℕ} {s' : Paged PhysicalPages} :
      K.kernel.vmmAllocate fuel s.pages K.vmRoot n = some (p, s') →
      VmmStep K s (.allocate n) ⟨s', p :: s.returned⟩
  | free {s : VmmState} {fuel p : ℕ} {s' : Paged PhysicalPages} :
      p ∈ s.returned → kernelFree K.image.p4_table fuel s.pages K.vmRoot p = some s' →
      VmmStep K s (.free p) ⟨s', s.returned⟩

/-- The request does not wrap, and there is room for it. -/
def Served (K : Machine) (s : VmmState) : VmmOp → Prop
  | .allocate n => K.Allowed s.pages (.allocate n)
  | .free _ => True

/-- The allocation `p` of `n` bytes lies in the new region behind its header, and freeing it right
away gives the old list again. -/
structure Agrees (K : Machine) (s : Paged PhysicalPages) (n p : ℕ) (s' : Paged PhysicalPages) :
    Prop where
  inside : ∀ rs rs', K.kernel.RegionsAt s K.vmRoot rs → K.kernel.RegionsAt s' K.vmRoot rs' →
    ∃ l new r, rs = l ++ r ∧ rs' = l ++ new :: r ∧ new.addr + 16 ≤ p ∧ p + n ≤ new.stop
  undone : ∀ rs, K.kernel.RegionsAt s K.vmRoot rs →
    ∃ fuel t, kernelFree K.image.p4_table fuel s' K.vmRoot p = some t ∧
      K.kernel.RegionsAt t K.vmRoot rs

/-- There is a list, and the pointers that were returned are behind the root's. -/
structure VmmState.Inv (K : Machine) (s : VmmState) : Prop where
  lists : ∃ rs hi, K.Lists s.pages rs hi
  returned : ∀ p ∈ s.returned, K.vmRoot + 16 < p ∧ p < 2^64

/-- What an allocation returns is behind the pointer to the root region. -/
theorem Lists.pointer (hl : K.Lists s (l ++ x :: r) hi) :
    K.vmRoot + 16 < x.stop + 16 ∧ x.stop + 256 < 2^64 := by
  have htop := hl.headers.covered.top
  obtain ⟨hlo, hstop, hhi, -⟩ := Listed.bounds hl (a := x) (by simp)
  omega

/-- Both calls keep the invariant. -/
theorem VmmState.Inv.step {s s' : VmmState} {op : VmmOp} (h : s.Inv K) (hop : K.Served s op)
    (hstep : K.VmmStep s op s') : s'.Inv K := by
  obtain ⟨⟨rs, hi, hl⟩, hreturned⟩ := h
  cases hstep with
  | @allocate fuel n p t hcall =>
    refine ⟨(Call.allocate hcall).lists hop hl, fun q hq => ?_⟩
    rcases List.mem_cons.mp hq with rfl | hq
    · -- The call that returned is the one with fuel for the whole list.
      obtain ⟨hpos, hroom⟩ := Allowed.room hop hl
      obtain ⟨l, x, r, p, t', -, rfl, -, hcall', -, hp⟩ :=
        Listed.allocate hl hpos (Nat.le_add_left _ fuel) hroom
      have hmono := vmmAllocate_mono hcall (Nat.le_add_right fuel (l ++ x :: r).length.succ)
      obtain ⟨rfl, -⟩ := Prod.mk.inj (Option.some.inj (hmono.symm.trans hcall'))
      have hpointer := hl.pointer
      omega
    · exact hreturned q hq
  | @free fuel p t hmem hcall =>
    obtain ⟨hp, hlt⟩ := hreturned p hmem
    have hop : K.Allowed s.pages (.free p) := ⟨hlt, by omega⟩
    exact ⟨(Call.free hcall).lists hop hl, hreturned⟩

/-- A pointer behind a header lies in its region, and `vmm_free` takes that region out. -/
theorem Lists.agrees (hl : K.Lists s (l ++ x :: r) hi)
    (hl' : K.Lists s' (l ++ x :: ⟨x.stop, size⟩ :: r) hi') (hsize : n + 16 ≤ size) :
    K.Agrees s n (x.stop + 16) s' := by
  obtain ⟨hroot, hptop⟩ := hl.pointer
  refine ⟨fun rs rs' hrs hrs' => ?_, fun rs hrs => ?_⟩
  · rw [hrs.unique hl.regions, hrs'.unique hl'.regions]
    refine ⟨l ++ [x], ⟨x.stop, size⟩, r, by simp, by simp, le_refl _, ?_⟩
    show x.stop + 16 + n ≤ x.stop + size
    omega
  · rw [hrs.unique hl.regions]
    have htarget : subw (x.stop + 16) 16 = x.stop := subw_header (by omega)
    obtain ⟨t, hfree, hcase⟩ := Listed.free hl' (Nat.lt_succ_self _) (by rw [htarget]; omega)
    refine ⟨_, t, hfree, ?_⟩
    rcases hcase with ⟨l', x', y, r', heq, hy, hback⟩ | ⟨hnone, -⟩
    · -- The region taken out is the new one.
      have hw' : WellFormed ((l ++ [x]) ++ ⟨x.stop, size⟩ :: r) := by
        rw [List.append_assoc]
        exact hl'.wellFormed
      have heq' : (l ++ [x]) ++ ⟨x.stop, size⟩ :: r = (l' ++ [x']) ++ y :: r' := by
        rw [List.append_assoc, List.append_assoc]
        exact heq
      have hrest := hw'.rest_unique heq' (hy.trans htarget)
      rw [List.append_assoc, List.append_assoc] at hrest
      exact hrest ▸ hback.regions
    · exact absurd htarget.symm (hnone ⟨x.stop, size⟩ (by simp))

/-- The run to the gap, of a kernel that frees what it was given. -/
theorem Gap.run {s₁ s₂ s₃ : Paged PhysicalPages} (h : K.Gap s₀ s₁ s₂ s₃) :
    ∃ ts t, Run K.VmmStep ⟨s₀, []⟩ ts t ∧ t.pages = s₃ ∧
      ts.map Transition.label =
        [.allocate 100, .allocate 100, .free (K.vmRoot + 4096 + 16)] ∧
      ∀ z ∈ ts, K.Served z.pre z.label := by
  obtain ⟨f₁, hfirst⟩ := h.first
  obtain ⟨f₂, hsecond⟩ := h.second
  obtain ⟨f₃, hfreed⟩ := h.freed
  have hmem : K.vmRoot + 4096 + 16 ∈ [K.vmRoot + 4096 + 4096 + 16, K.vmRoot + 4096 + 16] :=
    List.mem_cons_of_mem _ (List.mem_cons_self ..)
  refine ⟨_, ⟨s₃, [K.vmRoot + 4096 + 4096 + 16, K.vmRoot + 4096 + 16]⟩,
    .cons (.allocate hfirst) (.cons (.allocate hsecond) (.single (.free hmem hfreed))), rfl, rfl,
    fun z hz => ?_⟩
  simp only [List.mem_cons, List.not_mem_nil, or_false] at hz
  rcases hz with rfl | rfl | rfl
  · exact h.allowed₀
  · exact h.allowed₁
  · trivial

end Machine

end Potatos
