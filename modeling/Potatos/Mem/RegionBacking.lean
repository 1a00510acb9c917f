import Potatos.Mem.KernelMemory

/-!
# The regions are backed

Runs of `vmm_allocate` from `init_vmm` on, on the boot tables and the bitmap of `init_pmm`. The list
is a row of regions from the root on, each right behind the one before, and the pages of the row are
a `Backing` (`Backed`). A request that wraps to a size of zero finds room between the first two
regions, and bends the second one back to itself with a size of zero (`Collapsed`); from there on
only such requests return.

While the allocator does not run out and the list ends below 510 GiB, where the boot tables repeat
the first GiB, the frames under the regions are apart from each other, from the tables, from what
the bitmap hands out and from its reserve (`regions_backed`).
-/

namespace Potatos

open Lib RegionMemory

variable {p4_table reserve lo hi size n p fuel vm_root : ℕ} {s s' : Paged PhysicalPages}
  {rs l r : List Region} {x y : Region}

/-! ## The pages of a region -/

/-- The loop of `vmm_allocate_area` from the end of the range on. -/
theorem Backing.area (h : Backing p4_table reserve s lo hi) (hle : lo ≤ hi)
    (hsize : size % 4096 = 0) (htop : hi + size < 510 * 2^30)
    (hres : (kernelMemory p4_table).vmmAllocateArea s hi size = some s')
    (hgood : s'.frames.ran_out ≠ true) :
    Backing p4_table reserve s' lo (hi + size) ∧ ∀ a, lo ≤ a → a < hi →
      (kernelMemory p4_table).load s' a = (kernelMemory p4_table).load s a := by
  have hloop : ∀ (n : ℕ) (s' : Paged PhysicalPages), hi + 4096 * n < 510 * 2^30 →
      (List.range n).foldlM (fun s i => mapFreshPage p4_table s (addw hi (i * PAGE_SIZE))) s =
        some s' → s'.frames.ran_out ≠ true →
      Backing p4_table reserve s' lo (hi + 4096 * n) ∧ ∀ a, lo ≤ a → a < hi →
        (kernelMemory p4_table).load s' a = (kernelMemory p4_table).load s a := by
    intro n
    induction n with
    | zero =>
      intro s' _ hs _
      obtain rfl := Option.some.inj hs
      exact ⟨by rw [Nat.mul_zero]; exact h, fun _ _ _ => rfl⟩
    | succ n ih =>
      intro s' htop hs hgood
      have hnext : hi + 4096 * (n + 1) = hi + 4096 * n + 4096 := by omega
      rw [hnext] at htop ⊢
      have hlt : hi + 4096 * n < 510 * 2^30 := lt_of_le_of_lt (Nat.le_add_right _ _) htop
      rw [List.range_succ, List.foldlM_append] at hs
      obtain ⟨t, ht, hs⟩ := Option.bind_eq_some_iff.mp hs
      have hpage : mapFreshPage p4_table t (hi + 4096 * n) = some s' := by
        have haddr : addw hi (n * PAGE_SIZE) = hi + 4096 * n := by
          rw [Nat.mul_comm n]
          exact addw_of_lt (lt_trans hlt (by norm_num))
        obtain ⟨u, hu, hs⟩ := Option.bind_eq_some_iff.mp hs
        obtain rfl := Option.some.inj hs
        dsimp only at hu
        rw [haddr] at hu
        exact hu
      -- had the allocator run out before the last page, it would have after it
      have hgoodt : t.frames.ran_out ≠ true :=
        fun hout => hgood (PhysicalPages.ran_out_of_calls (mapFreshPage_frames hpage) hout)
      obtain ⟨hback, hload⟩ := ih t hlt ht hgoodt
      obtain ⟨hback', hkeeps, hwalk⟩ := hback.page_mapped htop (by omega) hpage hgood
      refine ⟨hback', fun a ha hlt => ?_⟩
      rw [hback.load_congr hkeeps hwalk ha (by omega), hload a ha hlt]
  have hcount : (size + PAGE_SIZE - 1) / PAGE_SIZE = size / 4096 := by
    unfold PAGE_SIZE
    omega
  have hpages : 4096 * (size / 4096) = size := by omega
  rw [vmmAllocateArea, hcount] at hres
  have hresult := hloop (size / 4096) s' (by omega) hres hgood
  rw [hpages] at hresult
  exact hresult

/-- Four free pages for each page of the region are enough. -/
theorem Backing.area_total (h : Backing p4_table reserve s lo hi) (hle : lo ≤ hi)
    (hsize : size % 4096 = 0) (htop : hi + size < 510 * 2^30) {k : ℕ}
    (henough : s.frames.Enough (k + 4 * (size / 4096))) :
    ∃ s', (kernelMemory p4_table).vmmAllocateArea s hi size = some s' ∧ s'.frames.Enough k := by
  have hloop : ∀ n k : ℕ, hi + 4096 * n < 510 * 2^30 → s.frames.Enough (k + 4 * n) →
      ∃ s', (List.range n).foldlM
        (fun s i => mapFreshPage p4_table s (addw hi (i * PAGE_SIZE))) s = some s' ∧
        s'.frames.Enough k := by
    intro n
    induction n with
    | zero => exact fun k _ he => ⟨s, rfl, he⟩
    | succ n ih =>
      intro k htop he
      have hnext : hi + 4096 * (n + 1) = hi + 4096 * n + 4096 := by omega
      have hlt : hi + 4096 * n < 510 * 2^30 :=
        lt_of_le_of_lt (Nat.le_add_right _ _) (hnext ▸ htop)
      obtain ⟨t, ht, het⟩ := ih (k + 4) hlt (he.less (by omega))
      have hpages : 4096 * n % 4096 = 0 := Nat.mul_mod_right _ _
      have hcount : (4096 * n + PAGE_SIZE - 1) / PAGE_SIZE = n := by
        unfold PAGE_SIZE
        omega
      obtain ⟨hback, -⟩ := h.area hle hpages hlt
        (by rw [vmmAllocateArea, hcount]; exact ht) het.1
      obtain ⟨s', hs', he'⟩ := hback.page_total (by omega) het
      refine ⟨s', ?_, he'⟩
      have haddr : addw hi (n * PAGE_SIZE) = hi + 4096 * n := by
        rw [Nat.mul_comm n]
        exact addw_of_lt (lt_trans hlt (by norm_num))
      rw [List.range_succ, List.foldlM_append, ht, Option.bind_eq_bind, Option.bind_some,
        List.foldlM_cons, haddr, hs']
      rfl
  have hcount : (size + PAGE_SIZE - 1) / PAGE_SIZE = size / 4096 := by
    unfold PAGE_SIZE
    omega
  have hpages : 4096 * (size / 4096) = size := by omega
  obtain ⟨s', hs', he⟩ := hloop (size / 4096) k (by omega) henough
  exact ⟨s', by rw [vmmAllocateArea, hcount]; exact hs', he⟩

/-- Nothing behind the range can be written. -/
theorem Backing.store_behind (h : Backing p4_table reserve s lo hi) (v : ℕ) :
    (kernelMemory p4_table).setNext s hi v = none := by
  have htop := h.top
  show ((s.mem.walk p4_table hi).map _).map _ = none
  rw [h.unmapped hi (le_refl hi) (by omega)]
  rfl

/-! ## A row of regions -/

/-- The list is a row of regions from the root up to `stop`, and its pages are backed. -/
structure Backed (p4_table reserve vm_root : ℕ) (s : Paged PhysicalPages) (rs : List Region)
    (stop : ℕ) : Prop where
  backing : Backing p4_table reserve s vm_root stop
  regions : (kernelMemory p4_table).RegionsAt s vm_root rs
  wellFormed : WellFormed rs
  row : Tiles Region.addr Region.size vm_root rs stop

namespace Backed

/-- The headers of the regions are words of the range. -/
theorem header (h : Backed p4_table reserve vm_root s rs hi) (hx : x ∈ rs) :
    vm_root ≤ x.addr ∧ x.addr + 16 ≤ hi ∧ x.addr % 4096 = 0 := by
  obtain ⟨h1, h2⟩ := h.row.bounds hx
  have hpage := h.wellFormed.addr_page x hx
  have hsize := h.wellFormed.size_ge hx
  unfold PAGE_SIZE at *
  omega

/-- The last region ends where the range ends. -/
theorem last (h : Backed p4_table reserve vm_root s (l ++ [x]) hi) : x.stop = hi := by
  obtain ⟨m, -, hm⟩ := tiles_append.mp h.row
  obtain ⟨rfl, hstop⟩ := tiles_cons.mp hm
  exact hstop

/-- The headers of the other regions do not meet the link of `x`. -/
theorem header_congr (h : Backed p4_table reserve vm_root s (l ++ x :: r) hi)
    (hold : ∀ a, vm_root ≤ a → a < hi → a % 8 = 0 → a ≠ x.addr →
      (kernelMemory p4_table).load s' a = (kernelMemory p4_table).load s a) :
    (∀ b ∈ l ++ r, (kernelMemory p4_table).next s' b.addr = (kernelMemory p4_table).next s b.addr ∧
      (kernelMemory p4_table).size s' b.addr = (kernelMemory p4_table).size s b.addr) ∧
    (kernelMemory p4_table).size s' x.addr = some x.size := by
  obtain ⟨hxlo, hxhi, hxpage⟩ := h.header (x := x) (by simp)
  refine ⟨fun b hb => ?_, (hold (x.addr + 8) (by omega) (by omega) (by omega) (by omega)).trans
    (h.regions.1.header).2⟩
  obtain ⟨hblo, hbhi, hbpage⟩ := h.header (mem_of_rest hb)
  have hne := h.wellFormed.addr_ne hb
  exact ⟨hold b.addr hblo (by omega) (by omega) hne,
    hold (b.addr + 8) (by omega) (by omega) (by omega) (by omega)⟩

/-- The end of the last region, as the code computes it. -/
theorem addw_last (h : Backed p4_table reserve vm_root s (l ++ [x]) hi) :
    addw x.addr x.size = hi := by
  have hlast := h.last
  have htop := h.backing.top
  unfold Region.stop at hlast
  rw [addw_of_lt (by omega), hlast]

/-- The last link and the new header, with every other word as it was, make the row longer by the
new region. -/
theorem linked_append (h : Backed p4_table reserve vm_root s (l ++ [x]) hi)
    (hold : ∀ a, vm_root ≤ a → a < hi → a % 8 = 0 → a ≠ x.addr →
      (kernelMemory p4_table).load s' a = (kernelMemory p4_table).load s a)
    (hlink : (kernelMemory p4_table).next s' x.addr = some hi)
    (hnext : (kernelMemory p4_table).next s' hi = some 0)
    (hsize : (kernelMemory p4_table).size s' hi = some size) :
    (kernelMemory p4_table).RegionsAt s' vm_root (l ++ [x, ⟨hi, size⟩]) := by
  have hlo : vm_root ≤ hi := h.row.le
  have hbottom := h.backing.bottom
  obtain ⟨hl, a, t, ht, ha⟩ := h.regions
  obtain ⟨t', ht'⟩ := head_of_split ht.symm [⟨hi, size⟩]
  obtain ⟨hsame, hxsize⟩ := h.header_congr hold
  exact ⟨hl.insert (by show hi ≠ 0; omega) hsame hlink hxsize hnext hsize, a, t', ht', ha⟩

/-- Once the pages are mapped, the end of `vmm_allocate` makes the row longer by the new region. -/
theorem append_mapped (h : Backed p4_table reserve vm_root s (l ++ [x]) hi)
    (hsize : size % 4096 = 0) (hpos : 0 < size) (htop : hi + size < 510 * 2^30)
    {s₁ : Paged PhysicalPages}
    (harea : (kernelMemory p4_table).vmmAllocateArea s hi size = some s₁)
    (hgood : s₁.frames.ran_out ≠ true) :
    ∃ s', (kernelMemory p4_table).appendRegion s size x.addr = some (addw hi 16, s') ∧
      s'.frames = s₁.frames ∧
      Backed p4_table reserve vm_root s' (l ++ [x, ⟨hi, size⟩]) (hi + size) := by
  obtain ⟨hxlo, hxhi, hxpage⟩ := h.header (x := x) (by simp)
  have hlo : vm_root ≤ hi := h.row.le
  have hpage := h.backing.page
  obtain ⟨hb₁, hload₁⟩ := h.backing.area hlo hsize htop harea hgood
  obtain ⟨s₂, h₂, hf₂, hb₂, hself₂, hload₂⟩ :=
    hb₁.store (a := hi) (v := 0) hlo (by omega) (by omega)
  obtain ⟨s₃, h₃, hf₃, hb₃, hself₃, hload₃⟩ :=
    hb₂.store (a := hi + 8) (v := size) (by omega) (by omega) (by omega)
  obtain ⟨s₄, h₄, hf₄, hb₄, hself₄, hload₄⟩ :=
    hb₃.store (a := x.addr) (v := hi) hxlo (by omega) (by omega)
  have hcall : (kernelMemory p4_table).appendRegion s size x.addr = some (addw hi 16, s₄) := by
    refine appendRegion_eq_some.mpr ⟨_, s₁, s₂, s₃, (h.regions.1.header).2, ?_⟩
    rw [h.addw_last]
    exact ⟨harea, h₂, h₃, h₄, rfl⟩
  -- The stores meet no word of the old row but the last link.
  have hold : ∀ a, vm_root ≤ a → a < hi → a % 8 = 0 → a ≠ x.addr →
      (kernelMemory p4_table).load s₄ a = (kernelMemory p4_table).load s a := by
    intro a ha hlt h8 hne
    calc (kernelMemory p4_table).load s₄ a
      _ = (kernelMemory p4_table).load s₃ a := hload₄ a ha (by omega) h8 hne
      _ = (kernelMemory p4_table).load s₂ a := hload₃ a ha (by omega) h8 (by omega)
      _ = (kernelMemory p4_table).load s₁ a := hload₂ a ha (by omega) h8 (by omega)
      _ = (kernelMemory p4_table).load s a := hload₁ a ha hlt
  have hnext : (kernelMemory p4_table).load s₄ hi = some 0 := by
    calc (kernelMemory p4_table).load s₄ hi
      _ = (kernelMemory p4_table).load s₃ hi := hload₄ hi hlo (by omega) (by omega) (by omega)
      _ = (kernelMemory p4_table).load s₂ hi := hload₃ hi hlo (by omega) (by omega) (by omega)
      _ = some 0 := hself₂
  have hnewsize : (kernelMemory p4_table).load s₄ (hi + 8) = some size := by
    rw [hload₄ (hi + 8) (by omega) (by omega) (by omega) (by omega)]
    exact hself₃
  refine ⟨s₄, hcall, hf₄.trans (hf₃.trans hf₂), hb₄, h.linked_append hold hself₄ hnext hnewsize,
    ?_, ?_⟩
  · have hlast := h.last
    rw [← hlast]
    exact h.wellFormed.insert hsize hpos (by omega) (fun b hb => absurd hb List.not_mem_nil)
  · have hsplit : l ++ [x, ⟨hi, size⟩] = (l ++ [x]) ++ [⟨hi, size⟩] := by simp
    rw [hsplit, tiles_append]
    exact ⟨hi, h.row, tiles_single⟩

/-- The end of `vmm_allocate` makes the row longer by the new region. -/
theorem append (h : Backed p4_table reserve vm_root s (l ++ [x]) hi) (hsize : size % 4096 = 0)
    (hpos : 0 < size) (htop : hi + size < 510 * 2^30)
    (hres : (kernelMemory p4_table).appendRegion s size x.addr = some (p, s'))
    (hgood : s'.frames.ran_out ≠ true) :
    p = addw hi 16 ∧ Backed p4_table reserve vm_root s' (l ++ [x, ⟨hi, size⟩]) (hi + size) := by
  obtain ⟨z, s₁, s₂, s₃, hz, h₁, h₂, h₃, h₄, -⟩ := appendRegion_eq_some.mp hres
  obtain rfl := Option.some.inj ((h.regions.1.header).2.symm.trans hz)
  rw [h.addw_last] at h₁
  -- The stores call no allocator.
  have hgood₁ : s₁.frames.ran_out ≠ true := by
    rw [← store_frames h₂, ← store_frames h₃, ← store_frames h₄]
    exact hgood
  obtain ⟨s', hcall, -, hback⟩ := h.append_mapped hsize hpos htop h₁ hgood₁
  obtain ⟨rfl, rfl⟩ := Prod.mk.inj (Option.some.inj (hres.symm.trans hcall))
  exact ⟨rfl, hback⟩

/-- Without a byte to map, the end of `vmm_allocate` faults on the new header. -/
theorem append_zero (h : Backed p4_table reserve vm_root s (l ++ [x]) hi) :
    (kernelMemory p4_table).appendRegion s 0 x.addr = none := by
  have harea : (kernelMemory p4_table).vmmAllocateArea s hi 0 = some s := rfl
  rw [appendRegion, (h.regions.1.header).2]
  simp only [Option.bind_eq_bind, Option.bind_some, h.addw_last, harea, h.backing.store_behind]
  rfl

/-- The next region of a row is right behind. -/
theorem no_gap (h : Backed p4_table reserve vm_root s (l ++ x :: y :: r) hi) : y.addr = x.stop := by
  obtain ⟨m, -, hm⟩ := tiles_append.mp h.row
  obtain ⟨rfl, hm⟩ := tiles_cons.mp hm
  exact (tiles_cons.mp hm).1

end Backed

/-! ## A request that wraps to zero -/

/-- The second region has size zero and is its own successor. -/
structure Collapsed (p4_table reserve vm_root : ℕ) (s : Paged PhysicalPages) (z hi : ℕ) : Prop where
  backing : Backing p4_table reserve s vm_root hi
  root_page : vm_root % 4096 = 0
  page : z % 4096 = 0
  pos : 0 < z
  lt : vm_root + z < hi
  next_root : (kernelMemory p4_table).next s vm_root = some (vm_root + z)
  size_root : (kernelMemory p4_table).size s vm_root = some z
  next_second : (kernelMemory p4_table).next s (vm_root + z) = some (vm_root + z)
  size_second : (kernelMemory p4_table).size s (vm_root + z) = some 0

/-- A walk comes to the two regions only. -/
theorem Collapsed.onList {a : Region} {z : ℕ} (h : Collapsed p4_table reserve vm_root s z hi)
    (ha : (kernelMemory p4_table).OnList s vm_root a) :
    a = ⟨vm_root, z⟩ ∨ a = ⟨vm_root + z, 0⟩ := by
  induction ha with
  | root hsize =>
    obtain rfl := Option.some.inj (h.size_root.symm.trans hsize)
    exact Or.inl rfl
  | next _ hnext _ hsize ih =>
    right
    rcases ih with rfl | rfl
    · obtain rfl := Option.some.inj (h.next_root.symm.trans hnext)
      obtain rfl := Option.some.inj (h.size_second.symm.trans hsize)
      rfl
    · obtain rfl := Option.some.inj (h.next_second.symm.trans hnext)
      obtain rfl := Option.some.inj (h.size_second.symm.trans hsize)
      rfl

/-- The gap of no bytes behind the root is where the second region is. -/
theorem Backing.collapse {z : ℕ} (h : Backing p4_table reserve s vm_root hi)
    (hroot : vm_root % 4096 = 0) (hpage : z % 4096 = 0) (hpos : 0 < z) (hlt : vm_root + z < hi)
    (hnext : (kernelMemory p4_table).next s vm_root = some (vm_root + z))
    (hsize : (kernelMemory p4_table).size s vm_root = some z)
    (hres : (kernelMemory p4_table).insertInGap s 0 vm_root = some (p, s')) :
    Collapsed p4_table reserve vm_root s' z hi := by
  have htop := h.top
  have hhi := h.page
  have hstop : addw vm_root z = vm_root + z := addw_of_lt (by omega)
  obtain ⟨z', next, s₁, s₂, s₃, s₄, s₅, hz', h₁, hn, h₂, h₃, h₄, h₅, h₆, -⟩ :=
    insertInGap_eq_some.mp hres
  obtain rfl := Option.some.inj (hsize.symm.trans hz')
  rw [hstop] at h₁ h₂ h₃ h₄ h₅ h₆
  generalize hq : vm_root + z = q at *
  obtain ⟨_, hs₁, -, hb₁, -, hload₁⟩ :=
    h.store (a := q + 8) (v := 0) (by omega) (by omega) (by omega)
  obtain rfl := Option.some.inj (h₁.symm.trans hs₁)
  -- The link of the root is copied: the second region becomes its own successor.
  obtain rfl : next = q := by
    have hkeep := hload₁ vm_root (le_refl _) (by omega) (by omega) (by omega)
    exact Option.some.inj (hn.symm.trans (hkeep.trans hnext))
  obtain ⟨_, hs₂, -, hb₂, hself₂, hload₂⟩ :=
    hb₁.store (a := next) (v := next) (by omega) (by omega) (by omega)
  obtain rfl := Option.some.inj (h₂.symm.trans hs₂)
  obtain ⟨_, hs₃, -, hb₃, -, hload₃⟩ :=
    hb₂.store (a := vm_root) (v := next) (le_refl _) (by omega) (by omega)
  obtain rfl := Option.some.inj (h₃.symm.trans hs₃)
  -- An area of no bytes maps no page.
  obtain rfl : s₃ = s₄ := Option.some.inj h₄
  obtain ⟨_, hs₅, -, hb₅, hself₅, hload₅⟩ :=
    hb₃.store (a := next + 8) (v := 0) (by omega) (by omega) (by omega)
  obtain rfl := Option.some.inj (h₅.symm.trans hs₅)
  obtain ⟨_, hs₆, -, hb₆, hself₆, hload₆⟩ :=
    hb₅.store (a := vm_root) (v := next) (le_refl _) (by omega) (by omega)
  obtain rfl := Option.some.inj (h₆.symm.trans hs₆)
  refine ⟨hb₆, hroot, hpage, hpos, by omega, hq ▸ hself₆, ?_, ?_, ?_⟩
  · -- No store meets the size of the root.
    calc (kernelMemory p4_table).load s' (vm_root + 8)
      _ = (kernelMemory p4_table).load s₅ (vm_root + 8) :=
        hload₆ (vm_root + 8) (by omega) (by omega) (by omega) (by omega)
      _ = (kernelMemory p4_table).load s₃ (vm_root + 8) :=
        hload₅ (vm_root + 8) (by omega) (by omega) (by omega) (by omega)
      _ = (kernelMemory p4_table).load s₂ (vm_root + 8) :=
        hload₃ (vm_root + 8) (by omega) (by omega) (by omega) (by omega)
      _ = (kernelMemory p4_table).load s₁ (vm_root + 8) :=
        hload₂ (vm_root + 8) (by omega) (by omega) (by omega) (by omega)
      _ = (kernelMemory p4_table).load s (vm_root + 8) :=
        hload₁ (vm_root + 8) (by omega) (by omega) (by omega) (by omega)
      _ = some z := hsize
  · rw [hq]
    calc (kernelMemory p4_table).load s' next
      _ = (kernelMemory p4_table).load s₅ next :=
        hload₆ next (by omega) (by omega) (by omega) (by omega)
      _ = (kernelMemory p4_table).load s₃ next :=
        hload₅ next (by omega) (by omega) (by omega) (by omega)
      _ = (kernelMemory p4_table).load s₂ next :=
        hload₃ next (by omega) (by omega) (by omega) (by omega)
      _ = some next := hself₂
  · rw [hq]
    calc (kernelMemory p4_table).load s' (next + 8)
      _ = (kernelMemory p4_table).load s₅ (next + 8) :=
        hload₆ (next + 8) (by omega) (by omega) (by omega) (by omega)
      _ = some 0 := hself₅

/-! ## One call -/

/-- `vmm_allocate` on a row makes it longer, or collapses it if the request wraps to zero. -/
theorem Backed.allocate (h : Backed p4_table reserve vm_root s rs hi)
    (htop : hi + regionSize n < 510 * 2^30)
    (hres : (kernelMemory p4_table).vmmAllocate fuel s vm_root n = some (p, s'))
    (hgood : s'.frames.ran_out ≠ true) :
    (p = addw hi 16 ∧ Backed p4_table reserve vm_root s' (rs ++ [⟨hi, regionSize n⟩])
      (hi + regionSize n)) ∨
    (regionSize n = 0 ∧ ∃ z, Collapsed p4_table reserve vm_root s' z hi) := by
  obtain ⟨hl, a, t, rfl, ha⟩ := h.regions
  have hapos := h.wellFormed.pos a (List.mem_cons_self ..)
  have hcall : (kernelMemory p4_table).allocateLoop (regionSize n) (fuel + t.length + 1) s
      (headAddr t) a.addr = some (p, s') := by
    have hmono := vmmAllocate_mono hres (k := fuel + t.length + 2) (by omega)
    rwa [← ha, vmmAllocate_linked hl (by omega)] at hmono
  obtain ⟨l, x, r, hsplit, hno, hcase⟩ := allocateLoop_linked (regionSize n) hl h.wellFormed
    (by omega : t.length < fuel + t.length + 1)
  rcases hcase with ⟨y, r', rfl, hgap, heq⟩ | ⟨rfl, heq⟩
  · -- The next region is right behind, so the gap and the size are zero.
    have hy : y.addr = x.addr + x.size := (hsplit ▸ h).no_gap
    unfold Region.stop at hgap
    have hzero : regionSize n = 0 := by omega
    -- A gap of no bytes is behind the first region already.
    have hnil : l = [] := by
      cases l with
      | nil => rfl
      | cons b l =>
        have hw : WellFormed (b :: (l ++ [x])) := by
          apply h.wellFormed.sublist
          rw [hsplit]
          exact (List.Sublist.append_left (by simp) l).cons_cons b
        exact absurd (hzero ▸ hw.hasGap_zero (by simp)) hno
    subst hnil
    obtain ⟨rfl, rfl⟩ := List.cons.inj hsplit
    rw [heq, hzero] at hcall
    obtain ⟨hylo, hyhi, -⟩ := h.header (x := y) (by simp)
    have haddr := h.header (x := a) (List.mem_cons_self ..)
    refine Or.inr ⟨hzero, a.size, ?_⟩
    subst ha
    refine h.backing.collapse haddr.2.2 (h.wellFormed.size_page a (List.mem_cons_self ..)) hapos
      (by omega) ?_ hl.2.2.1 hcall
    rw [hl.2.1]
    exact congrArg some hy
  · rw [heq] at hcall
    rw [hsplit] at h
    rcases Nat.eq_zero_or_pos (regionSize n) with hzero | hpos
    · rw [hzero, h.append_zero] at hcall
      cases hcall
    · rw [hsplit, List.append_assoc]
      exact Or.inl (h.append (regionSize_page n) hpos htop hcall hgood)

/-- `vmm_allocate` returns when four pages are free for each page of the region. -/
theorem Backed.allocate_total (h : Backed p4_table reserve vm_root s rs hi)
    (hpos : 0 < regionSize n) (htop : hi + regionSize n < 510 * 2^30) {k : ℕ}
    (henough : s.frames.Enough (k + 4 * (regionSize n / 4096))) :
    ∃ fuel p s', (kernelMemory p4_table).vmmAllocate fuel s vm_root n = some (p, s') ∧
      s'.frames.Enough k := by
  obtain ⟨hl, a, t, rfl, ha⟩ := h.regions
  have hapos := h.wellFormed.pos a (List.mem_cons_self ..)
  obtain ⟨l, x, r, hsplit, -, hcase⟩ := allocateLoop_linked (regionSize n) hl h.wellFormed
    (by omega : t.length < t.length + 1)
  rcases hcase with ⟨y, r', rfl, hgap, -⟩ | ⟨rfl, heq⟩
  · -- There is no room between two regions of the row.
    have hy := (hsplit ▸ h).no_gap
    omega
  · rw [hsplit] at h
    have hspage : regionSize n % 4096 = 0 := regionSize_page n
    obtain ⟨s₁, h₁, hleft⟩ := h.backing.area_total h.row.le hspage htop henough
    obtain ⟨s', hs', hframes, -⟩ := h.append_mapped hspage hpos htop h₁ hleft.1
    refine ⟨t.length + 2, addw hi 16, s', ?_, by rw [hframes]; exact hleft⟩
    rw [← ha, vmmAllocate_linked hl (by omega), heq]
    exact hs'

/-- The row with a region more, when four pages are free for each of its pages. -/
theorem Backed.allocate_next (h : Backed p4_table reserve vm_root s rs hi)
    (hpos : 0 < regionSize n) (htop : hi + regionSize n < 510 * 2^30) {k : ℕ}
    (henough : s.frames.Enough (k + 4 * (regionSize n / 4096))) :
    ∃ fuel s', (kernelMemory p4_table).vmmAllocate fuel s vm_root n = some (hi + 16, s') ∧
      s'.frames.Enough k ∧ Backed p4_table reserve vm_root s' (rs ++ [⟨hi, regionSize n⟩])
        (hi + regionSize n) := by
  obtain ⟨fuel, p, s', hcall, hleft⟩ := h.allocate_total hpos htop henough
  rcases h.allocate htop hcall hleft.1 with ⟨rfl, hback⟩ | ⟨hzero, -⟩
  · rw [addw_of_lt (by omega)] at hcall
    exact ⟨fuel, s', hcall, hleft, hback⟩
  · omega

/-- On a collapsed row only a request that wraps to zero returns, and it changes nothing. -/
theorem Collapsed.allocate {z : ℕ} (h : Collapsed p4_table reserve vm_root s z hi)
    (hres : (kernelMemory p4_table).vmmAllocate fuel s vm_root n = some (p, s')) :
    Collapsed p4_table reserve vm_root s' z hi := by
  have hbottom := h.backing.bottom
  have htop := h.backing.top
  have hlt := h.lt
  have hpos := h.pos
  have hstop : addw vm_root z = vm_root + z := addw_of_lt (by omega)
  have hgap : ∀ q < 2^64, subw q q = 0 := fun q hq => by
    rw [subw_of_le (le_refl q) hq, Nat.sub_self]
  have hself : addw (vm_root + z) 0 = vm_root + z := addw_of_lt (by omega)
  -- the walk does not leave the second region
  have hspin : ∀ fuel, 0 < regionSize n → (kernelMemory p4_table).allocateLoop (regionSize n) fuel s
      (vm_root + z) (vm_root + z) = none := by
    intro fuel hsize
    induction fuel with
    | zero => rfl
    | succ fuel ih =>
      rw [allocateLoop, if_neg (by omega), if_neg (by omega), h.size_second]
      simp only [Option.bind_eq_bind, Option.bind_some]
      rw [hself, hgap _ (by omega), if_neg (by omega), h.next_second]
      exact ih
  rw [vmmAllocate, fixRoot, h.size_root] at hres
  simp only [Option.bind_eq_bind, Option.bind_some] at hres
  rw [if_neg (by omega), Option.bind_some] at hres
  cases fuel with
  | zero => cases hres
  | succ fuel =>
    rw [allocateLoop, if_neg (by omega), if_pos rfl, h.next_root] at hres
    simp only [Option.bind_eq_bind, Option.bind_some] at hres
    cases fuel with
    | zero => cases hres
    | succ fuel =>
      rw [allocateLoop, if_neg (by omega), if_neg (by omega), h.size_root] at hres
      simp only [Option.bind_eq_bind, Option.bind_some] at hres
      rw [hstop, hgap _ (by omega)] at hres
      rcases Nat.eq_zero_or_pos (regionSize n) with hzero | hsize
      · have hzero' : alignToNearestPage (addw n sizeofVmmRegion) = 0 := hzero
        rw [hzero', if_pos (le_refl 0)] at hres
        exact h.backing.collapse h.root_page h.page h.pos h.lt h.next_root h.size_root hres
      · have hspin' := hspin fuel hsize
        unfold regionSize at hspin' hsize
        rw [if_neg (by omega), h.next_second, Option.bind_some, hspin'] at hres
        cases hres

end Potatos
