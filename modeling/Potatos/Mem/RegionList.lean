import Potatos.Lib.Tiling
import Potatos.Mem.Vmm

/-!
# The list of regions

The list that the walks of `vmm.c` follow, as a list of addresses and sizes. `Linked` says that the
headers in memory are those of the list, over any memory that `vmm.c` may run on. The walks only
read on the way: `vmm_allocate` comes to the first gap that is large enough, or to the last region
(`allocateLoop_linked`), and `vmm_free` to the region whose header is at the address, if there is
one (`freeLoop_linked`). What they write there is covered by `Linked.insert` and `Linked.unlink`.
-/

namespace Potatos

open Lib

/-- A region, with its header. -/
structure Region where
  addr : ℕ
  size : ℕ

/-- The first byte behind a region. -/
def Region.stop (a : Region) : ℕ := a.addr + a.size

/-- The `next` pointer to a list. -/
def headAddr : List Region → ℕ
  | [] => 0
  | a :: _ => a.addr

/-- Two consecutive regions with room for `size` bytes between them. -/
def HasGap (size : ℕ) : List Region → Prop
  | [] => False
  | [_] => False
  | a :: b :: rs => a.stop + size ≤ b.addr ∨ HasGap size (b :: rs)

/-- Behind `x` there is the first gap that is large enough, or the end of the list. -/
structure FirstGap (size : ℕ) (l : List Region) (x : Region) (r : List Region) : Prop where
  none_before : ¬ HasGap size (l ++ [x])
  large_enough : r ≠ [] → x.stop + size ≤ headAddr r

/-- Regions of whole pages, in order and apart, below the top of the address space. -/
structure WellFormed (rs : List Region) : Prop where
  ordered : Ordered Region.addr Region.size rs
  addr_page : ∀ a ∈ rs, a.addr % PAGE_SIZE = 0
  size_page : ∀ a ∈ rs, a.size % PAGE_SIZE = 0
  pos : ∀ a ∈ rs, 0 < a.size
  top : ∀ a ∈ rs, a.stop < 2^64

variable {rs l r : List Region} {a x y new : Region} {size n fuel : ℕ}

theorem headAddr_append (l : List Region) (x : Region) (r r' : List Region) :
    headAddr (l ++ x :: r) = headAddr (l ++ x :: r') := by
  cases l <;> rfl

/-- The first region stays when something behind it changes. -/
theorem head_of_split (h : a :: rs = l ++ x :: r) (r' : List Region) :
    ∃ t, l ++ x :: r' = a :: t := by
  cases l with
  | nil => exact ⟨r', by rw [List.nil_append, (List.cons.inj h).1]⟩
  | cons b l => exact ⟨l ++ x :: r', by rw [List.cons_append, (List.cons.inj h).1]⟩

theorem hasGap_of_split (h : x.stop + size ≤ y.addr) : HasGap size (l ++ x :: y :: r) := by
  induction l with
  | nil => exact Or.inl h
  | cons a l ih =>
    cases l with
    | nil => exact Or.inr ih
    | cons b l => exact Or.inr ih

/-- The gap between two regions is the first, where it is large enough. -/
theorem FirstGap.of_two (h : FirstGap size l x r) (hsplit : [a, y] = l ++ x :: r)
    (hgap : a.stop + size ≤ y.addr) : l = [] ∧ x = a ∧ r = [y] := by
  cases l with
  | nil => exact ⟨rfl, (List.cons.inj hsplit).1.symm, (List.cons.inj hsplit).2.symm⟩
  | cons b l =>
    exfalso
    cases l with
    | nil =>
      obtain ⟨rfl, hrest⟩ := List.cons.inj hsplit
      obtain ⟨rfl, -⟩ := List.cons.inj hrest
      exact h.none_before (Or.inl hgap)
    | cons c l =>
      have hlength := congrArg List.length hsplit
      simp only [List.length_append, List.length_cons, List.length_nil] at hlength
      omega

namespace WellFormed

theorem size_ge (hw : WellFormed rs) (ha : a ∈ rs) : PAGE_SIZE ≤ a.size := by
  have h1 := hw.size_page a ha
  have h2 := hw.pos a ha
  unfold PAGE_SIZE at *
  omega

/-- The regions before and behind a region of the list. -/
theorem around (hw : WellFormed (l ++ x :: r)) :
    (∀ a ∈ l, a.stop ≤ x.addr) ∧ (∀ a ∈ r, x.stop ≤ a.addr) := by
  obtain ⟨-, hrest, hl⟩ := List.pairwise_append.mp hw.ordered
  have hr := (List.pairwise_cons.mp hrest).1
  exact ⟨fun a ha => hl a ha x (List.mem_cons_self ..), fun a ha => hr a ha⟩

theorem sublist (hw : WellFormed rs) (h : List.Sublist l rs) : WellFormed l :=
  ⟨hw.ordered.sublist h, fun a ha => hw.addr_page a (h.subset ha),
    fun a ha => hw.size_page a (h.subset ha), fun a ha => hw.pos a (h.subset ha),
    fun a ha => hw.top a (h.subset ha)⟩

/-- Another region of the list is before it or behind it. -/
theorem apart (hw : WellFormed (l ++ x :: r)) (ha : a ∈ l ++ r) :
    a.stop ≤ x.addr ∨ x.stop ≤ a.addr :=
  (List.mem_append.mp ha).imp (hw.around.1 a) (hw.around.2 a)

theorem addr_ne (hw : WellFormed (l ++ x :: r)) (ha : a ∈ l ++ r) : a.addr ≠ x.addr := by
  have hxpos := hw.pos x (by simp)
  have hapos := hw.pos a (mem_of_rest ha)
  have hapart := hw.apart ha
  unfold Region.stop at hapart
  omega

/-- The address of a region tells it from the others of the list. -/
theorem filter_ne (hw : WellFormed (l ++ x :: r)) :
    (l ++ x :: r).filter (fun a => a.addr ≠ x.addr) = l ++ r := by
  have hl : l.filter (fun a => a.addr ≠ x.addr) = l := List.filter_eq_self.mpr
    (fun a ha => decide_eq_true (hw.addr_ne (List.mem_append_left r ha)))
  have hr : r.filter (fun a => a.addr ≠ x.addr) = r := List.filter_eq_self.mpr
    (fun a ha => decide_eq_true (hw.addr_ne (List.mem_append_right l ha)))
  rw [List.filter_append, List.filter_cons, hl, hr, if_neg (by simp)]

/-- Taking out the region of an address leaves one list. -/
theorem rest_unique {l' r' : List Region} (hw : WellFormed (l ++ x :: r))
    (heq : l ++ x :: r = l' ++ y :: r') (haddr : y.addr = x.addr) : l' ++ r' = l ++ r := by
  have hw' : WellFormed (l' ++ y :: r') := heq ▸ hw
  rw [← hw.filter_ne, ← hw'.filter_ne, heq, haddr]

/-- The root region alone. -/
theorem root {vm_root : ℕ} (hpage : vm_root % PAGE_SIZE = 0) (htop : vm_root + PAGE_SIZE < 2^64) :
    WellFormed [⟨vm_root, PAGE_SIZE⟩] where
  ordered := List.pairwise_singleton _ _
  addr_page := List.forall_mem_singleton.mpr hpage
  size_page := List.forall_mem_singleton.mpr (Nat.mod_self _)
  pos := List.forall_mem_singleton.mpr (Nat.succ_pos _)
  top := List.forall_mem_singleton.mpr htop

/-- What fits before the next region fits before all of them. -/
theorem behind (hw : WellFormed (l ++ x :: y :: r)) (hgap : x.stop + size ≤ y.addr) :
    ∀ b ∈ y :: r, x.stop + size ≤ b.addr := by
  intro b hb
  have hw' : WellFormed ((l ++ [x]) ++ y :: r) := by
    rwa [List.append_assoc, List.singleton_append]
  rcases List.mem_cons.mp hb with rfl | hb
  · exact hgap
  · have hyb := hw'.around.2 b hb
    unfold Region.stop at hyb
    omega

/-- Two regions have a gap of no bytes between them. -/
theorem hasGap_zero (hw : WellFormed (a :: rs)) (hrs : rs ≠ []) : HasGap 0 (a :: rs) := by
  cases rs with
  | nil => exact absurd rfl hrs
  | cons b rs => exact Or.inl ((hw.around (l := [])).2 b (List.mem_cons_self ..))

/-- A new region right behind one of the list, before the next. -/
theorem insert (hw : WellFormed (l ++ x :: r)) (hsize : size % PAGE_SIZE = 0) (hpos : 0 < size)
    (htop : x.stop + size < 2^64) (hr : ∀ a ∈ r, x.stop + size ≤ a.addr) :
    WellFormed (l ++ x :: ⟨x.stop, size⟩ :: r) := by
  have hx : x ∈ l ++ x :: r := by simp
  obtain ⟨hbefore, hbehind⟩ := hw.around
  have hpage := hw.addr_page x hx
  have hxsize := hw.size_page x hx
  -- What holds of one region at a time is known of the old ones.
  have hmem : ∀ a ∈ l ++ x :: ⟨x.stop, size⟩ :: r, a ∈ l ++ x :: r ∨ a = ⟨x.stop, size⟩ := by
    intro a ha
    simp only [List.mem_append, List.mem_cons] at ha ⊢
    tauto
  refine ⟨?_, fun a ha => ?_, fun a ha => ?_, fun a ha => ?_, fun a ha => ?_⟩
  · obtain ⟨hl, hrest, hlr⟩ := List.pairwise_append.mp hw.ordered
    obtain ⟨hxr, hrr⟩ := List.pairwise_cons.mp hrest
    refine List.pairwise_append.mpr ⟨hl, List.pairwise_cons.mpr ⟨fun b hb => ?_,
      List.pairwise_cons.mpr ⟨fun b hb => hr b hb, hrr⟩⟩, fun a ha b hb => ?_⟩
    · rcases List.mem_cons.mp hb with rfl | hb
      · exact le_refl x.stop
      · exact hxr b hb
    · have hax := hbefore a ha
      unfold Region.stop at hax
      rcases List.mem_cons.mp hb with rfl | hb
      · exact hax
      · rcases List.mem_cons.mp hb with rfl | hb
        · show a.addr + a.size ≤ x.stop
          unfold Region.stop
          omega
        · exact hlr a ha b (List.mem_cons_of_mem _ hb)
  · rcases hmem a ha with h | rfl
    · exact hw.addr_page a h
    · show x.stop % PAGE_SIZE = 0
      unfold Region.stop PAGE_SIZE at *
      omega
  · rcases hmem a ha with h | rfl
    · exact hw.size_page a h
    · exact hsize
  · rcases hmem a ha with h | rfl
    · exact hw.pos a h
    · exact hpos
  · rcases hmem a ha with h | rfl
    · exact hw.top a h
    · exact htop

end WellFormed

namespace RegionMemory

variable {σ : Type} {M : RegionMemory σ} {s s' : σ}

/-- The headers of the list are in memory, each with the pointer to the next. -/
def Linked (M : RegionMemory σ) (s : σ) : List Region → Prop
  | [] => True
  | a :: rs => a.addr ≠ 0 ∧ M.next s a.addr = some (headAddr rs) ∧
      M.size s a.addr = some a.size ∧ Linked M s rs

/-- The list that starts at the root. -/
def RegionsAt (M : RegionMemory σ) (s : σ) (vm_root : ℕ) (rs : List Region) : Prop :=
  M.Linked s rs ∧ ∃ root rest, rs = root :: rest ∧ root.addr = vm_root

/-- The headers that a list is read from determine it. -/
theorem Linked.unique {rs' : List Region} (h : M.Linked s rs) (h' : M.Linked s rs')
    (hhead : headAddr rs = headAddr rs') : rs = rs' := by
  induction rs generalizing rs' with
  | nil =>
    cases rs' with
    | nil => rfl
    | cons b rs' => exact absurd hhead.symm h'.1
  | cons a rs ih =>
    cases rs' with
    | nil => exact absurd hhead h.1
    | cons b rs' =>
      obtain ⟨-, hnext, hsize, hrest⟩ := h
      obtain ⟨-, hnext', hsize', hrest'⟩ := h'
      -- The first headers are at one address, so they hold the same link and the same size.
      have haddr : a.addr = b.addr := hhead
      rw [haddr] at hnext hsize
      have hsizes : a.size = b.size := Option.some.inj (hsize.symm.trans hsize')
      have hheads : headAddr rs = headAddr rs' := Option.some.inj (hnext.symm.trans hnext')
      rw [ih hrest hrest' hheads, show a = b from by cases a; cases b; simp_all]

theorem RegionsAt.unique {vm_root : ℕ} {rs' : List Region} (h : M.RegionsAt s vm_root rs)
    (h' : M.RegionsAt s vm_root rs') : rs = rs' := by
  obtain ⟨hl, a, t, rfl, ha⟩ := h
  obtain ⟨hl', b, t', rfl, hb⟩ := h'
  exact hl.unique hl' (ha.trans hb.symm)

theorem Linked.ne_zero (h : M.Linked s rs) (ha : a ∈ rs) : a.addr ≠ 0 := by
  induction rs with
  | nil => cases ha
  | cons b rs ih =>
    rcases List.mem_cons.mp ha with rfl | ha
    · exact h.1
    · exact ih h.2.2.2 ha

/-- The header of a region of the list. -/
theorem Linked.header (h : M.Linked s (l ++ x :: r)) :
    M.next s x.addr = some (headAddr r) ∧ M.size s x.addr = some x.size := by
  induction l with
  | nil => exact ⟨h.2.1, h.2.2.1⟩
  | cons a l ih => exact ih h.2.2.2

/-- The same headers make the same list. -/
theorem Linked.congr (h : M.Linked s rs)
    (hsame : ∀ a ∈ rs, M.next s' a.addr = M.next s a.addr ∧ M.size s' a.addr = M.size s a.addr) :
    M.Linked s' rs := by
  induction rs with
  | nil => trivial
  | cons a rs ih =>
    obtain ⟨h0, hnext, hsize, hrest⟩ := h
    obtain ⟨hn, hs⟩ := hsame a (List.mem_cons_self ..)
    exact ⟨h0, hn.trans hnext, hs.trans hsize,
      ih hrest (fun b hb => hsame b (List.mem_cons_of_mem _ hb))⟩

/-- A new header between two of the list. -/
theorem Linked.insert (h : M.Linked s (l ++ x :: r)) (h0 : new.addr ≠ 0)
    (hsame : ∀ a ∈ l ++ r, M.next s' a.addr = M.next s a.addr ∧ M.size s' a.addr = M.size s a.addr)
    (hxnext : M.next s' x.addr = some new.addr) (hxsize : M.size s' x.addr = some x.size)
    (hnext : M.next s' new.addr = some (headAddr r)) (hsize : M.size s' new.addr = some new.size) :
    M.Linked s' (l ++ x :: new :: r) := by
  induction l with
  | nil =>
    obtain ⟨hx0, -, -, hrest⟩ := h
    have hr : M.Linked s' r := hrest.congr hsame
    exact ⟨hx0, hxnext, hxsize, h0, hnext, hsize, hr⟩
  | cons a l ih =>
    obtain ⟨ha0, hanext, hasize, hrest⟩ := h
    obtain ⟨hn, hs⟩ := hsame a (List.mem_cons_self ..)
    refine ⟨ha0, ?_, hs.trans hasize, ih hrest (fun b hb => hsame b (List.mem_cons_of_mem _ hb))⟩
    calc M.next s' a.addr = M.next s a.addr := hn
      _ = some (headAddr (l ++ x :: r)) := hanext
      _ = some (headAddr (l ++ x :: new :: r)) :=
          congrArg some (headAddr_append l x r (new :: r))

/-- A header taken out of the list. -/
theorem Linked.unlink (h : M.Linked s (l ++ x :: y :: r))
    (hsame : ∀ a ∈ l ++ r, M.next s' a.addr = M.next s a.addr ∧ M.size s' a.addr = M.size s a.addr)
    (hxnext : M.next s' x.addr = some (headAddr r)) (hxsize : M.size s' x.addr = some x.size) :
    M.Linked s' (l ++ x :: r) := by
  induction l with
  | nil =>
    obtain ⟨hx0, -, -, -, -, -, hrest⟩ := h
    exact ⟨hx0, hxnext, hxsize, hrest.congr hsame⟩
  | cons a l ih =>
    obtain ⟨ha0, hanext, hasize, hrest⟩ := h
    obtain ⟨hn, hs⟩ := hsame a (List.mem_cons_self ..)
    refine ⟨ha0, ?_, hs.trans hasize, ih hrest (fun b hb => hsame b (List.mem_cons_of_mem _ hb))⟩
    calc M.next s' a.addr = M.next s a.addr := hn
      _ = some (headAddr (l ++ x :: y :: r)) := hanext
      _ = some (headAddr (l ++ x :: r)) := congrArg some (headAddr_append l x (y :: r) r)

/-- The list from an address on, as the headers give it. -/
def regionsFrom (M : RegionMemory σ) : ℕ → σ → ℕ → Option (List Region)
  | 0, _, _ => none
  | fuel + 1, s, current =>
    if current = 0 then some []
    else do
      let next ← M.next s current
      let size ← M.size s current
      let rest ← regionsFrom M fuel s next
      some (⟨current, size⟩ :: rest)

theorem linked_of_regionsFrom {c : ℕ} (h : M.regionsFrom fuel s c = some rs) :
    M.Linked s rs ∧ headAddr rs = c := by
  induction fuel generalizing c rs with
  | zero => cases h
  | succ fuel ih =>
    rw [regionsFrom] at h
    split at h
    · obtain rfl := Option.some.inj h
      exact ⟨trivial, (‹c = 0›).symm⟩
    · obtain ⟨next, hnext, h⟩ := Option.bind_eq_some_iff.mp h
      obtain ⟨size, hsize, h⟩ := Option.bind_eq_some_iff.mp h
      obtain ⟨rest, hrest, h⟩ := Option.bind_eq_some_iff.mp h
      obtain rfl := Option.some.inj h
      obtain ⟨hl, hhead⟩ := ih hrest
      exact ⟨⟨‹¬ c = 0›, hhead ▸ hnext, hsize, hl⟩, rfl⟩

theorem regionsAt_of_regionsFrom {c : ℕ} (h : M.regionsFrom fuel s c = some rs) (hc : c ≠ 0) :
    M.RegionsAt s c rs := by
  obtain ⟨hl, hhead⟩ := linked_of_regionsFrom h
  cases rs with
  | nil => exact absurd hhead.symm hc
  | cons a t => exact ⟨hl, a, t, rfl, hhead⟩

/-- The regions that a walk from the root comes to, also where the list bends back. -/
inductive OnList (M : RegionMemory σ) (s : σ) (vm_root : ℕ) : Region → Prop
  | root {size : ℕ} : M.size s vm_root = some size → OnList M s vm_root ⟨vm_root, size⟩
  | next {a : Region} {n size : ℕ} : OnList M s vm_root a → M.next s a.addr = some n → n ≠ 0 →
      M.size s n = some size → OnList M s vm_root ⟨n, size⟩

/-- A walk along a list that ends stays on it. -/
theorem RegionsAt.mem_of_onList {vm_root : ℕ} (h : M.RegionsAt s vm_root rs)
    (ha : M.OnList s vm_root a) : a ∈ rs := by
  obtain ⟨hl, b, t, rfl, rfl⟩ := h
  induction ha with
  | root hsize =>
    obtain rfl := Option.some.inj (hl.2.2.1.symm.trans hsize)
    exact List.mem_cons_self ..
  | @next a n size _ hnext hn hsize ih =>
    obtain ⟨l, r, hsplit⟩ := List.append_of_mem ih
    rw [hsplit] at hl ⊢
    obtain rfl := Option.some.inj ((hl.header).1.symm.trans hnext)
    cases r with
    | nil => exact absurd rfl hn
    | cons c r =>
      -- The link that the walk follows is the one to the region behind `a`.
      have hsplit' : l ++ a :: c :: r = (l ++ [a]) ++ c :: r := by simp
      rw [hsplit'] at hl ⊢
      obtain rfl := Option.some.inj ((hl.header).2.symm.trans hsize)
      exact List.mem_append_right _ (List.mem_cons_self ..)

/-! ## The walks -/

/-- A root with a size stays as it is. -/
theorem fixRoot_linked (h : M.Linked s (a :: rs)) (ha : a.size ≠ 0) :
    M.fixRoot s a.addr = some s := by
  rw [fixRoot, h.2.2.1, Option.bind_eq_bind, Option.bind_some, if_neg ha]

/-- `vmm_allocate` goes on behind the root. -/
theorem vmmAllocate_linked (h : M.Linked s (a :: rs)) (ha : a.size ≠ 0) :
    M.vmmAllocate (fuel + 1) s a.addr n =
      M.allocateLoop (regionSize n) fuel s (headAddr rs) a.addr := by
  rw [vmmAllocate, fixRoot_linked h ha, Option.bind_eq_bind, Option.bind_some, allocateLoop,
    if_neg h.1, if_pos rfl, h.2.1]
  rfl

theorem subw_header {base : ℕ} (h : base + 16 < 2^64) : subw (base + 16) 16 = base := by
  rw [subw_of_le (by omega) h]
  omega

/-- `vmm_free` goes on behind a root that it is not asked for. -/
theorem vmmFree_linked {release : σ → ℕ → Option σ} {p : ℕ} (h : M.Linked s (a :: rs))
    (hne : a.addr ≠ subw p 16) :
    M.vmmFree release (fuel + 1) s a.addr p =
      M.freeLoop release (subw p 16) fuel s (headAddr rs) a.addr := by
  rw [vmmFree, show sizeofVmmRegion = 16 from rfl, freeLoop, if_neg h.1, if_neg hne, h.2.1]
  rfl

/-- The loop of `vmm_allocate` behind a region of the list comes to the first gap that is large
enough, or to the last region. -/
theorem allocateLoop_linked (size : ℕ) (h : M.Linked s (a :: rs)) (hw : WellFormed (a :: rs))
    (hfuel : rs.length < fuel) :
    ∃ l x r, a :: rs = l ++ x :: r ∧ ¬ HasGap size (l ++ [x]) ∧
      ((∃ y r', r = y :: r' ∧ x.stop + size ≤ y.addr ∧
          M.allocateLoop size fuel s (headAddr rs) a.addr = M.insertInGap s size x.addr) ∨
        (r = [] ∧
          M.allocateLoop size fuel s (headAddr rs) a.addr = M.appendRegion s size x.addr)) := by
  have hnogap : ∀ x : Region, ¬ HasGap size [x] := fun _ h => h
  induction rs generalizing a fuel with
  | nil =>
    cases fuel with
    | zero => cases hfuel
    | succ fuel =>
      refine ⟨[], a, [], rfl, hnogap a, Or.inr ⟨rfl, ?_⟩⟩
      rw [headAddr, allocateLoop, if_pos rfl]
  | cons b rs ih =>
    cases fuel with
    | zero => cases hfuel
    | succ fuel =>
      obtain ⟨ha0, -, hasize, hrest⟩ := h
      have hb0 := hrest.1
      have hbnext := hrest.2.1
      have hstop := hw.top a (List.mem_cons_self ..)
      have hbtop := hw.top b (by simp)
      have hab := hw.around (l := []) |>.2 b (List.mem_cons_self ..)
      unfold Region.stop at hstop hbtop hab
      have hgap : subw b.addr (addw a.addr a.size) = b.addr - a.stop := by
        rw [addw_of_lt hstop, subw_of_le hab (by omega)]
        rfl
      have hloop : M.allocateLoop size (fuel + 1) s (headAddr (b :: rs)) a.addr =
          if b.addr - a.stop ≥ size then M.insertInGap s size a.addr
          else M.allocateLoop size fuel s (headAddr rs) b.addr := by
        rw [headAddr, allocateLoop, if_neg hb0, if_neg ha0, hasize]
        simp only [Option.bind_eq_bind, Option.bind_some, hgap, hbnext]
      rw [hloop]
      unfold Region.stop
      by_cases hfits : b.addr - (a.addr + a.size) ≥ size
      · refine ⟨[], a, b :: rs, rfl, hnogap a, Or.inl ⟨b, rs, rfl, by omega, ?_⟩⟩
        rw [if_pos hfits]
      · have hlen : rs.length < fuel := by rw [List.length_cons] at hfuel; omega
        obtain ⟨l, x, r, hsplit, hno, hcase⟩ :=
          ih hrest (hw.sublist (List.sublist_cons_self ..)) hlen
        refine ⟨a :: l, x, r, by rw [hsplit]; rfl, ?_, ?_⟩
        · have hnot : ¬ a.addr + a.size + size ≤ b.addr := by omega
          cases l with
          | nil =>
            obtain ⟨rfl, -⟩ := List.cons.inj hsplit
            exact fun h => h.elim hnot (hnogap b)
          | cons c l =>
            obtain ⟨rfl, -⟩ := List.cons.inj hsplit
            exact fun h => h.elim hnot hno
        · rw [if_neg hfits]
          exact hcase

/-- Where the loop of `vmm_allocate` ends, on any list: behind a region of it, in a gap or at its
end. -/
theorem allocateLoop_end {vm_root c prev : ℕ} {res : ℕ × σ} (hprev : prev ≠ 0)
    (hon : ∀ z, M.size s prev = some z → M.OnList s vm_root ⟨prev, z⟩)
    (hnext : M.next s prev = some c) (h : M.allocateLoop size fuel s c prev = some res) :
    ∃ prev z c, M.OnList s vm_root ⟨prev, z⟩ ∧ M.next s prev = some c ∧ M.size s prev = some z ∧
      ((c = 0 ∧ M.appendRegion s size prev = some res) ∨
        (size ≤ subw c (addw prev z) ∧ M.insertInGap s size prev = some res)) := by
  induction fuel generalizing c prev with
  | zero => cases h
  | succ fuel ih =>
    rw [allocateLoop] at h
    by_cases hc : c = 0
    · rw [if_pos hc] at h
      obtain ⟨z, hz, -⟩ := Option.bind_eq_some_iff.mp h
      exact ⟨prev, z, c, hon z hz, hnext, hz, Or.inl ⟨hc, h⟩⟩
    · rw [if_neg hc, if_neg hprev] at h
      obtain ⟨z, hz, h⟩ := Option.bind_eq_some_iff.mp h
      dsimp only at h
      by_cases hgap : subw c (addw prev z) ≥ size
      · rw [if_pos hgap] at h
        exact ⟨prev, z, c, hon z hz, hnext, hz, Or.inr ⟨hgap, h⟩⟩
      · rw [if_neg hgap] at h
        obtain ⟨n, hn, h⟩ := Option.bind_eq_some_iff.mp h
        exact ih hc (fun z' hz' => .next (hon z hz) hnext hc hz') hn h

/-- The loop of `vmm_free` behind a region of the list takes out the region at the target, if there
is one. -/
theorem freeLoop_linked (release : σ → ℕ → Option σ) (target : ℕ) (h : M.Linked s (a :: rs))
    (hfuel : rs.length < fuel) :
    (∃ l x y r, a :: rs = l ++ x :: y :: r ∧ y.addr = target ∧
      M.freeLoop release target fuel s (headAddr rs) a.addr =
        (M.setNext s x.addr (headAddr r)).bind (fun s' => release s' target)) ∨
    ((∀ y ∈ rs, y.addr ≠ target) ∧
      M.freeLoop release target fuel s (headAddr rs) a.addr = some s) := by
  induction rs generalizing a fuel with
  | nil =>
    cases fuel with
    | zero => cases hfuel
    | succ fuel =>
      refine Or.inr ⟨fun y hy => absurd hy List.not_mem_nil, ?_⟩
      rw [headAddr, freeLoop, if_pos rfl]
  | cons b rs ih =>
    cases fuel with
    | zero => cases hfuel
    | succ fuel =>
      have hrest := h.2.2.2
      have hloop : M.freeLoop release target (fuel + 1) s (headAddr (b :: rs)) a.addr =
          if b.addr = target then
            (M.setNext s a.addr (headAddr rs)).bind (fun s' => release s' target)
          else M.freeLoop release target fuel s (headAddr rs) b.addr := by
        rw [headAddr, freeLoop, if_neg hrest.1, hrest.2.1]
        rfl
      rw [hloop]
      by_cases htarget : b.addr = target
      · exact Or.inl ⟨[], a, b, rs, rfl, htarget, if_pos htarget⟩
      · rw [if_neg htarget]
        have hlen : rs.length < fuel := by rw [List.length_cons] at hfuel; omega
        rcases ih hrest hlen with
          ⟨l, x, y, r, hsplit, hy, heq⟩ | ⟨hnone, heq⟩
        · exact Or.inl ⟨a :: l, x, y, r, by rw [hsplit]; rfl, hy, heq⟩
        · refine Or.inr ⟨fun y hy => ?_, heq⟩
          rcases List.mem_cons.mp hy with rfl | hy
          · exact htarget
          · exact hnone y hy

/-- The steps of a region added behind the last one. -/
theorem appendRegion_eq_some {prev p : ℕ} :
    M.appendRegion s size prev = some (p, s') ↔
      ∃ z s₁ s₂ s₃, M.size s prev = some z ∧ M.vmmAllocateArea s (addw prev z) size = some s₁ ∧
        M.setNext s₁ (addw prev z) 0 = some s₂ ∧ M.setSize s₂ (addw prev z) size = some s₃ ∧
        M.setNext s₃ prev (addw prev z) = some s' ∧ p = addw (addw prev z) sizeofVmmRegion := by
  constructor
  · intro h
    obtain ⟨z, hz, h⟩ := Option.bind_eq_some_iff.mp h
    obtain ⟨s₁, h₁, h⟩ := Option.bind_eq_some_iff.mp h
    obtain ⟨s₂, h₂, h⟩ := Option.bind_eq_some_iff.mp h
    obtain ⟨s₃, h₃, h⟩ := Option.bind_eq_some_iff.mp h
    obtain ⟨s₄, h₄, h⟩ := Option.bind_eq_some_iff.mp h
    obtain ⟨rfl, rfl⟩ := Prod.mk.inj (Option.some.inj h)
    exact ⟨z, s₁, s₂, s₃, hz, h₁, h₂, h₃, h₄, rfl⟩
  · rintro ⟨z, s₁, s₂, s₃, hz, h₁, h₂, h₃, h₄, rfl⟩
    simp only [appendRegion, hz, h₁, h₂, h₃, h₄, Option.bind_eq_bind, Option.bind_some]

/-- The steps of a region put into the gap behind `prev`. -/
theorem insertInGap_eq_some {prev p : ℕ} :
    M.insertInGap s size prev = some (p, s') ↔
      ∃ z next s₁ s₂ s₃ s₄ s₅, M.size s prev = some z ∧
        M.setSize s (addw prev z) size = some s₁ ∧ M.next s₁ prev = some next ∧
        M.setNext s₁ (addw prev z) next = some s₂ ∧ M.setNext s₂ prev (addw prev z) = some s₃ ∧
        M.vmmAllocateArea s₃ (addw prev z) size = some s₄ ∧
        M.setSize s₄ (addw prev z) size = some s₅ ∧ M.setNext s₅ prev (addw prev z) = some s' ∧
        p = addw (addw prev z) (sizeofVmmRegion * sizeofVmmRegion) := by
  constructor
  · intro h
    obtain ⟨z, hz, h⟩ := Option.bind_eq_some_iff.mp h
    obtain ⟨s₁, h₁, h⟩ := Option.bind_eq_some_iff.mp h
    obtain ⟨next, hnext, h⟩ := Option.bind_eq_some_iff.mp h
    obtain ⟨s₂, h₂, h⟩ := Option.bind_eq_some_iff.mp h
    obtain ⟨s₃, h₃, h⟩ := Option.bind_eq_some_iff.mp h
    obtain ⟨s₄, h₄, h⟩ := Option.bind_eq_some_iff.mp h
    obtain ⟨s₅, h₅, h⟩ := Option.bind_eq_some_iff.mp h
    obtain ⟨s₆, h₆, h⟩ := Option.bind_eq_some_iff.mp h
    obtain ⟨rfl, rfl⟩ := Prod.mk.inj (Option.some.inj h)
    exact ⟨z, next, s₁, s₂, s₃, s₄, s₅, hz, h₁, hnext, h₂, h₃, h₄, h₅, h₆, rfl⟩
  · rintro ⟨z, next, s₁, s₂, s₃, s₄, s₅, hz, h₁, hnext, h₂, h₃, h₄, h₅, h₆, rfl⟩
    simp only [insertInGap, hz, h₁, hnext, h₂, h₃, h₄, h₅, h₆, Option.bind_eq_bind,
      Option.bind_some]

/-- A relation of the memory before to the memory after that every store and every new page
keeps. -/
structure Related (M : RegionMemory σ) (R : σ → σ → Prop) : Prop where
  refl : ∀ s, R s s
  trans : ∀ s t u, R s t → R t u → R s u
  store : ∀ s a v s', M.store s a v = some s' → R s s'
  page : ∀ s a s', M.page s a = some s' → R s s'

variable {R : σ → σ → Prop} {vm_root p prev : ℕ}

theorem Related.area {base : ℕ} (hR : M.Related R)
    (h : M.vmmAllocateArea s base size = some s') : R s s' := by
  unfold vmmAllocateArea at h
  generalize List.range ((size + PAGE_SIZE - 1) / PAGE_SIZE) = is at h
  induction is generalizing s with
  | nil =>
    obtain rfl := Option.some.inj h
    exact hR.refl s
  | cons i is ih =>
    obtain ⟨t, ht, h⟩ := Option.bind_eq_some_iff.mp h
    exact hR.trans s t s' (hR.page _ _ _ ht) (ih h)

theorem Related.gap (hR : M.Related R) (h : M.insertInGap s size prev = some (p, s')) :
    R s s' := by
  obtain ⟨_, _, s₁, s₂, s₃, s₄, s₅, -, h₁, -, h₂, h₃, h₄, h₅, h₆, -⟩ := insertInGap_eq_some.mp h
  have hwritten := hR.trans _ _ _ (hR.store _ _ _ _ h₁) (hR.trans _ _ _ (hR.store _ _ _ _ h₂)
    (hR.store _ _ _ _ h₃))
  exact hR.trans _ _ _ hwritten (hR.trans _ _ _ (hR.area h₄) (hR.trans _ _ _
    (hR.store _ _ _ _ h₅) (hR.store _ _ _ _ h₆)))

theorem Related.append (hR : M.Related R) (h : M.appendRegion s size prev = some (p, s')) :
    R s s' := by
  obtain ⟨_, s₁, s₂, s₃, -, h₁, h₂, h₃, h₄, -⟩ := appendRegion_eq_some.mp h
  exact hR.trans _ _ _ (hR.area h₁) (hR.trans _ _ _ (hR.store _ _ _ _ h₂)
    (hR.trans _ _ _ (hR.store _ _ _ _ h₃) (hR.store _ _ _ _ h₄)))

/-- The walk only reads, and ends in one of the two. -/
theorem Related.loop {c : ℕ} (hR : M.Related R)
    (h : M.allocateLoop size fuel s c prev = some (p, s')) : R s s' := by
  induction fuel generalizing c prev with
  | zero => cases h
  | succ fuel ih =>
    rw [allocateLoop] at h
    split at h
    · exact hR.append h
    · split at h
      · obtain ⟨_, -, h⟩ := Option.bind_eq_some_iff.mp h
        exact ih h
      · obtain ⟨_, -, h⟩ := Option.bind_eq_some_iff.mp h
        dsimp only at h
        split at h
        · exact hR.gap h
        · obtain ⟨_, -, h⟩ := Option.bind_eq_some_iff.mp h
          exact ih h

/-- `vmm_allocate` leaves the memory related. -/
theorem Related.vmmAllocate (hR : M.Related R)
    (h : M.vmmAllocate fuel s vm_root n = some (p, s')) : R s s' := by
  obtain ⟨s₁, hfix, h⟩ := Option.bind_eq_some_iff.mp h
  obtain ⟨_, -, hfix⟩ := Option.bind_eq_some_iff.mp hfix
  split at hfix
  · exact hR.trans _ _ _ (hR.store _ _ _ _ hfix) (hR.loop h)
  · obtain rfl := Option.some.inj hfix
    exact hR.loop h

/-- More fuel changes no result of the loop of `vmm_allocate`. -/
theorem allocateLoop_succ {c prev : ℕ} {res : ℕ × σ}
    (h : M.allocateLoop size fuel s c prev = some res) :
    M.allocateLoop size (fuel + 1) s c prev = some res := by
  induction fuel generalizing c prev with
  | zero => cases h
  | succ fuel ih =>
    rw [allocateLoop] at h ⊢
    by_cases hc : c = 0
    · rw [if_pos hc] at h ⊢
      exact h
    · rw [if_neg hc] at h ⊢
      by_cases hp : prev = 0
      · rw [if_pos hp] at h ⊢
        obtain ⟨next, hnext, h⟩ := Option.bind_eq_some_iff.mp h
        exact Option.bind_eq_some_iff.mpr ⟨next, hnext, ih h⟩
      · rw [if_neg hp] at h ⊢
        obtain ⟨psize, hpsize, h⟩ := Option.bind_eq_some_iff.mp h
        refine Option.bind_eq_some_iff.mpr ⟨psize, hpsize, ?_⟩
        dsimp only at h ⊢
        by_cases hg : subw c (addw prev psize) ≥ size
        · rw [if_pos hg] at h ⊢
          exact h
        · rw [if_neg hg] at h ⊢
          obtain ⟨next, hnext, h⟩ := Option.bind_eq_some_iff.mp h
          exact Option.bind_eq_some_iff.mpr ⟨next, hnext, ih h⟩

/-- The same of `vmm_allocate`. -/
theorem vmmAllocate_mono {vm_root k : ℕ} {res : ℕ × σ}
    (h : M.vmmAllocate fuel s vm_root n = some res) (hk : fuel ≤ k) :
    M.vmmAllocate k s vm_root n = some res := by
  induction k, hk using Nat.le_induction with
  | base => exact h
  | succ k _ ih =>
    obtain ⟨s', hs', ih⟩ := Option.bind_eq_some_iff.mp ih
    exact Option.bind_eq_some_iff.mpr ⟨s', hs', allocateLoop_succ ih⟩

/-- More fuel changes no result of the loop of `vmm_free`. -/
theorem freeLoop_succ {release : σ → ℕ → Option σ} {c prev target : ℕ} {res : σ}
    (h : M.freeLoop release target fuel s c prev = some res) :
    M.freeLoop release target (fuel + 1) s c prev = some res := by
  induction fuel generalizing c prev with
  | zero => cases h
  | succ fuel ih =>
    rw [freeLoop] at h ⊢
    by_cases hc : c = 0
    · rw [if_pos hc] at h ⊢
      exact h
    · rw [if_neg hc] at h ⊢
      by_cases ht : c = target
      · rw [if_pos ht] at h ⊢
        exact h
      · rw [if_neg ht] at h ⊢
        obtain ⟨next, hnext, h⟩ := Option.bind_eq_some_iff.mp h
        exact Option.bind_eq_some_iff.mpr ⟨next, hnext, ih h⟩

theorem vmmFree_mono {release : σ → ℕ → Option σ} {vm_root p k : ℕ} {res : σ}
    (h : M.vmmFree release fuel s vm_root p = some res) (hk : fuel ≤ k) :
    M.vmmFree release k s vm_root p = some res := by
  induction k, hk using Nat.le_induction with
  | base => exact h
  | succ k _ ih => exact freeLoop_succ ih

end RegionMemory

end Potatos
