import Potatos.Lib.ByteMemory
import Potatos.Mem.RegionList

/-!
# Regions in flat memory

`vmm_allocate` where every page that it asks for is there: the headers are bytes at their virtual
addresses, and mapping a page changes none of them. This is the memory of the kernel as long as
physical memory lasts, when each page has a frame of its own, and it is the one in which the heap
and the regions meet.
-/

namespace Potatos

open Lib RegionMemory

/-- The headers as bytes at their virtual addresses, while physical memory lasts: every page that
the walks touch is there, and mapping pages does not change the bytes. -/
def flatMemory : RegionMemory ByteMemory where
  load m a := some (load 8 m a)
  store m a v := some (store 8 m a v)
  page m _ := some m

variable {m m' : ByteMemory} {rs l r : List Region} {x y : Region} {size n fuel root : ℕ}

theorem flat_next (m : ByteMemory) (a : ℕ) : flatMemory.next m a = some (load 8 m a) := rfl

theorem flat_size (m : ByteMemory) (a : ℕ) : flatMemory.size m a = some (load 8 m (a + 8)) := rfl

theorem flat_setNext (m : ByteMemory) (a v : ℕ) :
    flatMemory.setNext m a v = some (store 8 m a v) := rfl

theorem flat_setSize (m : ByteMemory) (a v : ℕ) :
    flatMemory.setSize m a v = some (store 8 m (a + 8) v) := rfl

theorem load_store_word {a v : ℕ} (hv : v < 2^64) : load 8 (store 8 m a v) a = v := by
  have h8 : (256 : ℕ)^8 = 2^64 := by norm_num
  rw [load_store_self, h8, Nat.mod_eq_of_lt hv]

/-- The header of `x` linked to a new header where `x` stops, and nothing else written. -/
structure Inserts (m m' : ByteMemory) (x : Region) (size next : ℕ) : Prop where
  link : load 8 m' x.addr = x.stop
  next : load 8 m' x.stop = next
  size : load 8 m' (x.stop + 8) = size
  other : ∀ z, (z < x.addr ∨ x.addr + 8 ≤ z) → (z < x.stop ∨ x.stop + 16 ≤ z) → m' z = m z

/-- What is written makes the list with the new region. -/
theorem Inserts.linked (hi : Inserts m m' x size (headAddr r))
    (h : flatMemory.Linked m (l ++ x :: r))
    (hw : WellFormed (l ++ x :: r)) (hr : ∀ a ∈ r, x.stop + size ≤ a.addr) (hsize : 16 ≤ size) :
    flatMemory.Linked m' (l ++ x :: ⟨x.stop, size⟩ :: r) := by
  have hx : x ∈ l ++ x :: r := by simp
  have hxsize := hw.size_ge hx
  obtain ⟨hbefore, hbehind⟩ := hw.around
  have hx0 := h.ne_zero hx
  unfold Region.stop PAGE_SIZE at *
  -- A word that meets neither the link nor the new header reads as before.
  have hread : ∀ k, k + 8 ≤ x.addr ∨ x.addr + 8 ≤ k → k + 8 ≤ x.addr + x.size ∨
      x.addr + x.size + 16 ≤ k → load 8 m' k = load 8 m k := by
    intro k h1 h2
    exact load_congr (fun z hz1 hz2 => hi.other z (by omega) (by unfold Region.stop; omega))
  refine h.insert (by show x.addr + x.size ≠ 0; omega) (fun a ha => ?_) (congrArg some hi.link) ?_
    (congrArg some hi.next) (congrArg some hi.size)
  · have hasize := hw.size_ge (mem_of_rest ha)
    unfold PAGE_SIZE at hasize
    -- The regions before `x` end before it, and the others begin behind the new one.
    have hcases : a.addr + a.size ≤ x.addr ∨ x.addr + x.size + size ≤ a.addr :=
      (List.mem_append.mp ha).elim (fun ha => Or.inl (hbefore a ha)) (fun ha => Or.inr (hr a ha))
    exact ⟨congrArg some (hread a.addr (by omega) (by omega)),
      congrArg some (hread (a.addr + 8) (by omega) (by omega))⟩
  · have hold := (h.header).2
    rw [← hold]
    exact congrArg some (hread (x.addr + 8) (by omega) (by omega))

theorem vmmAllocateArea_flat (a size : ℕ) : flatMemory.vmmAllocateArea m a size = some m := by
  unfold vmmAllocateArea
  generalize List.range ((size + PAGE_SIZE - 1) / PAGE_SIZE) = is
  induction is with
  | nil => rfl
  | cons i is ih => exact ih

/-- The gap branch of `vmm_allocate`. -/
theorem insertInGap_flat (h : flatMemory.Linked m (l ++ x :: r)) (hx : PAGE_SIZE ≤ x.size)
    (htop : x.stop < 2^64) (hsize : size < 2^64) (hr : headAddr r < 2^64) :
    ∃ m', flatMemory.insertInGap m size x.addr = some (addw x.stop 256, m') ∧
      Inserts m m' x size (headAddr r) := by
  obtain ⟨hnext, hxsize⟩ := h.header
  have hstop : addw x.addr x.size = x.stop := addw_of_lt htop
  have hxnext : load 8 m x.addr = headAddr r := Option.some.inj hnext
  unfold PAGE_SIZE at hx
  have hle : x.addr + 16 ≤ x.stop := by unfold Region.stop; omega
  -- The first store is into the gap, so the link behind `x` still reads as the next region.
  have hkeep : load 8 (store 8 m (x.stop + 8) size) x.addr = headAddr r := by
    rw [load_store_of_apart (Or.inl (by omega)), hxnext]
  generalize hm' : store 8 (store 8 (store 8 (store 8 (store 8 m (x.stop + 8) size) x.stop
    (headAddr r)) x.addr x.stop) (x.stop + 8) size) x.addr x.stop = m'
  refine ⟨m', ?_, ?_, ?_, ?_, fun z h1 h2 => ?_⟩
  · simp only [insertInGap, hxsize, hstop, flat_setSize, flat_setNext, flat_next, hkeep,
      vmmAllocateArea_flat, Option.bind_eq_bind, Option.bind_some, hm']
    rfl
  · rw [← hm', load_store_word htop]
  · rw [← hm', load_store_of_apart (Or.inr (by omega)), load_store_of_apart (Or.inl (by omega)),
      load_store_of_apart (Or.inr (by omega)), load_store_word hr]
  · rw [← hm', load_store_of_apart (Or.inr (by omega)), load_store_word hsize]
  · rw [← hm', store_of_out (by omega), store_of_out (by omega), store_of_out (by omega),
      store_of_out (by omega), store_of_out (by omega)]

/-- The end of `vmm_allocate`, behind the last region. -/
theorem appendRegion_flat (h : flatMemory.Linked m (l ++ [x])) (hx : PAGE_SIZE ≤ x.size)
    (htop : x.stop < 2^64) (hsize : size < 2^64) :
    ∃ m', flatMemory.appendRegion m size x.addr = some (addw x.stop 16, m') ∧
      Inserts m m' x size 0 := by
  obtain ⟨-, hxsize⟩ := h.header
  have hstop : addw x.addr x.size = x.stop := addw_of_lt htop
  unfold PAGE_SIZE at hx
  have hle : x.addr + 16 ≤ x.stop := by unfold Region.stop; omega
  generalize hm' : store 8 (store 8 (store 8 m x.stop 0) (x.stop + 8) size) x.addr x.stop = m'
  refine ⟨m', ?_, ?_, ?_, ?_, fun z h1 h2 => ?_⟩
  · simp only [appendRegion, hxsize, hstop, flat_setSize, flat_setNext, vmmAllocateArea_flat,
      Option.bind_eq_bind, Option.bind_some, hm']
    rfl
  · rw [← hm', load_store_word htop]
  · rw [← hm', load_store_of_apart (Or.inr (by omega)), load_store_of_apart (Or.inl (by omega)),
      load_store_word (by norm_num)]
  · rw [← hm', load_store_of_apart (Or.inr (by omega)), load_store_word hsize]
  · rw [← hm', store_of_out (by omega), store_of_out (by omega), store_of_out (by omega)]

/-- The root region that `init_vmm` made, on a page that reads as zero at `next`. -/
theorem regionsAt_root (hpos : 0 < root) (hnext : load 8 m root = 0) :
    flatMemory.RegionsAt (store 8 m (root + 8) PAGE_SIZE) root [⟨root, PAGE_SIZE⟩] := by
  refine ⟨⟨Nat.ne_of_gt hpos, ?_, ?_, trivial⟩, _, _, rfl, rfl⟩
  · rw [flat_next]
    exact congrArg some ((load_store_of_apart (Or.inl (le_refl _))).trans hnext)
  · rw [flat_size]
    exact congrArg some (load_store_word (by norm_num [PAGE_SIZE]))

/-- What `vmm_allocate` does: it inserts a region behind `x`, where there is the first gap that is
large enough, or behind the last region, and the pointer tells the two apart. -/
theorem vmmAllocate_flat (h : flatMemory.RegionsAt m root rs) (hw : WellFormed rs)
    (hpos : 0 < regionSize n) (hfuel : rs.length < fuel)
    (hwrap : HasGap (regionSize n) rs ∨ ∀ a ∈ rs, a.stop + regionSize n < 2^64) :
    ∃ l x r p m', rs = l ++ x :: r ∧
      flatMemory.vmmAllocate fuel m root n = some (p, m') ∧
      flatMemory.RegionsAt m' root (l ++ x :: ⟨x.stop, regionSize n⟩ :: r) ∧
      WellFormed (l ++ x :: ⟨x.stop, regionSize n⟩ :: r) ∧
      Inserts m m' x (regionSize n) (headAddr r) ∧ FirstGap (regionSize n) l x r ∧
      ((HasGap (regionSize n) rs ∧ p = x.stop + 256) ∨
        (¬ HasGap (regionSize n) rs ∧ p = x.stop + 16)) := by
  obtain ⟨hl, a, t, rfl, ha⟩ := h
  have hpage := regionSize_page n
  have hge := regionSize_ge hpos
  have hlt := regionSize_lt n
  obtain ⟨fuel, rfl⟩ : ∃ k, fuel = k + 1 := ⟨fuel - 1, by rw [List.length_cons] at hfuel; omega⟩
  have hapos := hw.pos a (List.mem_cons_self ..)
  have hfuel' : t.length < fuel := by rw [List.length_cons] at hfuel; omega
  obtain ⟨l, x, r, hsplit, hno, hcase⟩ := allocateLoop_linked (regionSize n) hl hw hfuel'
  rw [← ha, vmmAllocate_linked hl (by omega), hsplit]
  rw [hsplit] at hl hw hwrap
  have hx : x ∈ l ++ x :: r := by simp
  have hxtop := hw.top x hx
  have hxpage := hw.addr_page x hx
  have hxspage := hw.size_page x hx
  have hxstop : addw x.stop 256 = x.stop + 256 ∧ addw x.stop 16 = x.stop + 16 := by
    unfold Region.stop PAGE_SIZE at *
    exact ⟨addw_of_lt (by omega), addw_of_lt (by omega)⟩
  obtain ⟨t', ht'⟩ := head_of_split hsplit (⟨x.stop, regionSize n⟩ :: r)
  -- The new region is in a gap behind `x`, or `x` is the last region.
  rcases hcase with ⟨y, r', rfl, hgap, heq⟩ | ⟨rfl, heq⟩
  · have hy : y ∈ l ++ x :: y :: r' := by simp
    have hytop := hw.top y hy
    unfold Region.stop at hytop
    obtain ⟨m', hm', hins⟩ := insertInGap_flat hl (hw.size_ge hx) hxtop hlt
      (show y.addr < 2^64 by omega)
    have hbehind := hw.behind hgap
    rw [heq, hm', hxstop.1]
    refine ⟨l, x, y :: r', _, m', rfl, rfl, ⟨?_, a, t', ht', rfl⟩, ?_, hins, ⟨hno, fun _ => hgap⟩,
      Or.inl ⟨?_, rfl⟩⟩
    · exact hins.linked hl hw hbehind (by unfold PAGE_SIZE at hge; omega)
    · exact hw.insert hpage hpos (by omega) hbehind
    · exact hasGap_of_split hgap
  · have hxwrap : x.stop + regionSize n < 2^64 := (hwrap.resolve_left hno) x hx
    obtain ⟨m', hm', hins⟩ := appendRegion_flat hl (hw.size_ge hx) hxtop hlt
    have hbehind : ∀ b ∈ ([] : List Region), x.stop + regionSize n ≤ b.addr :=
      fun b hb => absurd hb List.not_mem_nil
    rw [heq, hm', hxstop.2]
    refine ⟨l, x, [], _, m', rfl, rfl, ⟨?_, a, t', ht', rfl⟩, ?_, hins,
      ⟨hno, fun hne => absurd rfl hne⟩, Or.inr ⟨hno, rfl⟩⟩
    · exact hins.linked hl hw hbehind (by unfold PAGE_SIZE at hge; omega)
    · exact hw.insert hpage hpos hxwrap hbehind

end Potatos
