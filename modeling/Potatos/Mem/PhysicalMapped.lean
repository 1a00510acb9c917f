import Potatos.Mem.PhysicalAddress

/-!
# `is_physical_memory_mapped`

The third walker. It takes a physical address through the tables as if it were a virtual one, by
the physical addresses of the tables, and compares where it gets with the address: so it answers
whether the page is mapped to itself, and not whether it is mapped anywhere. It does not fault as
long as the tables are where it looks for them (`physicalMapped_iff`).
-/

namespace Potatos

open Lib

/-- `is_physical_memory_mapped`. A load that faults is `none`. -/
def isPhysicalMemoryMapped (p4_table : ℕ) (m : PhysMem) (physical_address pml4_table : ℕ) :
    Option ℕ := do
  let pml4_index := physical_address >>> 39 &&& PT_ADDRESS_MASK
  let pdpt_index := physical_address >>> 30 &&& PT_ADDRESS_MASK
  let pd_index := physical_address >>> 21 &&& PT_ADDRESS_MASK
  let pt_index := physical_address >>> 12 &&& PT_ADDRESS_MASK
  let pdpt_entry ← m.load p4_table (pml4_table + 8 * pml4_index)
  if !present pdpt_entry then some PT_NOT_MAPPED
  else do
    let pdpt_table := pdpt_entry &&& PT_PAGE_MASK
    let pd_entry ← m.load p4_table (pdpt_table + 8 * pdpt_index)
    if !present pd_entry then some PT_NOT_MAPPED
    else do
      let pd_table := pd_entry &&& PT_PAGE_MASK
      let pt_entry ← m.load p4_table (pd_table + 8 * pd_index)
      if !present pt_entry then some PT_NOT_MAPPED
      else do
        let pt_table := pt_entry &&& PT_PAGE_MASK
        let page_entry ← m.load p4_table (pt_table + 8 * pt_index)
        if !present page_entry then some PT_NOT_MAPPED
        else if page_entry &&& PT_PAGE_MASK = physical_address &&& PT_PAGE_MASK then
          some PT_IS_MAPPED
        else some PT_NOT_MAPPED

variable {b : BootImage} {m : PhysMem} {physical_address : ℕ}

/-- The page of an address. -/
theorem and_pageMask_page (h : physical_address < 2^64) :
    physical_address &&& PT_PAGE_MASK = physical_address / 4096 * 4096 := by
  have hmask : PT_PAGE_MASK = (2^52 - 1) <<< 12 := by decide
  have hmul : physical_address / 4096 * 4096 = (physical_address >>> 12) <<< 12 := by
    rw [Nat.shiftLeft_eq, Nat.shiftRight_eq_div_pow]
  rw [hmask, hmul]
  apply Nat.eq_of_testBit_eq
  intro j
  rw [Nat.testBit_and, Nat.testBit_shiftLeft, Nat.testBit_shiftLeft, Nat.testBit_shiftRight,
    Nat.testBit_two_pow_sub_one]
  -- Bit by bit: the mask has the bits from 12 to 63, and the address has none above.
  by_cases hj : 12 ≤ j
  · have hsum : 12 + (j - 12) = j := by omega
    by_cases hlt : j < 64
    · simp [hj, hsum, show j - 12 < 52 by omega]
    · have hhigh : physical_address.testBit j = false := Nat.testBit_lt_two_pow
        (lt_of_lt_of_le h (Nat.pow_le_pow_right (by omega) (by omega)))
      simp [hsum, hhigh]
  · simp [hj]

/-- With the tables where it looks for them, it compares where the hardware walk gets with the
address. -/
theorem Direct.physicalMapped (h : Direct b m) (haddr : physical_address < 2^64) :
    isPhysicalMemoryMapped b.p4_table m physical_address b.p4Address =
      some (if m.walk b.p4_table physical_address = some (physical_address / 4096)
        then PT_IS_MAPPED else PT_NOT_MAPPED) := by
  have hindex : ∀ k, physical_address >>> k &&& PT_ADDRESS_MASK = (field physical_address k).val :=
    fun k => entry_eq physical_address k
  -- A step of the code from a table is a step of the walk.
  have hroot : m.IsTable b.p4_table b.p4_table := ⟨0, Nat.zero_le 3, at_zero.mpr rfl⟩
  have hload : ∀ {t}, m.IsTable b.p4_table t → ∀ i : Fin 512,
      m.load b.p4_table (t * 4096 + 8 * i) = some (m t i) :=
    fun ht i => load_entry (Nat.mul_mod_left _ 4096) (h.tables _ ht).2.2 i
  have hmask : ∀ {t}, m.IsTable b.p4_table t → ∀ i : Fin 512,
      m t i &&& PT_PAGE_MASK = frameOf (m t i) * 4096 := fun ht i => and_pageMask (h.entries _ ht i)
  have hstep : ∀ t (i : Fin 512), present (m t i) = true → m.next t i = some (frameOf (m t i)) :=
    fun t i hp => PhysMem.next_eq_some.mpr ⟨hp, rfl⟩
  have hstop : ∀ t (i : Fin 512), ¬ present (m t i) = true → m.next t i = none :=
    fun t i hp => PhysMem.next_eq_none.mpr hp
  unfold isPhysicalMemoryMapped PhysMem.walk
  simp only [hindex, and_pageMask_page haddr]
  generalize field physical_address 39 = i₁
  generalize field physical_address 30 = i₂
  generalize field physical_address 21 = i₃
  generalize field physical_address 12 = i₄
  simp only [descend_cons, descend_nil, load_entry p4Address_page.2 h.root i₁, hmask hroot,
    Option.bind_eq_bind, Option.bind_some, Bool.not_eq_true']
  by_cases h1 : present (m b.p4_table i₁) = true
  · have hfirst : descend m.next b.p4_table [i₁] = some (frameOf (m b.p4_table i₁)) :=
      descend_step (hstep _ _ h1)
    have ht₁ := isTable_of_descend h.paged (by simp) hfirst
    simp only [h1, hstep _ _ h1, hload ht₁, hmask ht₁, Option.bind_some]
    generalize frameOf (m b.p4_table i₁) = t₁ at *
    by_cases h2 : present (m t₁ i₂) = true
    · have hsecond : descend m.next b.p4_table [i₁, i₂] = some (frameOf (m t₁ i₂)) := by
        rw [show [i₁, i₂] = [i₁] ++ [i₂] from rfl, descend_snoc, hfirst]
        exact hstep _ _ h2
      have ht₂ := isTable_of_descend h.paged (by simp) hsecond
      simp only [h2, hstep _ _ h2, hload ht₂, hmask ht₂, Option.bind_some]
      generalize frameOf (m t₁ i₂) = t₂ at *
      by_cases h3 : present (m t₂ i₃) = true
      · have hthird : descend m.next b.p4_table [i₁, i₂, i₃] = some (frameOf (m t₂ i₃)) := by
          rw [show [i₁, i₂, i₃] = [i₁, i₂] ++ [i₃] from rfl, descend_snoc, hsecond]
          exact hstep _ _ h3
        have ht₃ := isTable_of_descend h.paged (by simp) hthird
        simp only [h3, hstep _ _ h3, hload ht₃, hmask ht₃, Option.bind_some]
        generalize frameOf (m t₂ i₃) = t₃ at *
        by_cases h4 : present (m t₃ i₄) = true
        · simp [h4, hstep _ _ h4, apply_ite some]
        · simp [h4, hstop _ _ h4]
      · simp [h3, hstop _ _ h3]
    · simp [h2, hstop _ _ h2]
  · simp [h1, hstop _ _ h1]

/-! ## Runs from the boot on -/

/-- The first 4 MiB are mapped to themselves. -/
def IdentityLow (p4_table : ℕ) (m : PhysMem) : Prop :=
  ∀ f < 1024, m.walk p4_table (f * 4096) = some f

namespace Machine

variable {K : Machine} {s s' : Paged PhysicalPages} {c : MapCall}

/-- A call of `map_page` that makes no table leaves them so. -/
theorem MapFrameStep.identityLow (hstep : K.MapFrameStep s c s')
    (hw : s.mem.WellPaged K.image.p4_table)
    (hthere : TablesThere K.image.p4_table s.mem c.virtual_address)
    (h : IdentityLow K.image.p4_table s.mem) : IdentityLow K.image.p4_table s'.mem := by
  rcases mapPage_tablesThere (s := ⟨s.mem, s.frames.allocate.2⟩) hw hthere hstep.2 with
    rfl | ⟨f, i, hat, hp, rfl⟩
  · exact h
  · intro g hg
    have h39 : field (g * 4096) 39 = 0 := field_eq (by
      show g * 4096 / 2^39 % 512 = 0
      omega)
    exact walk_set_of_mapped hw hat hp (by rw [h39]; decide) (h g hg)

/-- In every state that calls of `map_page` with frames from `allocate_physical_page` reach from the
boot, none of which has to make a page table, `is_physical_memory_mapped` does not fault on any
address. It reports whether the page is mapped to itself, as the pages of the first 4 MiB are. -/
theorem physicalMapped_iff (hloaded : K.Loaded)
    {ts : List (Transition (Paged PhysicalPages) MapCall)}
    (hrun : Run K.MapFrameStep K.boot ts s)
    (hthere : ∀ x ∈ ts, TablesThere K.image.p4_table x.pre.mem x.label.virtual_address)
    {physical_address : ℕ} (haddr : physical_address < 2^64) :
    isPhysicalMemoryMapped K.image.p4_table s.mem physical_address K.image.p4Address =
        some (if s.mem.walk K.image.p4_table physical_address = some (physical_address / 4096)
          then PT_IS_MAPPED else PT_NOT_MAPPED) ∧
      (physical_address < 2^22 →
        s.mem.walk K.image.p4_table physical_address = some (physical_address / 4096)) := by
  have hstart : (Direct K.image K.boot.mem ∧ K.boot.frames.bitmap.Small) ∧
      IdentityLow K.image.p4_table K.boot.mem :=
    ⟨⟨hloaded.direct, K.memory.initPmm_small⟩, fun f hf => BootImage.tables_walk hf (Or.inl rfl)⟩
  -- No call makes a table, so every table stays mapped at its own address, and so do the 4 MiB.
  have hkeep : ∀ (s : Paged PhysicalPages) (c : MapCall) (s' : Paged PhysicalPages),
      ((Direct K.image s.mem ∧ s.frames.bitmap.Small) ∧ IdentityLow K.image.p4_table s.mem) →
      TablesThere K.image.p4_table s.mem c.virtual_address → K.MapFrameStep s c s' →
      (Direct K.image s'.mem ∧ s'.frames.bitmap.Small) ∧ IdentityLow K.image.p4_table s'.mem :=
    fun _ _ _ h hthere hstep =>
      ⟨hstep.direct hloaded hthere h.1, hstep.identityLow h.1.1.paged hthere h.2⟩
  obtain ⟨⟨hdirect, -⟩, hkept⟩ := hrun.invariant hstart hthere hkeep
  refine ⟨hdirect.physicalMapped haddr, fun hlt => ?_⟩
  rw [← hkept (physical_address / 4096) (by omega)]
  exact walk_congr (by omega)

/-- After a call for the page at 4 KiB, the next page is reported as mapped. -/
theorem physicalMapped_small : ∃ s,
    (small 16416).MapFrameStep (small 16416).boot
      ⟨0x1000, (small 16416).boot.frames.allocate.1, 3⟩ s ∧
    isPhysicalMemoryMapped 256 s.mem 0x2010 (small 16416).image.p4Address =
      some PT_IS_MAPPED := by
  have hself : (small 16416).boot.mem.next 256 510 = some 256 := BootImage.tables_self
  have hthere : (small 16416).boot.mem.walk 256 0x1000 ≠ none := by
    have hfirst : (small 16416).boot.mem.walk 256 0x1000 = some 1 :=
      BootImage.tables_walk (by norm_num) (Or.inl rfl)
    rw [hfirst]
    exact Option.some_ne_none 1
  have hstep := MapFrameStep.of_mapped (K := small 16416) 3 hself hthere
  obtain ⟨heq, hmapped⟩ := physicalMapped_iff small_loaded (.single hstep)
    (fun x hx => by obtain rfl := List.mem_singleton.mp hx; exact Or.inl hthere)
    (by norm_num : (0x2010 : ℕ) < 2^64)
  exact ⟨_, hstep, heq.trans (congrArg some (if_pos (hmapped (by norm_num))))⟩

end Machine

end Potatos
