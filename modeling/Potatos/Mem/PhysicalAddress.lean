import Potatos.Mem.InitVmm

/-!
# The two walkers

`is_virtual_memory_mapped` walks the tables through the self-map, and `get_physical_address` through
their physical addresses, which it dereferences as if they were virtual. The second walk is right as
long as each table is mapped at its own physical address (`Direct`). The boot tables are, as
they map the first 4 MiB to itself, and so are they after every call of `map_page` that makes no
table (`physicalAddress_agrees`). A new table is in a frame behind the reserve of `init_bitmap`,
where nothing is mapped to itself, and reading it faults.
-/

namespace Potatos

open Lib

/-! ## The code -/

def PT_PAGE_MASK : ℕ := 0xFFFFFFFFFFFFF000

def PT_ADDRESS_MASK : ℕ := 0x1FF

def PT_NOT_MAPPED : ℕ := 0

def PT_IS_MAPPED : ℕ := 1

/-- `p4_table` as a pointer, in the higher half. -/
def BootImage.p4Address (b : BootImage) : ℕ := 0xFFFFFFFF80000000 + b.p4_table * 4096

/-- `get_next_table_entry`. -/
def getNextTableEntry (p4_table : ℕ) (m : PhysMem) (current_table index : ℕ) : Option ℕ :=
  if current_table = 0 then some 0
  else do
    let value ← m.load p4_table (current_table + 8 * index)
    if present value then some (value &&& PT_PAGE_MASK) else some 0

/-- `get_physical_address`. A load that faults is `none`. -/
def getPhysicalAddress (b : BootImage) (m : PhysMem) (virtual_address : ℕ) : Option ℕ := do
  let pml4_index := virtual_address >>> 39 &&& PT_ADDRESS_MASK
  let pdpt_index := virtual_address >>> 30 &&& PT_ADDRESS_MASK
  let pd_index := virtual_address >>> 21 &&& PT_ADDRESS_MASK
  let pt_index := virtual_address >>> 12 &&& PT_ADDRESS_MASK
  let offset := virtual_address &&& 0xFFF
  let pml4_table := b.p4Address
  let pdpt_table ← getNextTableEntry b.p4_table m pml4_table pml4_index
  let pd_table ← getNextTableEntry b.p4_table m pdpt_table pdpt_index
  let pt_table ← getNextTableEntry b.p4_table m pd_table pd_index
  let value ← m.load b.p4_table (pt_table + 8 * pt_index)
  some (value &&& PT_PAGE_MASK ||| offset)

/-- `is_virtual_memory_mapped`. -/
def isVirtualMemoryMapped (p4_table : ℕ) (m : PhysMem) (virtual_address : ℕ) : Option ℕ := do
  let virtual_address := alignToPage virtual_address
  let pml4_e := PML4_ENTRY virtual_address
  let pdpr_e := PDPR_ENTRY virtual_address
  let pd_e := PD_ENTRY virtual_address
  let pml4_table := pml4Table
  let pdpr_table := pdprTable pml4_e
  let pd_table := pdTable pml4_e pdpr_e
  let pt_table := ptTable pml4_e pdpr_e pd_e
  let pt_e := PT_ENTRY virtual_address
  if !present (← m.load p4_table (pml4_table + 8 * pml4_e)) then some PT_NOT_MAPPED
  else if !present (← m.load p4_table (pdpr_table + 8 * pdpr_e)) then some PT_NOT_MAPPED
  else if !present (← m.load p4_table (pd_table + 8 * pd_e)) then some PT_NOT_MAPPED
  else if !present (← m.load p4_table (pt_table + 8 * pt_e)) then some PT_NOT_MAPPED
  else some PT_IS_MAPPED

variable {b : BootImage} {m : PhysMem} {p4_table f g v virtual_address : ℕ} {i : Fin 512}
  {p : List (Fin 512)}

/-! ## `is_virtual_memory_mapped` -/

/-- Through the self-map, the code sees what the hardware walk sees. -/
theorem isVirtualMemoryMapped_eq (hself : m.next p4_table 510 = some p4_table)
    (virtual_address : ℕ) :
    isVirtualMemoryMapped p4_table m virtual_address =
      some (if m.walk p4_table virtual_address = none then PT_NOT_MAPPED else PT_IS_MAPPED) := by
  obtain ⟨ha, hb, hc, hd⟩ := entries_alignToPage virtual_address
  unfold isVirtualMemoryMapped PhysMem.walk
  simp only [ha, hb, hc, hd]
  generalize field virtual_address 39 = a
  generalize field virtual_address 30 = b
  generalize field virtual_address 21 = c
  generalize field virtual_address 12 = d
  -- A step of the walk is a present entry.
  have hstep : ∀ f (i : Fin 512), present (m f i) = true → m.next f i = some (frameOf (m f i)) :=
    fun f i hp => PhysMem.next_eq_some.mpr ⟨hp, rfl⟩
  have hstop : ∀ f (i : Fin 512), ¬ present (m f i) = true → m.next f i = none :=
    fun f i hp => PhysMem.next_eq_none.mpr hp
  simp only [descend_cons, descend_nil, PhysMem.reaches_pml4.load hself descend_nil a,
    Option.bind_eq_bind, Option.bind_some, Bool.not_eq_true']
  by_cases h1 : present (m p4_table a) = true
  · have hfirst : descend m.next p4_table [a] = some (frameOf (m p4_table a)) :=
      descend_step (hstep _ _ h1)
    simp only [h1, hstep _ _ h1, (PhysMem.reaches_pdpr a).load hself hfirst b, Option.bind_some]
    generalize frameOf (m p4_table a) = t1 at *
    by_cases h2 : present (m t1 b) = true
    · have hsecond : descend m.next p4_table [a, b] = some (frameOf (m t1 b)) := by
        rw [show [a, b] = [a] ++ [b] from rfl, descend_snoc, hfirst]
        exact hstep _ _ h2
      simp only [h2, hstep _ _ h2, (PhysMem.reaches_pd a b).load hself hsecond c, Option.bind_some]
      generalize frameOf (m t1 b) = t2 at *
      by_cases h3 : present (m t2 c) = true
      · have hthird : descend m.next p4_table [a, b, c] = some (frameOf (m t2 c)) := by
          rw [show [a, b, c] = [a, b] ++ [c] from rfl, descend_snoc, hsecond]
          exact hstep _ _ h3
        simp only [h3, hstep _ _ h3, (PhysMem.reaches_pt a b c).load hself hthird d,
          Option.bind_some]
        generalize frameOf (m t2 c) = t3 at *
        by_cases h4 : present (m t3 d) = true
        · simp [h4, hstep _ _ h4]
        · simp [h4, hstop _ _ h4]
      · simp [h3, hstop _ _ h3]
    · simp [h2, hstop _ _ h2]
  · simp [h1, hstop _ _ h1]

theorem isMapped_iff (hself : m.next p4_table 510 = some p4_table) :
    isVirtualMemoryMapped p4_table m virtual_address = some PT_IS_MAPPED ↔
      m.walk p4_table virtual_address ≠ none := by
  rw [isVirtualMemoryMapped_eq hself, Option.some.injEq]
  by_cases h : m.walk p4_table virtual_address = none
  · rw [if_pos h]
    exact ⟨fun hc => absurd hc (by decide), fun hc => absurd h hc⟩
  · rw [if_neg h]
    exact ⟨fun _ => h, fun _ => rfl⟩

/-! ## `get_physical_address` -/

/-- The mask of an entry without bits above the frame number is the address of its frame. -/
theorem and_pageMask (hv : v < 2^52) : v &&& PT_PAGE_MASK = frameOf v * 4096 := by
  have hmask : PT_PAGE_MASK = (2^52 - 1) <<< 12 := by decide
  have hframe : frameOf v = v >>> 12 := by
    rw [frameOf, Nat.shiftRight_eq_div_pow]
    exact Nat.mod_eq_of_lt (by omega)
  have hmul : frameOf v * 4096 = (v >>> 12) <<< 12 := by
    rw [hframe, Nat.shiftLeft_eq]
  rw [hmask, hmul]
  apply Nat.eq_of_testBit_eq
  intro j
  rw [Nat.testBit_and, Nat.testBit_shiftLeft, Nat.testBit_shiftLeft, Nat.testBit_shiftRight,
    Nat.testBit_two_pow_sub_one]
  -- Bit by bit: the mask has the bits from 12 to 51, and the word has none above.
  by_cases hj : 12 ≤ j
  · have hsum : 12 + (j - 12) = j := by omega
    by_cases hlt : j < 52 + 12
    · simp [hj, hsum, show j - 12 < 52 by omega]
    · have hhigh : v.testBit j = false := Nat.testBit_lt_two_pow
        (lt_of_lt_of_le hv (Nat.pow_le_pow_right (by omega) (by omega)))
      simp [hsum, hhigh]
  · simp [hj]

/-- The frame is in the first 4 MiB, and mapped at its own physical address. -/
def IdentityMapped (p4_table : ℕ) (m : PhysMem) (t : ℕ) : Prop :=
  0 < t ∧ t < 1024 ∧ m.walk p4_table (t * 4096) = some t

/-- An entry of a page is on the page. -/
theorem walk_entry (m : PhysMem) (p4_table : ℕ) {address : ℕ} (haddr : address % 4096 = 0)
    (i : Fin 512) :
    m.walk p4_table (address + 8 * i) = m.walk p4_table address ∧
      field (address + 8 * i) 3 = i := by
  have hi := i.isLt
  exact ⟨walk_congr (by omega), field_eq (by omega)⟩

/-- A load through a pointer to a table that is mapped there. -/
theorem load_entry {address : ℕ} (haddr : address % 4096 = 0)
    (hwalk : m.walk p4_table address = some f) (i : Fin 512) :
    m.load p4_table (address + 8 * i) = some (m f i) := by
  obtain ⟨hsame, hindex⟩ := walk_entry m p4_table haddr i
  rw [PhysMem.load, hsame, hwalk, hindex]
  rfl

/-- A step of the code at a pointer to a table: the physical address of the next one. -/
theorem getNextTableEntry_eq {address : ℕ} (hpos : 0 < address) (haddr : address % 4096 = 0)
    (hwalk : m.walk p4_table address = some f) (hnext : m.next f i = some g)
    (hv : m f i < 2^52) : getNextTableEntry p4_table m address i = some (g * 4096) := by
  obtain ⟨hp, hframe⟩ := PhysMem.next_eq_some.mp hnext
  rw [getNextTableEntry, if_neg (by omega), load_entry haddr hwalk i, Option.bind_eq_bind,
    Option.bind_some, if_pos hp, and_pageMask hv, hframe]

/-- Every table is mapped at its own physical address, and `p4_table` also where the code names
it. -/
structure Direct (b : BootImage) (m : PhysMem) : Prop where
  paged : m.WellPaged b.p4_table
  root : m.walk b.p4_table b.p4Address = some b.p4_table
  tables : ∀ t, m.IsTable b.p4_table t → IdentityMapped b.p4_table m t
  entries : ∀ t, m.IsTable b.p4_table t → ∀ i, m t i < 2^52

/-- Also through the self-map, a walk of at most three steps ends in a table. -/
theorem isTable_of_descend (hw : m.WellPaged p4_table) (hlen : p.length ≤ 3)
    (hd : descend m.next p4_table p = some f) : m.IsTable p4_table f := by
  induction p with
  | nil => exact ⟨0, Nat.zero_le 3, at_zero.mpr (Option.some.inj hd).symm⟩
  | cons i p ih =>
    rw [List.length_cons] at hlen
    by_cases hi : i = 510
    · subst hi
      rw [descend_step hw.self] at hd
      exact ih (by omega) hd
    · have hhead : (i :: p).head? ≠ some 510 := head_ne hi p
      rw [hw.descend_eq hhead (by rw [List.length_cons]; omega) (fun _ _ => rfl)] at hd
      exact ⟨p.length + 1, by omega, i :: p, rfl, hd⟩

/-- The nodes of a walk. -/
theorem nodes_of_walk (h : m.walk p4_table virtual_address = some f) :
    ∃ t₁ t₂ t₃, descend m.next p4_table [field virtual_address 39] = some t₁ ∧
      descend m.next p4_table [field virtual_address 39, field virtual_address 30] = some t₂ ∧
      descend m.next p4_table [field virtual_address 39, field virtual_address 30,
        field virtual_address 21] = some t₃ ∧
      m.next p4_table (field virtual_address 39) = some t₁ ∧
      m.next t₁ (field virtual_address 30) = some t₂ ∧
      m.next t₂ (field virtual_address 21) = some t₃ ∧
      m.next t₃ (field virtual_address 12) = some f := by
  rw [PhysMem.walk] at h
  generalize field virtual_address 39 = a at *
  generalize field virtual_address 30 = b at *
  generalize field virtual_address 21 = c at *
  generalize field virtual_address 12 = d at *
  -- The walk is taken apart from its last step on.
  obtain ⟨t₃, h₃, hf⟩ := descend_last (p := [a, b, c]) h
  obtain ⟨t₂, h₂, hstep₃⟩ := descend_last (p := [a, b]) h₃
  obtain ⟨t₁, h₁, hstep₂⟩ := descend_last (p := [a]) h₂
  obtain ⟨root, h₀, hstep₁⟩ := descend_last (p := []) h₁
  obtain rfl := Option.some.inj h₀
  exact ⟨t₁, t₂, t₃, h₁, h₂, h₃, hstep₁, hstep₂, hstep₃, hf⟩

/-- A walk by its four steps. -/
theorem walk_of_nodes {t₁ t₂ t₃ : ℕ} (h₁ : m.next p4_table (field virtual_address 39) = some t₁)
    (h₂ : m.next t₁ (field virtual_address 30) = some t₂)
    (h₃ : m.next t₂ (field virtual_address 21) = some t₃)
    (h : m.next t₃ (field virtual_address 12) = some f) :
    m.walk p4_table virtual_address = some f :=
  calc m.walk p4_table virtual_address
      = descend m.next t₁ [field virtual_address 30, field virtual_address 21,
          field virtual_address 12] := descend_step h₁
    _ = descend m.next t₂ [field virtual_address 21, field virtual_address 12] := descend_step h₂
    _ = descend m.next t₃ [field virtual_address 12] := descend_step h₃
    _ = some f := descend_step h

theorem p4Address_page : 0 < b.p4Address ∧ b.p4Address % 4096 = 0 := by
  unfold BootImage.p4Address
  omega

/-- The addresses at which the code reads the tables are outside the self-map. -/
theorem p4Address_field (hb : b.p4_table < 1024) : field b.p4Address 39 ≠ 510 := by
  have h39 : field b.p4Address 39 = 511 := field_eq (by
    show (0xFFFFFFFF80000000 + b.p4_table * 4096) / 2^39 % 512 = 511
    omega)
  rw [h39]
  decide

theorem IdentityMapped.field_ne {t : ℕ} (h : IdentityMapped p4_table m t) :
    field (t * 4096) 39 ≠ 510 := by
  obtain ⟨hpos, hlt, -⟩ := h
  have h39 : field (t * 4096) 39 = 0 := field_eq (by
    show t * 4096 / 2^39 % 512 = 0
    omega)
  rw [h39]
  decide

/-- Where the walks of the mapped pages outside the self-map stay, the tables are still where the
code looks for them. -/
theorem IdentityMapped.congr {m' : PhysMem} {t : ℕ} (h : IdentityMapped p4_table m t)
    (hwalks : ∀ a f, field a 39 ≠ 510 → m.walk p4_table a = some f → m'.walk p4_table a = some f) :
    IdentityMapped p4_table m' t :=
  ⟨h.1, h.2.1, hwalks _ _ h.field_ne h.2.2⟩

/-- With the tables where the code looks for them, `get_physical_address` is the hardware walk. -/
theorem Direct.agrees (h : Direct b m)
    (hwalk : m.walk b.p4_table virtual_address ≠ none) :
    getPhysicalAddress b m virtual_address = m.translate b.p4_table virtual_address := by
  obtain ⟨f, hf⟩ := Option.ne_none_iff_exists'.mp hwalk
  obtain ⟨t₁, t₂, t₃, h₁, h₂, h₃, hstep₁, hstep₂, hstep₃, hstep⟩ := nodes_of_walk hf
  obtain ⟨hpos, hpage⟩ := p4Address_page (b := b)
  have hroot : m.IsTable b.p4_table b.p4_table := ⟨0, Nat.zero_le 3, at_zero.mpr rfl⟩
  have ht₁ := isTable_of_descend h.paged (by simp) h₁
  have ht₂ := isTable_of_descend h.paged (by simp) h₂
  have ht₃ := isTable_of_descend h.paged (by simp) h₃
  have hindex : ∀ k, virtual_address >>> k &&& PT_ADDRESS_MASK = (field virtual_address k).val :=
    fun k => entry_eq virtual_address k
  have hoffset : virtual_address &&& 0xFFF = virtual_address % 4096 :=
    Nat.and_two_pow_sub_one_eq_mod virtual_address 12
  -- The three steps of the code are those of the walk.
  have hfirst : getNextTableEntry b.p4_table m b.p4Address (field virtual_address 39) =
      some (t₁ * 4096) := getNextTableEntry_eq hpos hpage h.root hstep₁ (h.entries _ hroot _)
  have hnext : ∀ {t g : ℕ} {i : Fin 512}, m.IsTable b.p4_table t → m.next t i = some g →
      getNextTableEntry b.p4_table m (t * 4096) i = some (g * 4096) := by
    intro t g i ht hg
    obtain ⟨hpos, -, hwalk⟩ := h.tables t ht
    exact getNextTableEntry_eq (by omega) (by omega) hwalk hg (h.entries t ht i)
  -- And the entry of the page is read from its table.
  obtain ⟨-, -, hwalk₃⟩ := h.tables t₃ ht₃
  have hlast := load_entry (by omega) hwalk₃ (field virtual_address 12)
  have hentry : m t₃ (field virtual_address 12) &&& PT_PAGE_MASK = f * 4096 := by
    rw [and_pageMask (h.entries t₃ ht₃ _)]
    rw [(PhysMem.next_eq_some.mp hstep).2]
  have hsum : f * 4096 ||| virtual_address % 4096 = f * 4096 + virtual_address % 4096 :=
    mul_or_of_lt (k := 12) (Nat.mod_lt _ (by norm_num))
  unfold getPhysicalAddress
  simp only [hindex, hoffset, hfirst, hnext ht₁ hstep₂, hnext ht₂ hstep₃, hlast,
    Option.bind_eq_bind, Option.bind_some, hentry, hsum]
  rw [PhysMem.translate, hf]
  rfl

/-- Where the tables but the last one are mapped where the code looks for them, it faults on the
last one. -/
theorem getPhysicalAddress_fault {t : ℕ} (hroot : m.walk b.p4_table b.p4Address = some b.p4_table)
    (ht : 0 < t ∧ m.walk b.p4_table (t * 4096) = some t)
    (hf : 0 < f ∧ m.walk b.p4_table (f * 4096) = some f)
    (hstep₁ : m.next b.p4_table (field virtual_address 39) = some t)
    (hstep₂ : m.next t (field virtual_address 30) = some f)
    (hstep₃ : m.next f (field virtual_address 21) = some g)
    (hentry₁ : m b.p4_table (field virtual_address 39) < 2^52)
    (hentry₂ : m t (field virtual_address 30) < 2^52)
    (hentry₃ : m f (field virtual_address 21) < 2^52)
    (hnone : m.walk b.p4_table (g * 4096) = none) :
    getPhysicalAddress b m virtual_address = none := by
  have hindex : ∀ k, virtual_address >>> k &&& PT_ADDRESS_MASK = (field virtual_address k).val :=
    fun k => entry_eq virtual_address k
  obtain ⟨hpos, hpage⟩ := p4Address_page (b := b)
  have hfirst := getNextTableEntry_eq hpos hpage hroot hstep₁ hentry₁
  have hsecond := getNextTableEntry_eq (by omega) (by omega) ht.2 hstep₂ hentry₂
  have hthird := getNextTableEntry_eq (by omega) (by omega) hf.2 hstep₃ hentry₃
  -- The last load is of a word of the page that is not mapped.
  have hload : m.load b.p4_table (g * 4096 + 8 * (field virtual_address 12).val) = none := by
    obtain ⟨hsame, -⟩ :=
      walk_entry m b.p4_table (Nat.mul_mod_left g 4096) (field virtual_address 12)
    rw [PhysMem.load, hsame, hnone]
    rfl
  unfold getPhysicalAddress
  simp only [hindex, hfirst, hsecond, hthird, hload, Option.bind_eq_bind, Option.bind_some]
  rfl

/-! ## Calls of `map_page` that make no table -/

/-- The tables of the address are there: the page is mapped, or it is outside the self-map and
under a last-level table. -/
def TablesThere (p4_table : ℕ) (m : PhysMem) (virtual_address : ℕ) : Prop :=
  m.walk p4_table virtual_address ≠ none ∨
    field virtual_address 39 ≠ 510 ∧ descend m.next p4_table
      [field virtual_address 39, field virtual_address 30, field virtual_address 21] ≠ none

/-- Writing an entry that is not present leaves the pages that are mapped. -/
theorem walk_set_of_mapped (hw : m.WellPaged p4_table)
    (hf : At (m.tree p4_table) p4_table 3 f) (hp : present (m f i) ≠ true) {a : ℕ}
    (ha : field a 39 ≠ 510) (hmapped : m.walk p4_table a = some g) :
    (m.set f i v).walk p4_table a = some g := by
  refine ((set_walks hw hf ha).2 (fun hslot => ?_)).trans hmapped
  -- The slot of a mapped page is present.
  rw [hw.leafSlot_eq ha] at hslot
  obtain ⟨x, hx, heq⟩ := Option.map_eq_some_iff.mp hslot
  obtain ⟨rfl, rfl⟩ := Prod.mk.inj heq
  rw [hw.walk_of_table ha hx] at hmapped
  exact hp (PhysMem.next_eq_some.mp hmapped).1

/-- Writing an entry does not map a page that has no last-level table. -/
theorem walk_set_of_none (hw : m.WellPaged p4_table) (hf : At (m.tree p4_table) p4_table 3 f)
    {a : ℕ} (ha : field a 39 ≠ 510)
    (hnone : descend (m.tree p4_table) p4_table [field a 39, field a 30, field a 21] = none) :
    (m.set f i v).walk p4_table a = none := by
  have hslot : m.leafSlot p4_table a ≠ some (f, i) := by
    rw [hw.leafSlot_eq ha, hnone]
    exact (Option.some_ne_none _).symm
  rw [(set_walks hw hf ha).2 hslot]
  by_contra hsome
  exact hw.table_of_walk ha hsome hnone

section Call

variable {α : Type} {allocatePhysicalPage : α → ℕ × α} {s s' : Paged α} {physical_address : ℕ}
  {flags : BitVec 8}

/-- Such a call writes at most one entry, below `p4_table` and not present before. -/
theorem mapPage_tablesThere (hw : s.mem.WellPaged p4_table)
    (hthere : TablesThere p4_table s.mem virtual_address)
    (hres : mapPage allocatePhysicalPage p4_table s virtual_address physical_address flags =
      some s') :
    s' = s ∨ ∃ f i, At (s.mem.tree p4_table) p4_table 3 f ∧ present (s.mem f i) ≠ true ∧
      s' = ⟨s.mem.set f i (alignToPage physical_address ||| flags.toNat), s.frames⟩ := by
  by_cases hmapped : s.mem.walk p4_table virtual_address = none
  · obtain ⟨hva, htables⟩ := hthere.resolve_left (fun h => h hmapped)
    have hhead : [field virtual_address 39, field virtual_address 30,
        field virtual_address 21].head? ≠ some 510 := head_ne hva _
    rw [hw.descend_eq hhead (by simp) (fun _ _ => rfl)] at htables
    have hfresh : FreshAllocs allocatePhysicalPage p4_table s virtual_address :=
      freshAllocs_of_tables hw hva htables
    obtain ⟨s₃, f, -, -, hf, hsame, hcall⟩ := mapPage_spec hw physical_address flags hva hfresh
    -- No table is missing, so none is made.
    obtain rfl := hsame htables
    rw [hres] at hcall
    by_cases hp : present (s₃.mem f (field virtual_address 12)) = true
    · rw [if_pos hp] at hcall
      exact Or.inl (Option.some.inj hcall)
    · rw [if_neg hp] at hcall
      exact Or.inr ⟨f, _, ⟨_, rfl, hf⟩, hp, Option.some.inj hcall⟩
  · rw [mapPage_of_mapped hw.self physical_address flags hmapped] at hres
    exact Or.inl (Option.some.inj hres).symm

/-- It keeps the tables where the code looks for them. -/
theorem Direct.mapPage (h : Direct b s.mem) (hb : b.p4_table < 1024)
    (hthere : TablesThere b.p4_table s.mem virtual_address) (hphys : physical_address < 2^52)
    (hres : mapPage allocatePhysicalPage b.p4_table s virtual_address physical_address flags =
      some s') : Direct b s'.mem ∧ s'.frames = s.frames := by
  rcases mapPage_tablesThere h.paged hthere hres with rfl | ⟨f, i, hat, hp, rfl⟩
  · exact ⟨h, rfl⟩
  · obtain ⟨hleaf, hw'⟩ := setLeaf_set (i := i)
      (v := alignToPage physical_address ||| flags.toNat) h.paged hat
    have htable : ∀ t, (s.mem.set f i (alignToPage physical_address ||| flags.toNat)).IsTable
        b.p4_table t ↔ s.mem.IsTable b.p4_table t :=
      fun t => exists_congr (fun n => and_congr_right (fun hn => hleaf.at_iff h.paged.layered hn))
    -- The flags are below the address bits, so the entry stays below `2^52`.
    have hentry : alignToPage physical_address ||| flags.toNat < 2^52 := by
      have hflags := flags.isLt
      have hor : alignToPage physical_address ||| flags.toNat =
          physical_address / 4096 * 4096 + flags.toNat := mul_or_of_lt (k := 12) (by omega)
      omega
    refine ⟨⟨hw', walk_set_of_mapped h.paged hat hp (p4Address_field hb) h.root, fun t ht => ?_,
      fun t ht j => ?_⟩, rfl⟩
    · exact (h.tables t ((htable t).mp ht)).congr
        (fun a f ha hwalk => walk_set_of_mapped h.paged hat hp ha hwalk)
    · show s.mem.set f i (alignToPage physical_address ||| flags.toNat) t j < 2^52
      -- An entry of a table is the one that was set, or an old one.
      rcases PhysMem.set_eq_or t j with hset | hset
      · rw [hset]
        exact hentry
      · rw [hset]
        exact h.entries t ((htable t).mp ht) j

/-! ## A call of `map_page` that makes a table -/

variable {s₃ : Paged α} {d : Fin 512} {k n x : ℕ}

/-- A table at another depth is as it was. -/
theorem MakeTable.mem_eq (hmake : MakeTable allocatePhysicalPage p4_table s s₃ k f i g)
    (hw : s.mem.WellPaged p4_table) (hn : n ≤ 3) (hx : At (s.mem.tree p4_table) p4_table n x)
    (hne : n ≠ k) : (s₃.mem.set g d v) x = s.mem x := by
  have hdepth := hmake.link.depth
  have hxf : x ≠ f := by
    rintro rfl
    exact hne (hw.layered n k x hn (by omega) hx hmake.link.table)
  have hxg : x ≠ g := by
    rintro rfl
    exact hmake.link.fresh n hn hx
  rw [PhysMem.set_of_ne hxg, hmake.other x hxf hxg]

/-- The new last-level table is empty. -/
theorem MakeTable.not_present (hmake : MakeTable allocatePhysicalPage p4_table s s₃ k f i g) :
    present (s₃.mem g d) ≠ true := by
  have hne : g ≠ p4_table := fun h => hmake.link.fresh 0 (Nat.zero_le 3) (at_zero.mpr h)
  exact PhysMem.next_eq_none.mp ((PhysMem.tree_of_ne (Or.inl hne)).symm.trans (hmake.link.empty d))

/-- The new table, below the tables that were there. -/
theorem MakeTable.path (hmake : MakeTable allocatePhysicalPage p4_table s s₃ 2 f
      (field virtual_address 21) g) (hw : s.mem.WellPaged p4_table)
    (hf : descend (s.mem.tree p4_table) p4_table
      [field virtual_address 39, field virtual_address 30] = some f) :
    descend (s₃.mem.tree p4_table) p4_table
      [field virtual_address 39, field virtual_address 30, field virtual_address 21] = some g :=
  hmake.link.descend_new hw.layered (by simp) hf

/-- Writing an entry of the new table leaves the pages that were mapped. -/
theorem MakeTable.walk_eq (hmake : MakeTable allocatePhysicalPage p4_table s s₃ 2 f
      (field virtual_address 21) g) (hw : s.mem.WellPaged p4_table)
    (hf : descend (s.mem.tree p4_table) p4_table
      [field virtual_address 39, field virtual_address 30] = some f) {a : ℕ}
    (ha : field a 39 ≠ 510) (hx : s.mem.walk p4_table a = some x) :
    (s₃.mem.set g d v).walk p4_table a = some x := by
  have hmade : Made allocatePhysicalPage p4_table s s₃ := ⟨_, _, _, _, hmake⟩
  exact walk_set_of_mapped (hmake.wellPaged hw) ⟨_, rfl, hmake.path hw hf⟩ hmake.not_present ha
    ((hmade.walk_eq hw ha).trans hx)

/-- With a present entry in the new table, the page is mapped. -/
theorem MakeTable.walk_new (hmake : MakeTable allocatePhysicalPage p4_table s s₃ 2 f
      (field virtual_address 21) g) (hw : s.mem.WellPaged p4_table)
    (hf : descend (s.mem.tree p4_table) p4_table
      [field virtual_address 39, field virtual_address 30] = some f)
    (hva : field virtual_address 39 ≠ 510) (hv : present v = true) :
    (s₃.mem.set g (field virtual_address 12) v).walk p4_table virtual_address ≠ none := by
  have hw₃ := hmake.wellPaged hw
  have hpath := hmake.path hw hf
  obtain ⟨hleaf, hw'⟩ := setLeaf_set (i := field virtual_address 12) (v := v) hw₃ ⟨_, rfl, hpath⟩
  rw [hw'.walk_of_table hva ((hleaf.descend_table hw₃.layered (by simp)).trans hpath),
    PhysMem.next, PhysMem.set_self, if_pos hv]
  exact Option.some_ne_none _

theorem tableEntry_lt (hg : g < 2^40) : g * 4096 ||| PT_RW_BIT ||| PT_PRESENT_BIT < 2^52 := by
  have hor : g * 4096 ||| PT_RW_BIT ||| PT_PRESENT_BIT = g * 4096 + 3 := by
    rw [Nat.or_assoc]
    exact mul_or_of_lt (k := 12) (by decide)
  omega

/-- The address of a page below a table that has just been made is mapped when the entry is present,
but `get_physical_address` faults on it, if nothing is mapped at the physical address of the
table. -/
theorem Direct.faults (h : Direct b s.mem) (hb : b.p4_table < 1024)
    (hva : field virtual_address 39 ≠ 510)
    (hf : descend (s.mem.tree b.p4_table) b.p4_table
      [field virtual_address 39, field virtual_address 30] = some f)
    (hmake : MakeTable allocatePhysicalPage b.p4_table s s₃ 2 f (field virtual_address 21) g)
    (hentry : s₃.mem f (field virtual_address 21) = g * 4096 ||| PT_RW_BIT ||| PT_PRESENT_BIT)
    (hg : field (g * 4096) 39 ≠ 510)
    (hnone : descend (s₃.mem.tree b.p4_table) b.p4_table
      [field (g * 4096) 39, field (g * 4096) 30, field (g * 4096) 21] = none)
    (hv : present v = true) :
    (s₃.mem.set g (field virtual_address 12) v).walk b.p4_table virtual_address ≠ none ∧
      getPhysicalAddress b (s₃.mem.set g (field virtual_address 12) v) virtual_address = none := by
  have hw := h.paged
  refine ⟨hmake.walk_new hw hf hva hv, ?_⟩
  have hat : At (s₃.mem.tree b.p4_table) b.p4_table 3 g := ⟨_, rfl, hmake.path hw hf⟩
  obtain ⟨t, ht, htf⟩ := descend_last (p := [field virtual_address 39]) hf
  obtain ⟨root, hr, hfirst⟩ := descend_last (p := []) ht
  obtain rfl := Option.some.inj hr
  have hroot : At (s.mem.tree b.p4_table) b.p4_table 0 b.p4_table := at_zero.mpr rfl
  have htat : At (s.mem.tree b.p4_table) b.p4_table 1 t := ⟨_, rfl, ht⟩
  have hfat : At (s.mem.tree b.p4_table) b.p4_table 2 f := ⟨_, rfl, hf⟩
  have htp4 : t ≠ b.p4_table := by
    rintro rfl
    exact absurd (hw.at_root (by omega) htat) (by norm_num)
  have hfg : f ≠ g := by
    rintro rfl
    exact hmake.link.fresh 2 (by omega) hfat
  -- The tables above the one that got the link are as they were.
  have hp4mem := hmake.mem_eq (d := field virtual_address 12) (v := v) hw (by omega) hroot
    (by norm_num)
  have htmem := hmake.mem_eq (d := field virtual_address 12) (v := v) hw (by omega) htat
    (by norm_num)
  have hfmem : s₃.mem.set g (field virtual_address 12) v f (field virtual_address 21) =
      g * 4096 ||| PT_RW_BIT ||| PT_PRESENT_BIT := by
    rw [PhysMem.set_of_ne hfg, hentry]
  -- They are still mapped where the code looks for them, and the new one is not.
  have hidentity : ∀ {n x}, n ≤ 3 → At (s.mem.tree b.p4_table) b.p4_table n x →
      0 < x ∧ (s₃.mem.set g (field virtual_address 12) v).walk b.p4_table (x * 4096) =
        some x := by
    intro n x hn hx
    obtain ⟨hpos, -, hwalk⟩ := (h.tables x ⟨n, hn, hx⟩).congr
      (fun _ _ ha hmapped => hmake.walk_eq hw hf ha hmapped)
    exact ⟨hpos, hwalk⟩
  refine getPhysicalAddress_fault (hmake.walk_eq hw hf (p4Address_field hb) h.root)
    (hidentity (by omega) htat) (hidentity (by omega) hfat) ?_ ?_
    (PhysMem.next_link hmake.lt hfmem) ?_ ?_ (hfmem ▸ tableEntry_lt hmake.lt)
    (walk_set_of_none (hmake.wellPaged hw) hat hg hnone)
  · rw [PhysMem.next_congr (congrFun hp4mem _), ← PhysMem.tree_of_ne (Or.inr hva)]
    exact hfirst
  · rw [PhysMem.next_congr (congrFun htmem _), ← PhysMem.tree_of_ne (Or.inl htp4)]
    exact htf
  · rw [hp4mem]
    exact h.entries _ ⟨0, Nat.zero_le 3, hroot⟩ _
  · rw [htmem]
    exact h.entries _ ⟨1, by omega, htat⟩ _

end Call

/-! ## The boot tables -/

namespace BootImage

variable {framebuffer_addr : Option ℕ} {rest : PhysMem}

/-- The first two entries of `p2_table`, and all entries of the tables there. -/
theorem next_pt {k : ℕ} (hk : k < 2) (j : Fin 512) :
    (b.tables framebuffer_addr rest).next b.p2_table ⟨k, by omega⟩ = some (b.pt_tables + k) ∧
      (b.tables framebuffer_addr rest).next (b.pt_tables + k) j = some (512 * k + j) := by
  have hfits := b.fits
  have hj := j.isLt
  have h4 : b.p2_table ≠ b.p4_table := by unfold p2_table; omega
  have h3 : b.p2_table ≠ b.p3_table := by unfold p2_table p3_table; omega
  have hlt : b.pt_tables + k < 2^40 := by unfold pt_tables; omega
  have hcases : k = 0 ∨ k = 1 := by omega
  constructor
  · refine next_of_link hlt ?_
    rw [tables, if_neg h4, if_neg h3, if_pos rfl]
    rcases hcases with rfl | rfl
    · exact if_pos rfl
    · exact (if_neg (fun h => Nat.one_ne_zero (congrArg Fin.val h))).trans (if_pos rfl)
  · have ht4 : b.pt_tables + k ≠ b.p4_table := by unfold pt_tables; omega
    have ht3 : b.pt_tables + k ≠ b.p3_table := by unfold pt_tables p3_table; omega
    have ht2 : b.pt_tables + k ≠ b.p2_table := by unfold pt_tables p2_table; omega
    refine next_of_link (by omega) ?_
    rw [tables, if_neg ht4, if_neg ht3, if_neg ht2]
    rcases hcases with rfl | rfl
    · rw [if_pos (Nat.add_zero _), Nat.mul_zero, Nat.zero_add]
    · rw [if_neg (Nat.succ_ne_self _), if_pos rfl]

/-- The entries that map the first 4 MiB are in place. -/
structure BootMapped (b : BootImage) (m : PhysMem) : Prop where
  p4 : ∀ i, i = 0 ∨ i = 511 → m.next b.p4_table i = some b.p3_table
  p3 : ∀ i, i = 0 ∨ i = 510 → m.next b.p3_table i = some b.p2_table
  p2 : ∀ k (hk : k < 2), m.next b.p2_table ⟨k, by omega⟩ = some (b.pt_tables + k)
  pt : ∀ k < 2, ∀ j : Fin 512, m.next (b.pt_tables + k) j = some (512 * k + j)

theorem tables_bootMapped : BootMapped b (b.tables framebuffer_addr rest) where
  p4 := fun _ hi => next_p4 hi
  p3 := fun _ hi => next_p3 hi
  p2 := fun _ hk => (next_pt hk 0).1
  pt := fun _ hk j => (next_pt hk j).2

/-- Then the first 4 MiB are mapped where they are, and in the higher half. -/
theorem BootMapped.walk (h : BootMapped b m) {f address : ℕ} (hf : f < 1024)
    (haddr : address = f * 4096 ∨ address = 0xFFFFFFFF80000000 + f * 4096) :
    m.walk b.p4_table address = some f := by
  have h39 : field address 39 = 0 ∨ field address 39 = 511 := by
    rcases haddr with rfl | rfl
    · exact Or.inl (field_eq (by show f * 4096 / 2^39 % 512 = 0; omega))
    · exact Or.inr (field_eq (by show (0xFFFFFFFF80000000 + f * 4096) / 2^39 % 512 = 511; omega))
  have h30 : field address 30 = 0 ∨ field address 30 = 510 := by
    rcases haddr with rfl | rfl
    · exact Or.inl (field_eq (by show f * 4096 / 2^30 % 512 = 0; omega))
    · exact Or.inr (field_eq (by show (0xFFFFFFFF80000000 + f * 4096) / 2^30 % 512 = 510; omega))
  -- Both mappings use the one directory, and its first two tables map page `f` to frame `f`.
  have hk : f / 512 < 2 := by omega
  have h21 : field address 21 = ⟨f / 512, by omega⟩ := field_eq (by
    show address / 2^21 % 512 = f / 512
    omega)
  have h12 : (field address 12).val = f % 512 := by
    rw [field_val]
    omega
  have hframe : 512 * (f / 512) + (field address 12).val = f := by rw [h12, Nat.div_add_mod]
  exact walk_of_nodes (h.p4 _ h39) (h.p3 _ h30) (h21 ▸ h.p2 _ hk)
    ((h.pt _ hk _).trans (congrArg some hframe))

theorem tables_walk {f address : ℕ} (hf : f < 1024)
    (haddr : address = f * 4096 ∨ address = 0xFFFFFFFF80000000 + f * 4096) :
    (b.tables framebuffer_addr rest).walk b.p4_table address = some f :=
  tables_bootMapped.walk hf haddr

theorem link_lt {f : ℕ} (hf : f < 2^40) : link f < 2^52 := by
  have hlink : link f = f * 4096 + 3 := by
    rw [link, Nat.or_assoc]
    exact mul_or_of_lt (k := 12) (by decide)
  omega

/-- An entry for a page of the framebuffer. -/
theorem framebuffer_entry_lt (hframebuffer : ∀ a, framebuffer_addr = some a → a + 2^21 ≤ 2^52)
    (hsome : framebuffer_addr.isSome = true) (i : Fin 512) :
    (framebuffer_addr.getD 0 ||| 3) + 4096 * i < 2^52 := by
  obtain ⟨a, rfl⟩ := Option.isSome_iff_exists.mp hsome
  have ha := hframebuffer a rfl
  have hi := i.isLt
  have hquot : (a ||| 3) / 2^2 = a / 2^2 := by
    rw [Nat.or_div_two_pow]
    exact Nat.or_zero _
  show (a ||| 3) + 4096 * i < 2^52
  omega

/-- No entry of a table has bits above the frame number. -/
theorem tables_entry_lt (hframebuffer : ∀ a, framebuffer_addr = some a → a + 2^21 ≤ 2^52) {t : ℕ}
    (ht : (b.tables framebuffer_addr rest).IsTable b.p4_table t) :
    b.tables framebuffer_addr rest t i < 2^52 := by
  have hfits := b.fits
  have hi := i.isLt
  have hbranch : ∀ (p : Prop) [Decidable p] (x y : ℕ), (p → x < 2^52) → (¬ p → y < 2^52) →
      (if p then x else y) < 2^52 := by
    intro p _ x y hx hy
    split
    · exact hx ‹p›
    · exact hy ‹¬ p›
  have hzero : (0 : ℕ) < 2^52 := by norm_num
  obtain ⟨n, hn, hat⟩ := ht
  have hcases := tables_at hn hat
  unfold tables
  unfold p3_table p2_table pt_tables fbb_pt_tables at *
  -- Every entry is 0, a link to a boot table or to a page, or a page of the framebuffer.
  refine hbranch _ _ _ (fun _ => ?_) (fun h4 => hbranch _ _ _ (fun _ => ?_) (fun h3 =>
    hbranch _ _ _ (fun _ => ?_) (fun h2 => hbranch _ _ _ (fun _ => link_lt (by omega)) (fun _ =>
    hbranch _ _ _ (fun _ => link_lt (by omega)) (fun _ => hbranch _ _ _ (fun h => ?_) (fun _ =>
    hbranch _ _ _ (fun _ => hzero) (fun hout => ?_)))))))
  · exact hbranch _ _ _ (fun _ => link_lt (by omega))
      (fun _ => hbranch _ _ _ (fun _ => link_lt (by omega)) (fun _ => hzero))
  · exact hbranch _ _ _ (fun _ => link_lt (by omega)) (fun _ => hzero)
  · exact hbranch _ _ _ (fun _ => link_lt (by omega)) (fun _ =>
      hbranch _ _ _ (fun _ => link_lt (by omega)) (fun _ =>
        hbranch _ _ _ (fun _ => link_lt (by omega)) (fun _ => hzero)))
  · exact framebuffer_entry_lt hframebuffer h.2 i
  · -- The frame is that of a table.
    omega

end BootImage

/-! ## Runs from the boot on -/

/-- An address that the allocator returns has no bits above a frame number. -/
theorem PhysicalPages.allocate_lt {frames : PhysicalPages} (hb : frames.bitmap.Small) :
    frames.allocate.1 < 2^52 := by
  obtain ⟨g, haddr, hlt, -⟩ := allocate_free_or_zero hb
  omega

namespace Machine

variable (K : Machine)

/-- The kernel is where the linker script puts it, its tables are in the 4 MiB that they map, and
the framebuffer is in physical memory. -/
structure Loaded : Prop where
  low : 256 ≤ K.image.p4_table
  high : K.image.p4_table + 16 ≤ 1024
  framebuffer : ∀ a, K.framebuffer_addr = some a → a + 2^21 ≤ 2^52

/-- A call of `map_page` with a frame from `allocate_physical_page`. -/
def MapFrameStep (s : Paged PhysicalPages) (c : MapCall) (s' : Paged PhysicalPages) : Prop :=
  c.physical_address = s.frames.allocate.1 ∧
    mapPage PhysicalPages.allocate K.image.p4_table ⟨s.mem, s.frames.allocate.2⟩ c.virtual_address
      c.physical_address c.flags = some s'

variable {K} {s s' : Paged PhysicalPages} {c : MapCall}

/-- A call for a page that is mapped only takes a frame. -/
theorem MapFrameStep.of_mapped {virtual_address : ℕ} (flags : BitVec 8)
    (hself : s.mem.next K.image.p4_table 510 = some K.image.p4_table)
    (hwalk : s.mem.walk K.image.p4_table virtual_address ≠ none) :
    K.MapFrameStep s ⟨virtual_address, s.frames.allocate.1, flags⟩
      ⟨s.mem, s.frames.allocate.2⟩ :=
  ⟨rfl, mapPage_of_mapped (s := ⟨s.mem, s.frames.allocate.2⟩) hself s.frames.allocate.1 flags
    hwalk⟩

theorem Loaded.direct (h : K.Loaded) : Direct K.image K.boot.mem := by
  have hlow := h.low
  have hhigh := h.high
  refine ⟨BootImage.tables_wellPaged, BootImage.tables_walk (by omega) (Or.inr rfl),
    fun t ht => ?_, fun t ht i => BootImage.tables_entry_lt h.framebuffer ht⟩
  obtain ⟨n, hn, hat⟩ := ht
  have hcases := BootImage.tables_at hn hat
  unfold BootImage.p3_table BootImage.p2_table BootImage.pt_tables BootImage.fbb_pt_tables at hcases
  exact ⟨by omega, by omega, BootImage.tables_walk (by omega) (Or.inl rfl)⟩

/-- A call that makes no table keeps the tables where the code looks for them. -/
theorem MapFrameStep.direct (hstep : K.MapFrameStep s c s') (hloaded : K.Loaded)
    (hthere : TablesThere K.image.p4_table s.mem c.virtual_address)
    (h : Direct K.image s.mem ∧ s.frames.bitmap.Small) :
    Direct K.image s'.mem ∧ s'.frames.bitmap.Small := by
  obtain ⟨haddr, hres⟩ := hstep
  obtain ⟨hdirect, hsmall⟩ := h
  have hhigh := hloaded.high
  have hphys : c.physical_address < 2^52 := haddr ▸ PhysicalPages.allocate_lt hsmall
  obtain ⟨hdirect', hframes⟩ :=
    Direct.mapPage (s := ⟨s.mem, s.frames.allocate.2⟩) hdirect (by omega) hthere hphys hres
  rw [hframes]
  exact ⟨hdirect', PhysicalPages.small_allocate hsmall⟩

/-- In every state that calls of `map_page` with frames from `allocate_physical_page` reach from the
boot, none of which has to make a page table, `get_physical_address` does not fault on an address
that `is_virtual_memory_mapped` reports as mapped, and returns the frame of the hardware walk with
the offset of the address. -/
theorem physicalAddress_agrees (hloaded : K.Loaded)
    {ts : List (Transition (Paged PhysicalPages) MapCall)}
    (hrun : Run K.MapFrameStep K.boot ts s)
    (hthere : ∀ x ∈ ts, TablesThere K.image.p4_table x.pre.mem x.label.virtual_address)
    {virtual_address : ℕ}
    (hmapped : isVirtualMemoryMapped K.image.p4_table s.mem virtual_address =
      some PT_IS_MAPPED) :
    ∃ f, s.mem.walk K.image.p4_table virtual_address = some f ∧
      getPhysicalAddress K.image s.mem virtual_address =
        some (f * 4096 + virtual_address % 4096) := by
  have hstart : Direct K.image K.boot.mem ∧ K.boot.frames.bitmap.Small :=
    ⟨hloaded.direct, K.memory.initPmm_small⟩
  -- A call on tables that are there makes no table, so every table stays mapped at its own address.
  have hkeep : ∀ (s : Paged PhysicalPages) (c : MapCall) (s' : Paged PhysicalPages),
      (Direct K.image s.mem ∧ s.frames.bitmap.Small) →
      TablesThere K.image.p4_table s.mem c.virtual_address → K.MapFrameStep s c s' →
      Direct K.image s'.mem ∧ s'.frames.bitmap.Small :=
    fun _ _ _ h hthere hstep => hstep.direct hloaded hthere h
  obtain ⟨hdirect, -⟩ := hrun.invariant hstart hthere hkeep
  have hwalk := (isMapped_iff hdirect.paged.self).mp hmapped
  obtain ⟨f, hf⟩ := Option.ne_none_iff_exists'.mp hwalk
  refine ⟨f, hf, ?_⟩
  rw [hdirect.agrees hwalk, PhysMem.translate, hf]
  rfl

theorem small_loaded {mem_upper : BitVec 32} : (small mem_upper).Loaded :=
  ⟨le_refl 256, by show 256 + 16 ≤ 1024; norm_num, fun a ha => by cases ha⟩

/-- After a call for the page at 4 KiB, which is mapped, an address of the next page is
translated. -/
theorem physicalAddress_agrees_small : ∃ s,
    (small 16416).MapFrameStep (small 16416).boot
      ⟨0x1000, (small 16416).boot.frames.allocate.1, 3⟩ s ∧
    ∃ f, s.mem.walk 256 0x2010 = some f ∧
      getPhysicalAddress (small 16416).image s.mem 0x2010 = some (f * 4096 + 0x2010 % 4096) := by
  have hfirst : (small 16416).boot.mem.walk 256 0x1000 = some 1 :=
    BootImage.tables_walk (by norm_num) (Or.inl rfl)
  have hnext : (small 16416).boot.mem.walk 256 0x2010 = some 2 :=
    (walk_congr (by norm_num : 0x2010 / 4096 = 0x2000 / 4096)).trans
      (BootImage.tables_walk (by norm_num) (Or.inl rfl))
  have hself : (small 16416).boot.mem.next 256 510 = some 256 := BootImage.tables_self
  have hthere : (small 16416).boot.mem.walk 256 0x1000 ≠ none := by
    rw [hfirst]
    exact Option.some_ne_none 1
  have hstep := MapFrameStep.of_mapped (K := small 16416) 3 hself hthere
  have hmapped : isVirtualMemoryMapped 256 (small 16416).boot.mem 0x2010 = some PT_IS_MAPPED := by
    refine (isMapped_iff hself).mpr ?_
    rw [hnext]
    exact Option.some_ne_none 2
  exact ⟨_, hstep, physicalAddress_agrees small_loaded (.single hstep)
    (fun x hx => by obtain rfl := List.mem_singleton.mp hx; exact Or.inl hthere) hmapped⟩

/-- A call that makes the last-level table of its address, in a frame at whose physical address
another slot of the directory is empty: the address is then mapped, and `get_physical_address`
faults on it. -/
theorem map_faults {reserve f : ℕ} (virtual_address physical_address : ℕ)
    (hin : InOrder K.image.p4_table reserve s) (hdirect : Direct K.image s.mem)
    (hb : K.image.p4_table < 1024) (hva : field virtual_address 39 ≠ 510)
    (hf : descend (s.mem.tree K.image.p4_table) K.image.p4_table
      [field virtual_address 39, field virtual_address 30] = some f)
    (hnone : s.mem.tree K.image.p4_table f (field virtual_address 21) = none)
    (hgood : s.frames.allocate.2.ran_out ≠ true)
    (hfree : ∀ g, s.frames.Free g → field (g * 4096) 39 = field virtual_address 39 ∧
      field (g * 4096) 30 = field virtual_address 30 ∧
      field (g * 4096) 21 ≠ field virtual_address 21 ∧
      s.mem.tree K.image.p4_table f (field (g * 4096) 21) = none) :
    ∃ s', mapPage PhysicalPages.allocate K.image.p4_table s virtual_address physical_address 3 =
        some s' ∧
      isVirtualMemoryMapped K.image.p4_table s'.mem virtual_address = some PT_IS_MAPPED ∧
      getPhysicalAddress K.image s'.mem virtual_address = none := by
  have hfresh := hin.freshFrame hgood
  obtain ⟨s₃, g, hmake, hentry, hcall⟩ :=
    mapPage_makes_table hin.paged physical_address 3 hva hf hnone hfresh
  -- The frame of the table was free.
  obtain ⟨g', hg', haddr, -⟩ := PhysicalPages.allocate_spec hin.small hgood
  obtain rfl : g' = g := by
    have hframe := congrArg Prod.fst hmake.frame
    have haddr' : g' * 4096 = g * 4096 := haddr.symm.trans hframe
    omega
  obtain ⟨h39, h30, h21, hempty⟩ := hfree g' hg'
  have hfat : At (s.mem.tree K.image.p4_table) K.image.p4_table 2 f := ⟨_, rfl, hf⟩
  have hfg : f ≠ g' := by
    rintro rfl
    exact hmake.link.fresh 2 (by omega) hfat
  have hpath := hmake.link.keeps hin.paged.layered (by simp) hf
  have htable : descend (s₃.mem.tree K.image.p4_table) K.image.p4_table
      [field (g' * 4096) 39, field (g' * 4096) 30, field (g' * 4096) 21] = none := by
    rw [h39, h30, show [field virtual_address 39, field virtual_address 30, field (g' * 4096) 21] =
      [field virtual_address 39, field virtual_address 30] ++ [field (g' * 4096) 21] from rfl,
      descend_snoc, hpath]
    exact (hmake.link.other f _ hfg (fun h => h21 h.2)).trans hempty
  have hv : present (alignToPage physical_address ||| (3 : BitVec 8).toNat) = true := by
    have hor : alignToPage physical_address ||| (3 : BitVec 8).toNat =
        physical_address / 4096 * 4096 + 3 := mul_or_of_lt (k := 12) (by decide)
    rw [hor, present, show PT_PRESENT_BIT = 1 from rfl, Nat.and_one_is_mod]
    have hodd : (physical_address / 4096 * 4096 + 3) % 2 = 1 := by omega
    rw [hodd]
    rfl
  obtain ⟨hwalk, hfault⟩ :=
    hdirect.faults hb hva hf hmake hentry (h39.symm ▸ hva) htable hv
  have hat : At (s₃.mem.tree K.image.p4_table) K.image.p4_table 3 g' :=
    At.step ⟨_, rfl, hpath⟩ hmake.link.new
  have hpaged := (setLeaf_set (i := field virtual_address 12)
    (v := alignToPage physical_address ||| (3 : BitVec 8).toNat) (hmake.wellPaged hin.paged) hat).2
  exact ⟨_, hcall, (isMapped_iff hpaged.self).mpr hwalk, hfault⟩

/-- With two free pages after the boot, one can be taken for the page and one for its table. -/
theorem boot_taken (henough : K.boot.frames.Enough (0 + 1 + 1)) :
    InOrder K.image.p4_table K.reserve ⟨K.boot.mem, K.boot.frames.allocate.2⟩ ∧
      K.boot.frames.allocate.2.allocate.2.ran_out ≠ true := by
  have hin := K.boot_inOrder
  have htaken := henough.allocate hin.small
  obtain ⟨-, -, -, -, hkeeps⟩ := hin.take htaken.1
  exact ⟨hkeeps.inOrder, (htaken.allocate (PhysicalPages.small_allocate hin.small)).1⟩

/-- The page directory of the first GiB, whose other slots are empty. -/
theorem boot_directory : descend (K.boot.mem.tree K.image.p4_table) K.image.p4_table [0, 0] =
      some K.image.p2_table ∧
    ∀ i : Fin 512, i ≠ 0 → i ≠ 1 → i ≠ 488 →
      K.boot.mem.tree K.image.p4_table K.image.p2_table i = none := by
  have h34 : K.image.p3_table ≠ K.image.p4_table := by unfold BootImage.p3_table; omega
  have h24 : K.image.p2_table ≠ K.image.p4_table := by unfold BootImage.p2_table; omega
  have h23 : K.image.p2_table ≠ K.image.p3_table := by
    unfold BootImage.p2_table BootImage.p3_table
    omega
  refine ⟨?_, fun i h0 h1 h488 => ?_⟩
  · have hnext : K.boot.mem.tree K.image.p4_table K.image.p3_table 0 = some K.image.p2_table :=
      (PhysMem.tree_of_ne (Or.inl h34)).trans (BootImage.next_p3 (Or.inl rfl))
    exact (descend_step K.p4_zero).trans (descend_step hnext)
  · rw [PhysMem.tree_of_ne (Or.inl h24)]
    apply BootImage.next_of_zero
    show K.image.tables _ _ _ _ = 0
    rw [BootImage.tables, if_neg h24, if_neg h23, if_pos rfl, if_neg h0, if_neg h1,
      if_neg (fun h => h488 h.1)]

/-- The first call for a page of the first GiB outside the boot tables: it needs a table, and when
the physical addresses of the free frames are not mapped either, `get_physical_address` faults on
the page. -/
theorem boot_faults (hloaded : K.Loaded) (henough : K.boot.frames.Enough (0 + 1 + 1))
    {virtual_address : ℕ} (h39 : field virtual_address 39 = 0) (h30 : field virtual_address 30 = 0)
    (h21 : field virtual_address 21 ≠ 0 ∧ field virtual_address 21 ≠ 1 ∧
      field virtual_address 21 ≠ 488)
    (hfree : ∀ g, K.boot.frames.Free g → g < 2^18 ∧ field (g * 4096) 21 ≠ 0 ∧
      field (g * 4096) 21 ≠ 1 ∧ field (g * 4096) 21 ≠ 488 ∧
      field (g * 4096) 21 ≠ field virtual_address 21) :
    ∃ s, K.MapFrameStep K.boot ⟨virtual_address, K.boot.frames.allocate.1, 3⟩ s ∧
      isVirtualMemoryMapped K.image.p4_table s.mem virtual_address = some PT_IS_MAPPED ∧
      getPhysicalAddress K.image s.mem virtual_address = none := by
  obtain ⟨hin, hgood⟩ := boot_taken henough
  obtain ⟨hdirectory, hempty⟩ := boot_directory (K := K)
  have hhigh := hloaded.high
  -- The new table is none of the pages that the boot tables map, so the walk by addresses faults on
  -- it.
  obtain ⟨s, hcall, hmapped, hfault⟩ := map_faults virtual_address K.boot.frames.allocate.1 hin
    hloaded.direct (by omega) (by rw [h39]; decide) (by rw [h39, h30]; exact hdirectory)
    (hempty _ h21.1 h21.2.1 h21.2.2) hgood (fun g hg => by
      obtain ⟨hlt, h0, h1, h488, hne⟩ :=
        hfree g (PhysicalPages.free_of_allocate K.memory.initPmm_small hg)
      have g39 : field (g * 4096) 39 = 0 := field_eq (by show g * 4096 / 2^39 % 512 = 0; omega)
      have g30 : field (g * 4096) 30 = 0 := field_eq (by show g * 4096 / 2^30 % 512 = 0; omega)
      exact ⟨g39.trans h39.symm, g30.trans h30.symm, hne, hempty _ h0 h1 h488⟩)
  exact ⟨s, ⟨rfl, hcall⟩, hmapped, hfault⟩

/-- On 16 MiB, `map_page` of the page at 8 MiB maps it, and then `get_physical_address` faults on
it. -/
theorem physicalAddress_faults_small : ∃ s,
    (small 16384).MapFrameStep (small 16384).boot
      ⟨0x800000, (small 16384).boot.frames.allocate.1, 3⟩ s ∧
    isVirtualMemoryMapped 256 s.mem 0x800000 = some PT_IS_MAPPED ∧
    getPhysicalAddress (small 16384).image s.mem 0x800000 = none := by
  have htotal : (small 16384).memory.totalPages = 4096 := by decide
  refine boot_faults small_loaded (small_enough (by omega)) (by decide) (by decide) (by decide)
    (fun g hg => ?_)
  have hbounds := small_free.mp hg
  have g21 : field (g * 4096) 21 = 7 := field_eq (by show g * 4096 / 2^21 % 512 = 7; omega)
  rw [g21]
  exact ⟨by omega, by decide, by decide, by decide, by decide⟩

end Machine

end Potatos
