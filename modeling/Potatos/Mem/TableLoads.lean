import Potatos.Mem.PhysicalAddress

/-!
# The loads of `is_virtual_memory_mapped`

The four checks of `is_virtual_memory_mapped` are one recursion over the addresses of the entries
(`checkEntries`): the entry of a level is loaded only where the one before it was present. The
recursion stops at the first load that faults, so from a result it follows that every load that was
made is translated (`translate_of_executed`), also where the address is itself in the self-map.
-/

namespace Potatos

open Lib

/-- The addresses of the four entries, in the order of the checks. -/
def entryAddresses (virtual_address : ℕ) : List ℕ :=
  let virtual_address := alignToPage virtual_address
  let pml4_e := PML4_ENTRY virtual_address
  let pdpr_e := PDPR_ENTRY virtual_address
  let pd_e := PD_ENTRY virtual_address
  let pt_e := PT_ENTRY virtual_address
  [pml4Table + 8 * pml4_e, pdprTable pml4_e + 8 * pdpr_e, pdTable pml4_e pdpr_e + 8 * pd_e,
    ptTable pml4_e pdpr_e pd_e + 8 * pt_e]

/-- The checks: `PT_NOT_MAPPED` at the first entry that is not present. -/
def checkEntries (p4_table : ℕ) (m : PhysMem) : List ℕ → Option ℕ
  | [] => some PT_IS_MAPPED
  | address :: rest => do
    let value ← m.load p4_table address
    if present value then checkEntries p4_table m rest else some PT_NOT_MAPPED

/-- The loads that the checks make. -/
def executedLoads (p4_table : ℕ) (m : PhysMem) : List ℕ → List ℕ
  | [] => []
  | address :: rest =>
    address :: match m.load p4_table address with
      | some value => if present value then executedLoads p4_table m rest else []
      | none => []

variable {m : PhysMem} {p4_table virtual_address address : ℕ} {addresses : List ℕ}

theorem isVirtualMemoryMapped_eq_check (p4_table : ℕ) (m : PhysMem) (virtual_address : ℕ) :
    isVirtualMemoryMapped p4_table m virtual_address =
      checkEntries p4_table m (entryAddresses virtual_address) := by
  -- The code asks for an entry that is not present.
  have hnot : ∀ (value : ℕ) (x y : Option ℕ),
      (if (!present value) = true then x else y) = if present value = true then y else x := by
    intro value x y
    cases present value <;> rfl
  simp only [isVirtualMemoryMapped, entryAddresses, checkEntries, hnot]

/-- What was loaded without a fault is translated. -/
theorem translate_of_executed (h : checkEntries p4_table m addresses ≠ none)
    (haddr : address ∈ executedLoads p4_table m addresses) :
    ∃ physical, m.translate p4_table address = some physical := by
  induction addresses with
  | nil => exact absurd haddr List.not_mem_nil
  | cons first rest ih =>
    obtain ⟨value, hvalue⟩ : ∃ value, m.load p4_table first = some value := by
      refine Option.ne_none_iff_exists'.mp (fun hnone => h ?_)
      rw [checkEntries, hnone]
      rfl
    rw [checkEntries, hvalue, Option.bind_eq_bind, Option.bind_some] at h
    rw [executedLoads, hvalue] at haddr
    rcases List.mem_cons.mp haddr with rfl | hrest
    · obtain ⟨f, hf, -⟩ := Option.map_eq_some_iff.mp hvalue
      exact ⟨_, congrArg (Option.map _) hf⟩
    · dsimp only at hrest
      split_ifs at hrest with hp
      · rw [if_pos hp] at h
        exact ih h hrest
      · exact absurd hrest List.not_mem_nil

/-- The hardware walk: the entry of each level is present, and its frame holds the next level. -/
def PresentAtAllLevels (p4_table : ℕ) (m : PhysMem) (virtual_address : ℕ) : Prop :=
  ∃ t₁ t₂ t₃ f, m.next p4_table (field virtual_address 39) = some t₁ ∧
    m.next t₁ (field virtual_address 30) = some t₂ ∧
    m.next t₂ (field virtual_address 21) = some t₃ ∧
    m.next t₃ (field virtual_address 12) = some f

theorem presentAtAllLevels_iff :
    PresentAtAllLevels p4_table m virtual_address ↔ m.walk p4_table virtual_address ≠ none := by
  constructor
  · rintro ⟨t₁, t₂, t₃, f, h₁, h₂, h₃, h⟩
    rw [walk_of_nodes h₁ h₂ h₃ h]
    exact Option.some_ne_none f
  · intro hne
    obtain ⟨f, hf⟩ := Option.ne_none_iff_exists'.mp hne
    obtain ⟨t₁, t₂, t₃, -, -, -, h₁, h₂, h₃, h⟩ := nodes_of_walk hf
    exact ⟨t₁, t₂, t₃, f, h₁, h₂, h₃, h⟩

/-- Through the self-map, `is_virtual_memory_mapped` decides the walk, and no load of it faults. -/
theorem isVirtualMemoryMapped_decides (hself : m.next p4_table 510 = some p4_table)
    (virtual_address : ℕ) :
    (isVirtualMemoryMapped p4_table m virtual_address = some PT_IS_MAPPED ∨
      isVirtualMemoryMapped p4_table m virtual_address = some PT_NOT_MAPPED) ∧
    (isVirtualMemoryMapped p4_table m virtual_address = some PT_IS_MAPPED ↔
      PresentAtAllLevels p4_table m virtual_address) ∧
    ∀ address ∈ executedLoads p4_table m (entryAddresses virtual_address),
      ∃ physical, m.translate p4_table address = some physical := by
  have heq := isVirtualMemoryMapped_eq hself virtual_address
  refine ⟨?_, ?_, fun address haddr => ?_⟩
  · rw [heq]
    split_ifs
    · exact Or.inr rfl
    · exact Or.inl rfl
  · rw [presentAtAllLevels_iff]
    exact isMapped_iff hself
  · apply translate_of_executed _ haddr
    rw [← isVirtualMemoryMapped_eq_check, heq]
    exact Option.some_ne_none _

/-- A table in frame 1 with nothing but the self-map. -/
def selfMapOnly : PhysMem := fun _ i => if i = 510 then 0x1001 else 0

/-- The address at which the table is seen is itself in the self-map. -/
theorem isVirtualMemoryMapped_decides_selfMap :
    (isVirtualMemoryMapped 1 selfMapOnly pml4Table = some PT_IS_MAPPED ∨
      isVirtualMemoryMapped 1 selfMapOnly pml4Table = some PT_NOT_MAPPED) ∧
    (isVirtualMemoryMapped 1 selfMapOnly pml4Table = some PT_IS_MAPPED ↔
      PresentAtAllLevels 1 selfMapOnly pml4Table) ∧
    ∀ address ∈ executedLoads 1 selfMapOnly (entryAddresses pml4Table),
      ∃ physical, selfMapOnly.translate 1 address = some physical :=
  isVirtualMemoryMapped_decides (by decide) pml4Table

end Potatos
