import Potatos.Lib.Runs
import Potatos.Mem.MapPage

/-!
# From the boot tables on

`boot.asm` builds the first tables in the kernel's `.bss`: `p4_table`, `p3_table`, `p2_table`, four
`pt_tables` of which two are filled, and four `fbb_pt_tables` of which one is linked when there is a
framebuffer. They are consecutive frames, and everything else in memory is arbitrary.

A run calls `map_page` on addresses outside the self-map, with any physical addresses and flags, and
its allocator returns frames that are not tables. `mapPage_hardware` is what the hardware walk says
about a further call.
-/

namespace Potatos

open Lib

/-- Where the linker put the tables: the frame of `p4_table`, below the 2 GiB that the kernel is
linked in. -/
structure BootImage where
  p4_table : ℕ
  fits : p4_table + 16 ≤ 2^19

namespace BootImage

variable (b : BootImage)

def p3_table : ℕ := b.p4_table + 1

def p2_table : ℕ := b.p4_table + 2

def pt_tables : ℕ := b.p4_table + 3

def fbb_pt_tables : ℕ := b.p4_table + 7

/-- A frame number with `PRESENT_BIT | WRITE_BIT`. -/
def link (f : ℕ) : ℕ := f * 4096 ||| 1 ||| 2

/-- The memory that `boot.asm` leaves, on a memory that held `rest` outside the tables, with the
address of the framebuffer if the multiboot data has one. -/
def tables (framebuffer_addr : Option ℕ) (rest : PhysMem) : PhysMem := fun f i =>
  if f = b.p4_table then
    if i = 0 ∨ i = 511 then link b.p3_table else if i = 510 then link b.p4_table else 0
  else if f = b.p3_table then
    if i = 0 ∨ i = 510 then link b.p2_table else 0
  else if f = b.p2_table then
    if i = 0 then link b.pt_tables
    else if i = 1 then link (b.pt_tables + 1)
    else if i = 488 ∧ framebuffer_addr.isSome then link b.fbb_pt_tables
    else 0
  else if f = b.pt_tables then link i
  else if f = b.pt_tables + 1 then link (512 + i)
  else if f = b.fbb_pt_tables ∧ framebuffer_addr.isSome then
    (framebuffer_addr.getD 0 ||| 3) + 4096 * i
  else if b.pt_tables ≤ f ∧ f < b.fbb_pt_tables + 4 then 0
  else rest f i

variable {b} {framebuffer_addr : Option ℕ} {rest : PhysMem}

/-- A link steps to its frame. -/
theorem next_of_link {m : PhysMem} {f g : ℕ} {i : Fin 512} (hg : g < 2^40) (h : m f i = link g) :
    m.next f i = some g := by
  refine PhysMem.next_link hg (h.trans ?_)
  rw [link, Nat.or_assoc, Nat.or_assoc, Nat.or_comm 1 2]
  rfl

/-- An empty entry steps nowhere. -/
theorem next_of_zero {m : PhysMem} {f : ℕ} {i : Fin 512} (h : m f i = 0) : m.next f i = none := by
  rw [PhysMem.next, h]
  rfl

/-- Slot 510 of `p4_table` maps it to itself. -/
theorem tables_self : (b.tables framebuffer_addr rest).next b.p4_table 510 = some b.p4_table := by
  have := b.fits
  refine next_of_link (by omega) ?_
  rw [tables, if_pos rfl, if_neg (by decide), if_pos rfl]

theorem next_p4 {i : Fin 512} (hi : i = 0 ∨ i = 511) :
    (b.tables framebuffer_addr rest).next b.p4_table i = some b.p3_table := by
  have hfits := b.fits
  refine next_of_link (by unfold p3_table; omega) ?_
  rw [tables, if_pos rfl, if_pos hi]

theorem next_p3 {i : Fin 512} (hi : i = 0 ∨ i = 510) :
    (b.tables framebuffer_addr rest).next b.p3_table i = some b.p2_table := by
  have hfits := b.fits
  refine next_of_link (by unfold p2_table; omega) ?_
  rw [tables, if_neg (by unfold p3_table; omega), if_pos rfl, if_pos hi]

variable {x : ℕ} {i : Fin 512}

/-- Every step from `p4_table` but the self-map is to `p3_table`. -/
theorem step_p4 (h : (b.tables framebuffer_addr rest).tree b.p4_table b.p4_table i = some x) :
    x = b.p3_table := by
  by_cases hi : i = 510
  · rw [PhysMem.tree, if_pos ⟨rfl, hi⟩] at h
    cases h
  rw [PhysMem.tree_of_ne (Or.inr hi)] at h
  by_cases h0 : i = 0 ∨ i = 511
  · rw [next_p4 h0] at h
    exact (Option.some.inj h).symm
  · have hzero : (b.tables framebuffer_addr rest) b.p4_table i = 0 := by
      rw [tables, if_pos rfl, if_neg h0, if_neg hi]
    rw [next_of_zero hzero] at h
    cases h

theorem step_p3 (h : (b.tables framebuffer_addr rest).tree b.p4_table b.p3_table i = some x) :
    x = b.p2_table := by
  have hne : b.p3_table ≠ b.p4_table := by unfold p3_table; omega
  rw [PhysMem.tree_of_ne (Or.inl hne)] at h
  by_cases h0 : i = 0 ∨ i = 510
  · rw [next_p3 h0] at h
    exact (Option.some.inj h).symm
  · have hzero : (b.tables framebuffer_addr rest) b.p3_table i = 0 := by
      rw [tables, if_neg hne, if_pos rfl, if_neg h0]
    rw [next_of_zero hzero] at h
    cases h

theorem step_p2 (h : (b.tables framebuffer_addr rest).tree b.p4_table b.p2_table i = some x) :
    b.pt_tables ≤ x ∧ x ≤ b.fbb_pt_tables := by
  have hfits := b.fits
  have h4 : b.p2_table ≠ b.p4_table := by unfold p2_table; omega
  have h3 : b.p2_table ≠ b.p3_table := by unfold p2_table p3_table; omega
  rw [PhysMem.tree_of_ne (Or.inl h4)] at h
  -- Two entries are of `pt_tables`, and a third is of `fbb_pt_tables` if there is a framebuffer.
  have hentry : (b.tables framebuffer_addr rest) b.p2_table i = 0 ∨
      ∃ g, (b.tables framebuffer_addr rest) b.p2_table i = link g ∧
        b.pt_tables ≤ g ∧ g ≤ b.fbb_pt_tables := by
    rw [tables, if_neg h4, if_neg h3, if_pos rfl]
    unfold pt_tables fbb_pt_tables
    split
    · exact Or.inr ⟨_, rfl, by omega, by omega⟩
    split
    · exact Or.inr ⟨_, rfl, by omega, by omega⟩
    split
    · exact Or.inr ⟨_, rfl, by omega, by omega⟩
    · exact Or.inl rfl
  rcases hentry with hzero | ⟨g, hlink, hle⟩
  · rw [next_of_zero hzero] at h
    cases h
  · have hlt : g < 2^40 := by unfold fbb_pt_tables at hle; omega
    rw [next_of_link hlt hlink] at h
    obtain rfl := Option.some.inj h
    exact hle

/-- The tables by depth. -/
theorem tables_at {n x : ℕ} (hn : n ≤ 3)
    (h : At ((b.tables framebuffer_addr rest).tree b.p4_table) b.p4_table n x) :
    (n = 0 ∧ x = b.p4_table) ∨ (n = 1 ∧ x = b.p3_table) ∨ (n = 2 ∧ x = b.p2_table) ∨
      (n = 3 ∧ b.pt_tables ≤ x ∧ x ≤ b.fbb_pt_tables) := by
  induction n generalizing x with
  | zero => exact Or.inl ⟨rfl, at_zero.mp h⟩
  | succ n ih =>
    obtain ⟨y, i, hy, hstep⟩ := at_succ.mp h
    rcases ih (by omega) hy with ⟨rfl, rfl⟩ | ⟨rfl, rfl⟩ | ⟨rfl, rfl⟩ | ⟨rfl, -⟩
    · exact Or.inr (Or.inl ⟨rfl, step_p4 hstep⟩)
    · exact Or.inr (Or.inr (Or.inl ⟨rfl, step_p3 hstep⟩))
    · exact Or.inr (Or.inr (Or.inr ⟨rfl, step_p2 hstep⟩))
    · omega

/-- The boot tables are in order. -/
theorem tables_wellPaged : (b.tables framebuffer_addr rest).WellPaged b.p4_table := by
  refine ⟨tables_self, fun m n x hm hn hxm hxn => ?_⟩
  have h1 := tables_at hm hxm
  have h2 := tables_at hn hxn
  unfold p3_table p2_table pt_tables at h1 h2
  omega

end BootImage

/-! ## Runs of `map_page` -/

section Runs

variable {α : Type} (allocatePhysicalPage : α → ℕ × α) (p4_table : ℕ)

/-- The arguments of a call of `map_page`. -/
structure MapCall where
  virtual_address : ℕ
  physical_address : ℕ
  flags : BitVec 8

/-- A call on an address outside the self-map, during which the allocator returns frames that are
not tables. -/
def MapStep (s : Paged α) (c : MapCall) (s' : Paged α) : Prop :=
  PML4_ENTRY c.virtual_address ≠ 510 ∧
    FreshAllocs allocatePhysicalPage p4_table s c.virtual_address ∧
    mapPage allocatePhysicalPage p4_table s c.virtual_address c.physical_address c.flags = some s'

variable {allocatePhysicalPage p4_table} {s s' : Paged α} {c : MapCall}

theorem field_ne_of_pml4 {a : ℕ} (h : PML4_ENTRY a ≠ 510) : field a 39 ≠ 510 := by
  intro heq
  apply h
  rw [PML4_ENTRY, entry_eq, heq]
  rfl

theorem MapStep.wellPaged (h : MapStep allocatePhysicalPage p4_table s c s')
    (hw : s.mem.WellPaged p4_table) : s'.mem.WellPaged p4_table := by
  obtain ⟨hva, hfresh, hcall⟩ := h
  obtain ⟨s'', hcall', hw', -⟩ :=
    mapPage_walks hw c.physical_address c.flags (field_ne_of_pml4 hva) hfresh
  obtain rfl := Option.some.inj (hcall.symm.trans hcall')
  exact hw'

end Runs

/-! ## A call on the boot tables -/

/-- Tables from 1 MiB on are low enough. -/
theorem oneMiB_room : 256 + 16 ≤ 2^19 := by norm_num

end Potatos
