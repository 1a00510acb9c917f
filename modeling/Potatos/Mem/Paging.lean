import Potatos.Lib.RadixWalk
import Mathlib.Logic.Function.Basic
import Mathlib.Data.Fin.Basic
import Mathlib.Tactic.NormNum

/-!
# Page tables and `map_page`

`src/mem/paging.c` over physical memory as frames of 512 entries. The hardware translates a virtual
address by four steps from `p4_table`, and every access of the code to a table is a load or a store
at a virtual address, through the slot 510 that maps `p4_table` into itself. An access that the
tables do not translate faults, which is `none`.

Frames come from an allocator that is a parameter: it returns a physical address and the rest of its
state. There are no large pages (`SMALL_PAGES`), and the kernel sets no flag that would keep it from
reading or writing a present page, so translation looks at the present bits and the frame numbers.
-/

namespace Potatos

open Lib

/-- A table has entries. -/
instance neZero_entries : NeZero 512 := ⟨by decide⟩

/-- Physical memory: the entries of each frame, by frame number. -/
abbrev PhysMem := ℕ → Fin 512 → ℕ

def PT_PRESENT_BIT : ℕ := 1 <<< 0

def PT_RW_BIT : ℕ := 1 <<< 1

def SIGN_EXTENSION : ℕ := 0xFFFF000000000000

def ENTRIES_TO_ADDRESS (pml4 pdpr pd pt : ℕ) : ℕ :=
  pml4 <<< 39 ||| pdpr <<< 30 ||| pd <<< 21 ||| pt <<< 12

def PML4_ENTRY (address : ℕ) : ℕ := address >>> 39 &&& 0x1ff

def PDPR_ENTRY (address : ℕ) : ℕ := address >>> 30 &&& 0x1ff

def PD_ENTRY (address : ℕ) : ℕ := address >>> 21 &&& 0x1ff

def PT_ENTRY (address : ℕ) : ℕ := address >>> 12 &&& 0x1ff

/-- `align_to_page`: the low twelve bits cleared. -/
def alignToPage (address : ℕ) : ℕ := address / 4096 * 4096

/-! ## The hardware -/

/-- The present bit of an entry. -/
def present (entry : ℕ) : Bool := entry &&& PT_PRESENT_BIT != 0

/-- The frame number in an entry, bits 12 to 51. -/
def frameOf (entry : ℕ) : ℕ := entry / 4096 % 2^40

/-- Nine bits of an address, from bit `k` on. -/
def field (address k : ℕ) : Fin 512 := Fin.ofNat 512 (address / 2^k)

namespace PhysMem

/-- One step of the hardware walk. -/
def next (m : PhysMem) (f : ℕ) (i : Fin 512) : Option ℕ :=
  if present (m f i) then some (frameOf (m f i)) else none

/-- The frame that the 4-level walk from `p4` reaches. -/
def walk (m : PhysMem) (p4 address : ℕ) : Option ℕ :=
  descend m.next p4 [field address 39, field address 30, field address 21, field address 12]

/-- The physical address of a virtual one. -/
def translate (m : PhysMem) (p4 address : ℕ) : Option ℕ :=
  (m.walk p4 address).map (fun f => f * 4096 + address % 4096)

/-- The slot of the last-level table that the walk ends in: the table, and the index. -/
def leafSlot (m : PhysMem) (p4 address : ℕ) : Option (ℕ × Fin 512) :=
  (descend m.next p4 [field address 39, field address 30, field address 21]).map
    (fun f => (f, field address 12))

/-- Write an entry of a frame. -/
def set (m : PhysMem) (f : ℕ) (i : Fin 512) (v : ℕ) : PhysMem :=
  Function.update m f (Function.update (m f) i v)

/-- The eight bytes at a virtual address. -/
def load (m : PhysMem) (p4 address : ℕ) : Option ℕ :=
  (m.walk p4 address).map (fun f => m f (field address 3))

/-- Write the eight bytes at a virtual address. -/
def store (m : PhysMem) (p4 address v : ℕ) : Option PhysMem :=
  (m.walk p4 address).map (fun f => m.set f (field address 3) v)

end PhysMem

/-! ## The code -/

/-- The memory, and the state of the allocator. -/
structure Paged (α : Type) where
  mem : PhysMem
  frames : α

/-- `clean_new_table`. -/
def cleanNewTable (p4_table : ℕ) (m : PhysMem) (table_to_clean : ℕ) : Option PhysMem :=
  (List.range 512).foldlM (fun m i => m.store p4_table (table_to_clean + 8 * i) 0) m

section Code

variable {α : Type} (allocatePhysicalPage : α → ℕ × α) (p4_table : ℕ)

/-- The three blocks of `map_page` that make a table where there is none: `entry` is the index in
`table`, and `below` is where the new table then appears. -/
def ensureTable (s : Paged α) (table entry below : ℕ) : Option (Paged α) := do
  let value ← s.mem.load p4_table (table + 8 * entry)
  if present value then some s
  else
    let (new_table, frames) := allocatePhysicalPage s.frames
    let m ← s.mem.store p4_table (table + 8 * entry) (new_table ||| PT_RW_BIT ||| PT_PRESENT_BIT)
    let m ← cleanNewTable p4_table m below
    some ⟨m, frames⟩

/-- The last block of `map_page`: the entry of the page, where there is none. -/
def setEntry (s : Paged α) (table entry value : ℕ) : Option (Paged α) := do
  let old_value ← s.mem.load p4_table (table + 8 * entry)
  if present old_value then some s
  else
    let m ← s.mem.store p4_table (table + 8 * entry) value
    some { s with mem := m }

def pml4Table : ℕ := SIGN_EXTENSION ||| ENTRIES_TO_ADDRESS 510 510 510 510

def pdprTable (pml4_e : ℕ) : ℕ := SIGN_EXTENSION ||| ENTRIES_TO_ADDRESS 510 510 510 pml4_e

def pdTable (pml4_e pdpr_e : ℕ) : ℕ := SIGN_EXTENSION ||| ENTRIES_TO_ADDRESS 510 510 pml4_e pdpr_e

def ptTable (pml4_e pdpr_e pd_e : ℕ) : ℕ :=
  SIGN_EXTENSION ||| ENTRIES_TO_ADDRESS 510 pml4_e pdpr_e pd_e

/-- `map_page`, with 8-bit flags. -/
def mapPage (s : Paged α) (virtual_address physical_address : ℕ) (flags : BitVec 8) :
    Option (Paged α) := do
  let virtual_address := alignToPage virtual_address
  let physical_address := alignToPage physical_address
  let pml4_e := PML4_ENTRY virtual_address
  let pdpr_e := PDPR_ENTRY virtual_address
  let pd_e := PD_ENTRY virtual_address
  let pml4_table := pml4Table
  let pdpr_table := pdprTable pml4_e
  let pd_table := pdTable pml4_e pdpr_e
  let pt_table := ptTable pml4_e pdpr_e pd_e
  let pt_e := PT_ENTRY virtual_address
  let s ← ensureTable allocatePhysicalPage p4_table s pml4_table pml4_e pdpr_table
  let s ← ensureTable allocatePhysicalPage p4_table s pdpr_table pdpr_e pd_table
  let s ← ensureTable allocatePhysicalPage p4_table s pd_table pd_e pt_table
  setEntry p4_table s pt_table pt_e (physical_address ||| flags.toNat)

end Code

/-! ## Fields of addresses -/

theorem field_val (address k : ℕ) : (field address k).val = address / 2^k % 512 := rfl

theorem field_eq {address k : ℕ} {i : Fin 512} (h : address / 2^k % 512 = i.val) :
    field address k = i := Fin.ext h

theorem entry_eq (address k : ℕ) : address >>> k &&& 0x1ff = (field address k).val := by
  have h : (0x1ff : ℕ) = 2^9 - 1 := by norm_num
  rw [h, Nat.and_two_pow_sub_one_eq_mod, Nat.shiftRight_eq_div_pow, field_val]

/-- Clearing the low bits of an address does not change the fields above them. -/
theorem field_align {address k : ℕ} (hk : 12 ≤ k) :
    field (alignToPage address) k = field address k := by
  apply field_eq
  rw [field_val, alignToPage]
  obtain ⟨j, rfl⟩ := Nat.exists_eq_add_of_le hk
  have hpow : (2 : ℕ)^(12 + j) = 4096 * 2^j := by rw [pow_add]; norm_num
  rw [hpow, ← Nat.div_div_eq_div_mul, ← Nat.div_div_eq_div_mul, Nat.mul_div_cancel _ (by norm_num)]

/-- The indices that `map_page` computes are the fields of the address. -/
theorem entries_alignToPage (address : ℕ) :
    PML4_ENTRY (alignToPage address) = (field address 39).val ∧
      PDPR_ENTRY (alignToPage address) = (field address 30).val ∧
      PD_ENTRY (alignToPage address) = (field address 21).val ∧
      PT_ENTRY (alignToPage address) = (field address 12).val := by
  have hindex : ∀ k, 12 ≤ k → alignToPage address >>> k &&& 0x1ff = (field address k).val := by
    intro k hk
    rw [entry_eq, field_align hk]
  exact ⟨hindex 39 (by norm_num), hindex 30 (by norm_num), hindex 21 (by norm_num),
    hindex 12 (le_refl 12)⟩

/-- An or of disjoint bits is a sum. -/
theorem mul_or_of_lt {x y k : ℕ} (h : y < 2^k) : x * 2^k ||| y = x * 2^k + y := by
  rw [← Nat.shiftLeft_eq, Nat.shiftLeft_add_eq_or_of_lt h]

/-- The address of an entry of a table, as a sum. -/
theorem tableAddress_eq (a b c d e : Fin 512) :
    (SIGN_EXTENSION ||| ENTRIES_TO_ADDRESS a b c d) + 8 * e.val =
      0xFFFF * 2^48 + a * 2^39 + b * 2^30 + c * 2^21 + d * 2^12 + 8 * e := by
  have ha := a.isLt
  have hb := b.isLt
  have hc := c.isLt
  have hd := d.isLt
  have h1 : a * 2^39 ||| b * 2^30 = (a * 2^9 + b.val) * 2^30 := by
    rw [mul_or_of_lt (by omega)]; omega
  have h2 : (a * 2^9 + b.val) * 2^30 ||| c * 2^21 = (a * 2^18 + b * 2^9 + c.val) * 2^21 := by
    rw [mul_or_of_lt (by omega)]; omega
  have h3 : (a * 2^18 + b * 2^9 + c.val) * 2^21 ||| d * 2^12 =
      (a * 2^18 + b * 2^9 + c.val) * 2^21 + d * 2^12 := mul_or_of_lt (by omega)
  have h4 : SIGN_EXTENSION = 0xFFFF * 2^48 := by norm_num [SIGN_EXTENSION]
  unfold ENTRIES_TO_ADDRESS
  simp only [Nat.shiftLeft_eq]
  rw [h1, h2, h3, h4, mul_or_of_lt (by omega)]
  omega

/-- The fields of the address of an entry of a table. -/
theorem field_tableAddress (a b c d e : Fin 512) :
    field ((SIGN_EXTENSION ||| ENTRIES_TO_ADDRESS a b c d) + 8 * e.val) 39 = a ∧
      field ((SIGN_EXTENSION ||| ENTRIES_TO_ADDRESS a b c d) + 8 * e.val) 30 = b ∧
      field ((SIGN_EXTENSION ||| ENTRIES_TO_ADDRESS a b c d) + 8 * e.val) 21 = c ∧
      field ((SIGN_EXTENSION ||| ENTRIES_TO_ADDRESS a b c d) + 8 * e.val) 12 = d ∧
      field ((SIGN_EXTENSION ||| ENTRIES_TO_ADDRESS a b c d) + 8 * e.val) 3 = e := by
  rw [tableAddress_eq]
  have ha := a.isLt
  have hb := b.isLt
  have hc := c.isLt
  have hd := d.isLt
  have he := e.isLt
  refine ⟨field_eq ?_, field_eq ?_, field_eq ?_, field_eq ?_, field_eq ?_⟩ <;> omega

end Potatos
