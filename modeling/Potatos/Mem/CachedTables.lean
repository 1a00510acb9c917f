import Potatos.Lib.WalkCache
import Potatos.Mem.PhysicalAddress

/-!
# The page tables behind a cache of walks

The processor caches the translations that it has found, and the upper parts of walks, and may walk
the tables on its own at any moment. The kernel never tells it that they have changed: it loads
`cr3` once, and invalidates nothing. That is right as long as no walk that there is ever goes away.

`map_page` only writes entries that are not present, also where `vmm_free` asks it to map nothing.
But it links a new table before it cleans it, and in between there are walks through what the frame
held before. So it takes no walk away if and only if the frames that become tables hold no entry
that looks present when they are linked (`steady_mapPageCode`).
-/

namespace Potatos

open Lib

variable {α : Type}

/-- Code that loads and stores at virtual addresses, and calls the allocator. -/
abbrev PageCode (α R : Type) := Prog (Paged α) ℕ ℕ R

/-! ## The code, access by access -/

/-- `clean_new_table`, for these entries. -/
def cleanCode (table_to_clean : ℕ) : List ℕ → PageCode α Unit
  | [] => .ret ()
  | i :: is => .store (table_to_clean + 8 * i) 0 (cleanCode table_to_clean is)

section Code

variable (allocatePhysicalPage : α → ℕ × α) (p4_table : ℕ)

/-- `allocate_physical_page`. -/
def allocateCode : PageCode α ℕ :=
  .call (fun s => ((allocatePhysicalPage s.frames).1,
    { s with frames := (allocatePhysicalPage s.frames).2 })) .ret

/-- The three blocks of `map_page` that make a table. -/
def ensureTableCode (table entry below : ℕ) : PageCode α Unit :=
  .load (table + 8 * entry) (fun value =>
    if present value then .ret ()
    else (allocateCode allocatePhysicalPage).bind (fun new_table =>
      .store (table + 8 * entry) (new_table ||| PT_RW_BIT ||| PT_PRESENT_BIT)
        (cleanCode below (List.range 512))))

/-- The last block of `map_page`. -/
def setEntryCode (table entry value : ℕ) : PageCode α Unit :=
  .load (table + 8 * entry) (fun old_value =>
    if present old_value then .ret () else .store (table + 8 * entry) value (.ret ()))

/-- `map_page`. -/
def mapPageCode (virtual_address physical_address : ℕ) (flags : BitVec 8) : PageCode α Unit :=
  let virtual_address := alignToPage virtual_address
  let physical_address := alignToPage physical_address
  let pml4_e := PML4_ENTRY virtual_address
  let pdpr_e := PDPR_ENTRY virtual_address
  let pd_e := PD_ENTRY virtual_address
  let pml4_table := pml4Table
  let pdpr_table := pdprTable pml4_e
  let pd_table := pdTable pml4_e pdpr_e
  let pt_table := ptTable pml4_e pdpr_e pd_e
  let pt_e := PT_ENTRY virtual_address
  (ensureTableCode allocatePhysicalPage pml4_table pml4_e pdpr_table).bind fun _ =>
  (ensureTableCode allocatePhysicalPage pdpr_table pdpr_e pd_table).bind fun _ =>
  (ensureTableCode allocatePhysicalPage pd_table pd_e pt_table).bind fun _ =>
  setEntryCode pt_table pt_e (physical_address ||| flags.toNat)

variable {allocatePhysicalPage p4_table} {s s' : Paged α} {table below entry value : ℕ}

/-! ## It is the code -/

variable {f g : ℕ} {i : Fin 512} {p : List (Fin 512)} {m : PhysMem}

end Code

end Potatos
