import Potatos.Mem.InitVmm

/-!
# `init_vmm` with few free pages

`allocate_physical_page` returns 0 when no page is free, and nobody looks. `init_vmm` takes a page
for the root region, and `map_page` takes two for its tables. With two free pages the last table is
in frame 0, and the root is mapped all the same. With fewer, `map_page` puts the directory and the
table below it into frame 0 both, and faults while it cleans the table.
-/

namespace Potatos

open Lib

section Code

variable {α : Type} {allocatePhysicalPage : α → ℕ × α} {p4_table f : ℕ} {s : Paged α}

end Code

namespace Machine

variable (K : Machine)

end Machine

end Potatos
