import Potatos.Lib.Runs
import Potatos.Mem.Bitmap
import Potatos.Mem.PageRanges
import Potatos.Mem.PageSet
import Potatos.Mem.Pmm
import Potatos.Lib.ByteMemory
import Potatos.Lib.Tiling
import Potatos.Mem.Kheap
import Potatos.Mem.KheapChain
import Potatos.Mem.KheapOps
import Potatos.Mem.KheapRuns
import Potatos.Mem.HeapCalls
import Potatos.Lib.RadixWalk
import Potatos.Mem.Paging
import Potatos.Mem.MapPage
import Potatos.Mem.BootTables
import Potatos.Mem.Vmm
import Potatos.Mem.RegionList
import Potatos.Mem.FlatRegions
import Potatos.Mem.PhysicalPages
import Potatos.Mem.KernelMemory
import Potatos.Mem.RegionBacking
import Potatos.Mem.InitVmm
import Potatos.Mem.OutOfMemory
import Potatos.Mem.HeapAndRegions
import Potatos.Lib.ForLoop
import Potatos.Console.Vga
import Potatos.Console.Screen
import Potatos.Console.Framebuffer
import Potatos.Console.Numerals
import Potatos.Console.Format
import Potatos.Lib.SavedFrames
import Potatos.Sched.RoundRobin
import Potatos.Sched.Interrupt
import Potatos.Sched.Preemption
import Potatos.Sched.Startup
import Potatos.Mem.RegionFree
import Potatos.Mem.CoveredPages
import Potatos.Mem.ListedRegions
import Potatos.Mem.RegionCalls
import Potatos.Mem.PhysicalAddress
import Potatos.Mem.FewPages
import Potatos.Lib.Faulting
import Potatos.Mem.TrackedMemory
import Potatos.Sched.BootRun
import Potatos.Console.NumeralBuffers
import Potatos.Console.FormatReads
import Potatos.Console.WideNumerals
import Potatos.Drivers.Keyboard
import Potatos.Lib.WordStack
import Potatos.Sched.InterruptStub
import Potatos.Mem.TableLoads
import Potatos.Mem.MemoryMap
import Potatos.Mem.ReadMultiboot
import Potatos.Sched.ProcessStack
import Potatos.Mem.HeapPages
import Potatos.Lib.CellCopy
import Potatos.Mem.HeapFrame
import Potatos.Mem.Memmove
import Potatos.Mem.HeapLedger
import Potatos.Console.FormatText
import Potatos.Mem.HeapDump
import Potatos.Sched.DescriptorTable
import Potatos.Sched.InterruptPath
import Potatos.Sched.TimeSharing
import Potatos.Sched.TableBytes
import Potatos.Sched.OneMemory
import Potatos.Lib.WalkCache
import Potatos.Mem.CachedTables
import Potatos.Mem.StaleWalks
import Potatos.Mem.PhysicalMapped
import Potatos.Drivers.Pic
import Potatos.Mem.StartCode
import Potatos.Mem.BootedTables
import Potatos.Mem.InitMemory
import Potatos.Console.Frame
import Potatos.Lib.PolledQueue
import Potatos.Drivers.Serial
import Potatos.Lib.Ring
import Potatos.Console.Terminal
import Potatos.Drivers.Typed
