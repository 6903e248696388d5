import QuestOS.Lib.Trans
import QuestOS.Align
import QuestOS.CInt
import QuestOS.Lib.A64
import QuestOS.Lib.Regions
import QuestOS.Lib.Bytes
import QuestOS.Lib.PageTable
import QuestOS.Lib.Sweep
import QuestOS.Lib.Climb
import QuestOS.Sched.Model
import QuestOS.Sched.Lifecycle
import QuestOS.Sched.Preemption
import QuestOS.Sched.TimeSlice
import QuestOS.Sched.Fairness
import QuestOS.Context.Switch
import QuestOS.Context.Fidelity
import QuestOS.Memblock.Model
import QuestOS.Memblock.Find
import QuestOS.Memblock.Add
import QuestOS.Memblock.Remove
import QuestOS.Memblock.Grow
import QuestOS.Memblock.Minimal
import QuestOS.Memblock.Alloc
import QuestOS.Memblock.Growth
import QuestOS.Memblock.Cells
import QuestOS.Memblock.Highest
import QuestOS.Memblock.Iterate
import QuestOS.Heap.Kmalloc
import QuestOS.Heap.Safety
import QuestOS.Heap.Contract
import QuestOS.Irq.Enable
import QuestOS.Irq.Dispatch
import QuestOS.Print.Format
import QuestOS.Print.Log
import QuestOS.Smp.Model
import QuestOS.Smp.Invariant
import QuestOS.Smp.Resched
import QuestOS.Smp.PreemptCount
import QuestOS.Smp.Current
import QuestOS.Smp.Bringup
import QuestOS.Irq.Redist
import QuestOS.Process.Image
import QuestOS.Process.Table
import QuestOS.Process.Pack
import QuestOS.Process.Meta
import QuestOS.Process.MetaBounds
import QuestOS.Process.Stack
import QuestOS.Process.Package
import QuestOS.Mmu.EarlyMap
import QuestOS.Mmu.EarlyRequest
import QuestOS.Mmu.EarlyLevels
import QuestOS.Mmu.EarlyMapSpec
import QuestOS.Mmu.Pte
import QuestOS.Mmu.Vmap
import QuestOS.Mmu.PteSpec
import QuestOS.Mmu.Contpte
import QuestOS.Mmu.VmapPte
import QuestOS.Mmu.VmapTables
import QuestOS.Process.Loader
import QuestOS.Process.ElfChecks
import QuestOS.Mmu.VmapSpec
import QuestOS.Mmu.VmapCall
import QuestOS.Mmu.AddressSpace
import QuestOS.Mmu.PteRange
import QuestOS.Mmu.Vunmap
import QuestOS.Boot.IdentityMap
import QuestOS.Boot.Tables
import QuestOS.Boot.IdentityMapSpec
import QuestOS.Boot.Qfw
import QuestOS.Process.Memory
import QuestOS.Process.Release
import QuestOS.Process.TableFree
import QuestOS.Process.UserSpace
import QuestOS.Process.PackageSpace
import QuestOS.Process.Confinement
import QuestOS.Process.Fidelity
import QuestOS.Smp.Dispatch
import QuestOS.Print.Number
import QuestOS.Print.Convert
import QuestOS.Print.Bound
import QuestOS.Print.Language
import QuestOS.Smp.Spinlock
import QuestOS.Print.Serial
import QuestOS.Syscall.Copy
import QuestOS.Syscall.Write
import QuestOS.Syscall.Dispatch
import QuestOS.Mmu.Segment
import QuestOS.Mmu.CreateMapping
import QuestOS.Mmu.CreateTables
import QuestOS.Mmu.CreateLevels
import QuestOS.Mmu.Fixmap
import QuestOS.Mmu.FdtWindow
import QuestOS.Mmu.EarlyIoremap
import QuestOS.Fdt.Translate
import QuestOS.Fdt.Ranges
import QuestOS.Fdt.Fold
import QuestOS.Fdt.Malformed
import QuestOS.Lib.RbTree
import QuestOS.Lib.RbAugment
import QuestOS.Vmalloc.FreeTree
import QuestOS.Vmalloc.LowestMatch
import QuestOS.Vmalloc.Alloc
import QuestOS.Vmalloc.Areas
import QuestOS.Vmalloc.Linked
import QuestOS.Mmu.EarlyPool
