import Smor.Acpi.Access
import Smor.Acpi.Madt
import Smor.Acpi.Mapping
import Smor.Acpi.Rsdp
import Smor.Acpi.Tables
import Smor.Alloc.Chunks
import Smor.Alloc.Forest
import Smor.Alloc.Layout
import Smor.Alloc.Levels
import Smor.Alloc.Objects
import Smor.Alloc.Slab
import Smor.Alloc.Smp
import Smor.Alloc.SmpAlone
import Smor.Alloc.SmpRuns
import Smor.Alloc.Supply
import Smor.Alloc.TwoLevel
import Smor.Console.Backlog
import Smor.Console.ClearLine
import Smor.Console.Draining
import Smor.Console.FbCons
import Smor.Console.MsgQueue
import Smor.Console.Overflow
import Smor.Console.Pixels
import Smor.Console.Scrolling
import Smor.Console.VgaCons
import Smor.Imps.Find
import Smor.Imps.Listing
import Smor.Irq.Dispatch
import Smor.Irq.Idt
import Smor.Irq.IoApic
import Smor.Irq.IoApicSmp
import Smor.Irq.Lines
import Smor.Irq.Pic
import Smor.Isr
import Smor.Kbd.Decoding
import Smor.Kbd.Keyboard
import Smor.Kbd.Readers
import Smor.Kernel
import Smor.KernelMain
import Smor.KernelRun
import Smor.Kterm.Exec
import Smor.Kterm.Run
import Smor.Kterm.Screen
import Smor.Kterm.Typing
import Smor.Lib.Accessing
import Smor.Lib.Aligned
import Smor.Lib.Blocks
import Smor.Lib.Bytes
import Smor.Lib.Cells
import Smor.Lib.Chain
import Smor.Lib.Custody
import Smor.Lib.Fifo
import Smor.Lib.Fill
import Smor.Lib.Held
import Smor.Lib.Latest
import Smor.Lib.Locked
import Smor.Lib.Machine
import Smor.Lib.Numeral
import Smor.Lib.Outcome
import Smor.Lib.Packed
import Smor.Lib.Reading
import Smor.Lib.Ring
import Smor.Lib.Runs
import Smor.Lib.Sweep
import Smor.Lib.Words
import Smor.Lib.Writes
import Smor.Lists.HeadTail
import Smor.Lists.Macros
import Smor.Lists.Queues
import Smor.Multiboot.Bounds
import Smor.Multiboot.Filled
import Smor.Multiboot.Handlers
import Smor.Multiboot.Init
import Smor.Multiboot.Mmap
import Smor.Multiboot.Rules
import Smor.Multiboot.Tags
import Smor.Pci.Bars
import Smor.Pci.Config
import Smor.Pci.Devices
import Smor.Pci.Restore
import Smor.Printf.Consumption
import Smor.Printf.Directives
import Smor.Printf.Lines
import Smor.Printf.Number
import Smor.Printf.Stars
import Smor.Printf.Unsigned
import Smor.Printf.Vsprintf
import Smor.Sched.Contexts
import Smor.Sched.Fairness
import Smor.Sched.Handover
import Smor.Sched.Handshake
import Smor.Sched.Modes
import Smor.Sched.Quanta
import Smor.Sched.Rings
import Smor.Sched.SelfLock
import Smor.Sched.Semaphores
import Smor.Sched.SleepTime
import Smor.Sched.Spl
import Smor.Sched.Startup
import Smor.Sched.Threads
import Smor.Sched.Timers
import Smor.Sched.WaitLists
import Smor.Sched.World
import Smor.Switching
import Smor.Types
import Smor.Vm.Boot
import Smor.Vm.BootIdentity
import Smor.Vm.BootListing
import Smor.Vm.BootRanges
import Smor.Vm.BootSmp
import Smor.Vm.BootTables
import Smor.Vm.Cache
import Smor.Vm.CacheLife
import Smor.Vm.CacheLists
import Smor.Vm.Frames
import Smor.Vm.FreeList
import Smor.Vm.HashMap
import Smor.Vm.PageAddr
import Smor.Vm.PageDb
import Smor.Vm.PageListing
import Smor.Vm.PageRuns
import Smor.Vm.Region
import Smor.Vm.Reserve
import Smor.Vm.Slack
import Smor.Vm.Sync
import Smor.Vm.SyncOrder
