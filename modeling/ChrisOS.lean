import ChrisOS.Utils.Mem
import ChrisOS.Lib.Span
import ChrisOS.Mm.RangeArith
import ChrisOS.Mm.RegionList
import ChrisOS.Mm.Allocator
import ChrisOS.Mm.RegionCut
import ChrisOS.Mm.AllocatorContract
import ChrisOS.Lib.SpanRuns
import ChrisOS.Mm.Canonical
import ChrisOS.Lib.ByteMem
import ChrisOS.Mm.Malloc
import ChrisOS.Mm.HeapContract
import ChrisOS.Mm.Kmem
import ChrisOS.Mm.VmPartition
import ChrisOS.Boot.Multiboot
import ChrisOS.Boot.FrameSafety
import ChrisOS.Kern.Scheduler
import ChrisOS.Kern.SchedulerQueue
import ChrisOS.Kern.SchedulerRun
import ChrisOS.Kern.ThreadExit
import ChrisOS.Kern.Mutex
import ChrisOS.Kern.MutexInvariant
import ChrisOS.Kern.MutexContract
import ChrisOS.Lib.CallRun
import ChrisOS.Kern.MutexRecursive
import ChrisOS.Kern.MutexWaiters
import ChrisOS.Kern.MutexScheduling
import ChrisOS.Kern.Time
import ChrisOS.Kern.Timer
import ChrisOS.Kern.TimerRun
import ChrisOS.Kern.TimerSafety
import ChrisOS.Kern.TimerOrder
import ChrisOS.Kern.Sleep
import ChrisOS.Kern.SleepWakeup
import ChrisOS.Lib.ByteCopy
import ChrisOS.Utils.MemMove
import ChrisOS.Drivers.Tty
import ChrisOS.Drivers.TtyQueue
import ChrisOS.Drivers.TtyDiscipline
import ChrisOS.Drivers.TtyThreads
import ChrisOS.Drivers.TtyWakeup
import ChrisOS.Kern.SchedulerFair
import ChrisOS.Ia32.IoApic
import ChrisOS.Ia32.IrqRouting
import ChrisOS.Kern.Cmdline
import ChrisOS.Drivers.Vga
import ChrisOS.Kern.CmdlineRoundTrip
import ChrisOS.Lib.ScrollText
import ChrisOS.Terminal.Terminal
import ChrisOS.Terminal.Screen
import ChrisOS.Terminal.ScrollRefinement
import ChrisOS.Kern.Spinlock
import ChrisOS.Kern.TimerLock
import ChrisOS.Lib.LList
import ChrisOS.Kern.Process
import ChrisOS.Mm.RegionHeap
import ChrisOS.Mm.RegionLinks
import ChrisOS.Mm.Descriptors
import ChrisOS.Mm.VmSpaceClone
import ChrisOS.Ia32.Paging
import ChrisOS.Ia32.PagingMap
import ChrisOS.Mm.FramesClone
import ChrisOS.Mm.RangeAcquire
import ChrisOS.Kern.TimeSlice
import ChrisOS.Mm.KmallocSize
import ChrisOS.Mm.Krealloc
import ChrisOS.Ia32.Stack
import ChrisOS.Kern.ThreadInit
import ChrisOS.Ia32.PagingUnmap
import ChrisOS.Ia32.PagingInv
import ChrisOS.Mm.KmemAlloc
import ChrisOS.Mm.FramesAccount
import ChrisOS.Mm.LargeBlocks
import ChrisOS.Ia32.PagingClone
import ChrisOS.Lib.ByteFill
import ChrisOS.Utils.MemSet
import ChrisOS.Utils.KallocStatic
import ChrisOS.Kern.TimeCompare
import ChrisOS.Drivers.TtyBounds
import ChrisOS.Ia32.Acpi
import ChrisOS.Kern.TimerConvert
import ChrisOS.Ia32.Ps2
import ChrisOS.Ia32.Ps2Framing
import ChrisOS.Kern.CmdlineTokens
import ChrisOS.Lib.AdjacentSwaps
import ChrisOS.Utils.Sort
import ChrisOS.Utils.BubbleSort
import ChrisOS.Utils.InsertionSort
import ChrisOS.Ia32.Apic
import ChrisOS.Utils.Alignment
import ChrisOS.Kern.TimeArithmetic
import ChrisOS.Lib.ByteString
import ChrisOS.Utils.StringMem
import ChrisOS.Lib.Numeral
import ChrisOS.Sys.Ctype
import ChrisOS.Utils.FormatDirective
import ChrisOS.Utils.FormatNumber
import ChrisOS.Utils.FormatString
import ChrisOS.Uthash.Jen
import ChrisOS.Ia32.InterruptRuns
import ChrisOS.Ia32.Interrupts
import ChrisOS.Ia32.StackSwitch
import ChrisOS.Ia32.Hal
