import Hltos.Containers.PriorityQueue
import Hltos.Scheduler.Stranded
import Hltos.Process.Wait
import Hltos.Process.Collect
import Hltos.Process.Links
import Hltos.Exclusive.KMutex
import Hltos.Drivers.Framebuffer
import Hltos.Drivers.Modifiers
import Hltos.Process.ActivePml4
import Hltos.Scheduler.Order
import Hltos.Memory.Coherence
import Hltos.Trap.ForkReturn
import Hltos.Trap.Preemption
import Hltos.Fs.TarImage
import Hltos.Fs.RootTree
import Hltos.Syscall.FreshPages
import Hltos.Syscall.AcReturn
import Hltos.Fs.TmpNamespace
import Hltos.Fs.Getdents
import Hltos.Process.ElfBounds
import Hltos.Process.UserStack
import Hltos.Memory.TeardownTrace
import Hltos.Memory.SlabRun
import Hltos.Memory.FreeFrames
import Hltos.Scheduler.Sleepers
import Hltos.Drivers.Tsc
import Hltos.Acpi.Madt
