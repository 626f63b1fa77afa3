import WillowOS.Boot.Processors
import WillowOS.Decimal
import WillowOS.DescriptorTables
import WillowOS.Frames.Tables
import WillowOS.Futex.Queues
import WillowOS.Heap.Init
import WillowOS.Interrupts.Balance
import WillowOS.Interrupts.Injected
import WillowOS.Loader.Stack
import WillowOS.Mutex
import WillowOS.Scheduler.FirstRun
import WillowOS.Scheduler.Loaded
import WillowOS.Scheduler.Pid
import WillowOS.Scheduler.Registers
import WillowOS.Scheduler.RoundRobin
import WillowOS.Scheduler.SwitchSimulation
import WillowOS.Strings.Copy
import WillowOS.Strings.Scan
import WillowOS.Syscalls.Entry
import WillowOS.Tar.Headers
import WillowOS.Threads.Lifetime
import WillowOS.Tmpfs.Arrays
import WillowOS.Tmpfs.PastEnd
import WillowOS.Tsc
import WillowOS.Vfs.HashRun
import WillowOS.Vfs.Mount
import WillowOS.Vfs.Names
import WillowOS.Vfs.NoOrphan
import WillowOS.Vfs.Open
import WillowOS.Vfs.Relative
import WillowOS.Vm.Anonymous
import WillowOS.Vm.Undo
import WillowOS.Vm.Unmap
