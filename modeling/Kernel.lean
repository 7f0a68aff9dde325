import Kernel.Lib.Transition
import Kernel.PhysMem.Partition
import Kernel.Vmm.Fork
import Kernel.Vmm.Isolation
import Kernel.Heap.Fit
import Kernel.Process.Authority
import Kernel.SysV.Books
import Kernel.SysV.Waiters
import Kernel.File.Inherit
import Kernel.Syscall.UserBuffer
import Kernel.Vmm.NewPages
import Kernel.Vmm.Lifetime
import Kernel.Vmm.Munmap
import Kernel.Vmm.Paging
import Kernel.Syscall.Foreign
import Kernel.Syscall.Leak
import Kernel.Ref.Sound
import Kernel.Ref.Assign
import Kernel.Syscall.UserRsp
import Kernel.Thread.Active
import Kernel.Thread.Stack
import Kernel.File.Directory
import Kernel.File.Scan
import Kernel.File.Open
import Kernel.Elf.Effects
import Kernel.Elf.Reject
import Kernel.Core.Tss
import Kernel.Lock.Switches
import Kernel.Thread.Wakeup
import Kernel.File.Symlink
import Kernel.File.Entries
import Kernel.File.Geometry
import Kernel.Process.Orphans
import Kernel.Queue.Fifo
import Kernel.Thread.Prepared
import Kernel.Syscall.ForkReturn
import Kernel.Blocking.Lock
import Kernel.Blocking.Semaphore
import Kernel.Vmm.Update
import Kernel.Vmm.Integrity
import Kernel.Blocking.Latch
import Kernel.Lock.Flags
import Kernel.Lock.Cycles
import Kernel.Lock.Deadlock
import Kernel.Boot.Init
import Kernel.Core.Interrupt
import Kernel.SysV.Accounts
