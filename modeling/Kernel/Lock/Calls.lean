import Kernel.Lock.Code

/-!
# The code of the kernel, as far as locks go

Each function of the source keeps its locks, its calls and its branches. An
`ASSERT` may fail, unless it stands under a spin lock.
-/

namespace Kernel.Lock

open Lib
open Lib.Cmd (block oneOf)
open Kernel.Thread (Tid Action)

/-- A branch on data that the model leaves out, and a loop on it. -/
def either (c d : Code) : Code := .ite .unknown c d
def maybe (c : Code) : Code := either c .skip
def repeated (c : Code) : Code := .loop .unknown c

/-- `LockGuard g{l}` around `c`. -/
def SpinLock.guard (l : SpinLock) (c : Code) : Code := block [.op (.lock l), c, .op (.unlock l)]

/-! ## `queue.h` -/

def Queue.add (q : Queue) (o : Op) : Code := (SpinLock.queue q).guard (.op o)

def Queue.remove (q : Queue) : Code :=
  .ite (.empty q) (.op .take_none)
    ((SpinLock.queue q).guard (.ite (.empty q) (.op .take_none) (.op (.take q))))

/-! ## `condition.h`, `thread.cc` -/

/-- Its `ASSERT`s hold of every action that is set, and there is no other action. -/
def TCB.post_switch : Code :=
  .ite (.action .ready) (Queue.ready.add (.add_prev .ready)) <|
  .ite (.action .stop) (Queue.reaper.add (.add_prev .reaper)) <|
  .ite (.action .wait)
    (.read .cond_lock fun l => block
      [.op (.lock l),
       .ite (.same_epoch l) (block [.op (.park l), .op (.unlock l)])
        (block [.op (.unlock l), Queue.ready.add (.add_prev .ready)])])
    .skip

def Condition.wait (l : SpinLock) : Code :=
  .ite .is_idle (block [.op (.unlock l), .op (.lock l)]) <| block
    [.op (.capture l), .op (.unlock l), Queue.ready.remove,
     .ite (.next (some l))
      (block [.op (.set_wait l), .op .switch, TCB.post_switch, .op (.lock l)])
      (.op (.lock l))]

def Condition.notify_one (l : SpinLock) : Code :=
  block [.op (.take_waiting l), .op (.bump l), .op (.unlock l), .ite .woken (Queue.ready.add .add_woken) .skip]

def Condition.notify_all (l : SpinLock) : Code :=
  block [.op (.take_all l), .op (.bump l), .op (.unlock l), .loop .woken (Queue.ready.add .add_woken)]

/-! ## `blocking_lock.h`, `print.cc`, `debug.cc` -/

def BlockingLock.lock (b : BlockingLock) : Code :=
  block [.op (.lock (.spin b)), .loop (.locked b) (Condition.wait (.spin b)), .op (.set_locked b true),
    .op (.unlock (.spin b))]

def BlockingLock.unlock (b : BlockingLock) : Code :=
  block [.op (.lock (.spin b)), .ite (.locked b) .skip (.op .assert), .op (.set_locked b false),
    Condition.notify_one (.spin b)]

/-- `LockGuard g{b}` around `c`. -/
def BlockingLock.guard (b : BlockingLock) (c : Code) : Code := block [b.lock, c, b.unlock]

def putch : Code :=
  block [repeated (BlockingLock.putch_spin.guard .skip), BlockingLock.putch_spin.lock, BlockingLock.putch_spin.unlock]

/-- `xprint`, which is `putch` on one character after another. -/
def xprint : Code := repeated putch

def KPRINT : Code := BlockingLock.say_lock.guard xprint

def shutdown (show_stats : Bool) : Code := block [if show_stats then repeated KPRINT else .skip, .op .halt]

def KPANIC : Code := block [xprint, shutdown false]

def ASSERT : Code := either .skip (block [KPRINT, shutdown false])

/-! ## `heap.cc` -/

/-- The first branch is for no bytes. -/
def malloc : Code := maybe (BlockingLock.theLock.guard (repeated (maybe KPANIC)))

/-- `sanity` does nothing, as `safe` is false. -/
def free : Code := maybe (BlockingLock.theLock.guard (maybe KPRINT))

def new : Code := block [malloc, maybe KPANIC]

/-! ## `shared.h`

The `ASSERT` on a count is left out: a reference that is removed was counted.
-/

def Middle.add_strong : Code := maybe (.read .middle fun l => l.guard .skip)

/-- `dtor` is the destructor of what the reference is to. -/
def Middle.remove_strong (dtor : Code) : Code :=
  maybe (block [.read .middle fun l => l.guard .skip, maybe (block [dtor, free]), maybe free])

def deref : Code := block [ASSERT, ASSERT]

/-- The destructors of `StrongRef<BlockIO>` and of `StrongRef<Node>`. -/
def BlockIO.drop : Code := Middle.remove_strong .skip
def Node.drop : Code := Middle.remove_strong BlockIO.drop

/-! ## `thread.cc` -/

/-- The `ASSERT` is that of `is_disabled`. -/
def Thread.yield : Code :=
  block [ASSERT, Queue.ready.remove,
    .ite (.next none) (block [ASSERT, .op (.set_action .ready), .op .switch, TCB.post_switch, ASSERT, ASSERT]) .skip]

def TCB.dealloc : Code := block [maybe free, maybe free, free]

def reap : Code :=
  block [Queue.reaper.remove,
    .loop (.next none) (block [TCB.dealloc, maybe (shutdown true), Queue.reaper.remove])]

/-- `TCB::alloc` and `new uintptr_t[STACK_QUADS]`, for a thread that starts in `e`, and `readyQueue.add`. -/
def make_tcb (e : Entry) : Code := block [malloc, ASSERT, new, .op (.alloc e), Queue.ready.add .add_tcb]

def make_thread : Code := block [reap, make_tcb .entry]

def Thread.create : Code := block [new, make_thread]

/-! ## `physmem.cc`, `vmm.cc` -/

def PhysMem.alloc : Code :=
  block [.op (.lock .physMem),
    either (.op (.unlock .physMem)) (either (block [.op (.unlock .physMem), KPANIC]) (.op (.unlock .physMem))), ASSERT]

def PhysMem.free : Code := block [ASSERT, SpinLock.physMem.guard .skip]

/-- The `ASSERT` is that of `VA`. -/
def leafPte : Code := ASSERT

def cloneTableSubtree : Nat → Code
  | 0 => block [PhysMem.alloc, ASSERT, repeated (maybe PhysMem.alloc)]
  | level + 1 => block [PhysMem.alloc, ASSERT, repeated (maybe (cloneTableSubtree level))]

def freeTableSubtree : Nat → Code
  | 0 => block [ASSERT, repeated (maybe PhysMem.free)]
  | level + 1 => block [ASSERT, repeated (maybe (block [freeTableSubtree level, PhysMem.free]))]

def unmapRange : Code := repeated (block [leafPte, maybe PhysMem.free])

def map : Nat → Code
  | 0 => ASSERT
  | level + 1 => block [ASSERT, maybe PhysMem.alloc, map level]

def map_range : Code := maybe (block [ASSERT, ASSERT, repeated (block [leafPte, maybe (block [PhysMem.alloc, map 3])])])

/-! ## `ramdisk.cc`, `block_io.cc`, `ext2.cc` -/

def RamDisk.read_block : Code := block [ASSERT, repeated Thread.yield]

namespace BlockIO

def read (read_block : Code) : Code :=
  maybe (block [ASSERT, ASSERT, either (block [ASSERT, read_block]) (block [ASSERT, new, read_block, free])])

def read_all (read_block : Code) : Code := repeated (read read_block)

/-- `read` of a whole `T`. -/
def read_thing (read_block : Code) : Code := block [read_all read_block, ASSERT]

end BlockIO

open Kernel.Lock.BlockIO (read_all read_thing)

def Node.read_block : Code :=
  block [ASSERT, either .skip (either (block [deref, read_thing RamDisk.read_block]) KPANIC), deref,
    read_all RamDisk.read_block, ASSERT]

def Node.find : Code :=
  block [ASSERT, repeated (block [read_thing Node.read_block, read_thing Node.read_block,
    read_thing Node.read_block, new, read_all Node.read_block, ASSERT, free])]

def Ext2.get_node : Code :=
  block [ASSERT, ASSERT, ASSERT, ASSERT, Middle.add_strong, new, Middle.add_strong, Middle.add_strong, BlockIO.drop,
    new, BlockIO.drop, deref, deref, read_thing RamDisk.read_block]

/-- With the copy `dir` of the reference. -/
def Ext2.find : Code := block [Middle.add_strong, deref, Node.find, maybe Ext2.get_node, Node.drop]

def Ext2.init : Code :=
  block [Middle.add_strong, deref, read_thing RamDisk.read_block, ASSERT, new, deref,
    read_all RamDisk.read_block, ASSERT, new, Ext2.get_node, Node.drop, Middle.add_strong, Node.drop]

/-! ## `vmm.cc`: the lists of `VME`s -/

/-- `new VME()` and its `node = file`. -/
def VME.new : Code := block [Lock.new, Middle.add_strong]

def VME.delete : Code := block [Node.drop, free]

def clonePrivateVmes : Code := repeated VME.new

def mapPageFromVme : Code :=
  block [leafPte, maybe (block [PhysMem.alloc, ASSERT, maybe (block [ASSERT, deref, read_all Node.read_block]),
    leafPte, either PhysMem.free (block [ASSERT, map 3])])]

def ensureMappedPage : Code :=
  block [leafPte, maybe (either mapPageFromVme (block [SpinLock.sharedLock.guard .skip, maybe mapPageFromVme]))]

def VMM.is_user_range_mapped : Code := repeated ensureMappedPage

def VMM.set_heap_break : Code := maybe (either map_range (maybe unmapRange))

def VMM.snapshot_for_fork : Code :=
  block [ASSERT, PhysMem.alloc, ASSERT, repeated (maybe (cloneTableSubtree 2)), clonePrivateVmes]

/-- The shared section calls `new` with `sharedLock` held. -/
def VMM.mmap : Code :=
  block [Middle.add_strong,
    maybe (either
      (block [.op (.lock .sharedLock),
        either (.op (.unlock .sharedLock)) (block [VME.new, .op (.unlock .sharedLock)])])
      VME.new),
    Node.drop]

def VMM.munmap : Code :=
  repeated (maybe (block [unmapRange, either VME.delete (maybe VME.new)]))

def pageFaultHandler : Code :=
  block [ASSERT, either ensureMappedPage (block [ensureMappedPage, KPRINT, shutdown false])]

def VMM.init_thread : Code := block [PhysMem.alloc, ASSERT, ASSERT]

def VMM.fini_thread : Code :=
  block [repeated (block [unmapRange, VME.delete]),
    maybe (block [SpinLock.sharedLock.guard .skip, repeated VME.delete]),
    maybe (block [ASSERT, repeated (maybe (block [freeTableSubtree 2, PhysMem.free])), PhysMem.free])]

def Thread.stop : Code :=
  block [VMM.fini_thread, ASSERT, ASSERT, ASSERT, Queue.ready.remove,
    .ite (.next none) ASSERT (.op .idle_thread), .op (.set_action .stop), .op .switch, KPANIC]

/-! ## `syscall.cc` -/

def ensure_current_pid : Code := maybe (SpinLock.processLock.guard .skip)

def copy_user_cstring : Code := VMM.is_user_range_mapped

def sys_read : Code :=
  maybe (block [VMM.is_user_range_mapped, maybe (block [Ext2.get_node, deref,
    maybe (block [deref, read_all Node.read_block]), Node.drop])])

def sys_write : Code := maybe (block [VMM.is_user_range_mapped, repeated putch])

def sys_open : Code :=
  maybe (block [copy_user_cstring, maybe (block [Ext2.find, maybe deref, maybe deref, Node.drop])])

def sys_lseek : Code := maybe (block [Ext2.get_node, deref, Node.drop])

/-- The branch without a free slot prints with `processLock` held. -/
def sys_fork : Code :=
  block [ensure_current_pid, VMM.snapshot_for_fork,
    .op (.lock .processLock),
    either (block [KPRINT, .op (.unlock .processLock)])
      (block [.op (.unlock .processLock), make_tcb .fork_child_entry])]

def sys_exit : Code := block [ensure_current_pid, maybe (SpinLock.processLock.guard .skip), Thread.stop]

def sys_waitpid : Code :=
  block [ensure_current_pid, maybe VMM.is_user_range_mapped,
    maybe (block [repeated (block [SpinLock.processLock.guard .skip, Thread.yield]), SpinLock.processLock.guard .skip])]

def sys_semget : Code := maybe (SpinLock.semLock.guard .skip)

def sys_semop : Code :=
  maybe (block [VMM.is_user_range_mapped,
    maybe (block [repeated (block [SpinLock.semLock.guard .skip, Thread.yield]), SpinLock.semLock.guard .skip])])

def sys_semctl : Code := maybe (SpinLock.semLock.guard .skip)

/-- `close` takes no lock. -/
def syscallHandler : Code :=
  oneOf .unknown [sys_read, sys_write, sys_open, sys_lseek, VMM.set_heap_break, Thread.yield, sys_fork, sys_exit,
    sys_waitpid, sys_semget, sys_semop, sys_semctl, block [KPRINT, KPANIC]]

/-- User code enters the kernel by system calls and page faults. -/
def user_mode : Code := .loop .always (either syscallHandler pageFaultHandler)

/-! ## The code of a thread -/

def ELF.load : Code :=
  block [deref, read_thing Node.read_block, KPRINT,
    repeated (block [deref, read_thing Node.read_block,
      maybe (block [ASSERT, map_range, KPRINT, deref, read_all Node.read_block, ASSERT])]),
    Node.drop]

def kernel_main : Code :=
  block [new, ASSERT, maybe KPANIC, new, Middle.add_strong, new, Middle.add_strong, Ext2.init, BlockIO.drop, new,
    BlockIO.drop, deref, deref, KPRINT, deref, KPRINT, deref, Ext2.find, Middle.add_strong, ELF.load, KPRINT, ASSERT,
    map_range, KPRINT, KPRINT, KPRINT, SpinLock.processLock.guard .skip, user_mode]

/-- The work of a thread: `kernel_main`, or any calls in any order. -/
def work : Code :=
  either kernel_main (repeated (oneOf .unknown
    [VMM.mmap, VMM.munmap, pageFaultHandler, Thread.create, Thread.yield, new, malloc, free, KPRINT, putch, map_range,
      Middle.add_strong, Node.drop, Ext2.find, Ext2.get_node, read_all Node.read_block, ELF.load]))

def entry : Code :=
  block [TCB.post_switch, reap, VMM.init_thread, maybe (block [work, free]), Thread.stop]

def fork_child_entry : Code := block [TCB.post_switch, reap, user_mode]

def Entry.start : Entry → List Code
  | .entry => [Lock.entry]
  | .fork_child_entry => [Lock.fork_child_entry]

/-! ## The code of a core -/

def event_loop : Code :=
  .loop .always <| block
    [ASSERT, reap, Queue.ready.remove,
     .ite (.next none) (block [.op (.set_action .none), ASSERT, ASSERT, .op .switch, TCB.post_switch]) .skip]

def Barrier.sync : Code :=
  block [.op (.lock .start_barrier),
    either (Condition.notify_all .start_barrier)
      (block [repeated (Condition.wait .start_barrier), .op (.unlock .start_barrier)])]

/-- With `TCB::alloc`. -/
def bootstrap : Code := block [KPRINT, ASSERT, KPRINT, malloc, ASSERT]

/-- `core_main` up to the barrier. -/
def core_init : Code :=
  block [ASSERT, ASSERT, KPRINT, KPRINT, KPRINT, KPRINT, block (List.replicate 8 KPRINT), bootstrap, ASSERT, ASSERT,
    ASSERT, new, KPRINT, KPRINT]

def core_main (lapic_id : Nat) : List Code :=
  [core_init, Barrier.sync, if lapic_id = 0 then Thread.create else .skip, event_loop]

def lockSystem : System Locks (Nat × Event Op Test) where
  init := Booted core_main
  step := LockStep Entry.start

end Kernel.Lock
