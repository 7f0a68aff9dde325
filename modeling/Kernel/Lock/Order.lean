import Kernel.Lock.Runs
import Kernel.Lib.Sections

/-!
# The order of spin locks

`sharedLock` and `processLock` are the only spin locks with others taken under
them, and these are never taken under another. So cores that spin do not wait
for each other in a circle, as long as no thread comes to a switch in the two
sections that `Exposes` names.
-/

namespace Kernel.Lock

open Lib
open Lib.Cmd (block oneOf Sections Within AllWithin Nests AllNest)
open Kernel.Thread (Tid Action)
open Kernel.Lock.BlockIO (read_all read_thing)

/-- Other spin locks are taken under it. -/
def SpinLock.Outer (l : SpinLock) : Prop := l = sharedLock ∨ l = processLock

/-- A section is left with the `unlock`, and has no `switch`. -/
@[simps]
def lockSections : Sections Op Test Reg SpinLock SpinLock where
  opens
    | .lock l => some l
    | _ => none
  closes l o := o = .unlock l
  allows l
    | .lock m => l.Outer ∧ ¬ m.Outer
    | .switch => False
    | _ => True
  can l
    | .next (some m), true => ¬ Exposes (· = l) m
    | _, _ => True
  gives
    | .middle, m => ¬ m.Outer
    | .cond_lock, _ => True

/-- What `c` does under its spin locks, with `k` to run after it. -/
def Orders (c : Code) (k : List Code) : Prop := c.Nests lockSections k

/-- Under `l`, the code `c` neither switches nor takes a lock out of order, and goes on to `P`. -/
def Under (l : SpinLock) (c : Code) (P : Prop) : Prop := c.Within lockSections l P

section

variable {k : List Code} {l m : SpinLock} {c d : Code} {cs : List Code} {o : Op} {t : Test} {r : Reg}
  {f : SpinLock → Code} {P : Prop}

/-! ## Rules -/

@[simp] theorem orders_skip : Orders .skip k := trivial
@[simp] theorem orders_nil : Orders (block []) k := trivial
@[simp] theorem orders_cons : Orders (block (c :: cs)) k ↔ Orders c (block cs :: k) ∧ Orders (block cs) k := Iff.rfl
@[simp] theorem orders_ite : Orders (.ite t c d) k ↔ Orders c k ∧ Orders d k := Iff.rfl
@[simp] theorem orders_loop : Orders (.loop t c) k ↔ Orders c (.loop t c :: k) := Iff.rfl
@[simp] theorem orders_read : Orders (.read r f) k ↔ ∀ m, lockSections.gives r m → Orders (f m) k := Iff.rfl
@[simp] theorem orders_either : Orders (either c d) k ↔ Orders c k ∧ Orders d k := Iff.rfl
@[simp] theorem orders_maybe : Orders (maybe c) k ↔ Orders c k := and_iff_left trivial
@[simp] theorem orders_repeated : Orders (repeated c) k ↔ Orders c (repeated c :: k) := Iff.rfl

@[simp] theorem orders_lock : Orders (.op (.lock l)) k ↔ AllWithin lockSections l k :=
  ⟨fun h => h l rfl, fun h _ hl => Option.some.inj hl ▸ h⟩

@[simp] theorem orders_op (ho : lockSections.opens o = none) : Orders (.op o) k := fun l hl => by
  rw [ho] at hl
  cases hl

@[simp] theorem allWithin_cons : AllWithin lockSections l (c :: k) ↔ Under l c (AllWithin lockSections l k) := Iff.rfl

@[simp] theorem under_skip : Under l .skip P ↔ P := Iff.rfl
@[simp] theorem under_nil : Under l (block []) P ↔ P := Iff.rfl
@[simp] theorem under_cons : Under l (block (c :: cs)) P ↔ Under l c (Under l (block cs) P) := Iff.rfl
@[simp] theorem under_op : Under l (.op o) P ↔ o = .unlock l ∨ lockSections.allows l o ∧ P := Iff.rfl
@[simp] theorem under_ite : Under l (.ite t c d) P ↔
    (lockSections.can l t true → Under l c P) ∧ (lockSections.can l t false → Under l d P) := Iff.rfl
@[simp] theorem under_loop : Under l (.loop t c) P ↔
    (lockSections.can l t true → Under l c True) ∧ (lockSections.can l t false → P) := Iff.rfl
@[simp] theorem under_read : Under l (.read r f) P ↔ ∀ m, lockSections.gives r m → Under l (f m) P := Iff.rfl
@[simp] theorem under_either : Under l (either c d) P ↔ Under l c P ∧ Under l d P := by
  simp [either]

@[simp] theorem under_maybe : Under l (maybe c) P ↔ Under l c P ∧ P := under_either

@[simp] theorem under_repeated : Under l (repeated c) P ↔ Under l c True ∧ P := by simp [repeated]

@[simp] theorem SpinLock.orders_guard : Orders (l.guard c) k ↔
    Under l c (Under l (block [.op (.unlock l)]) (AllWithin lockSections l k)) ∧
      Orders c (block [.op (.unlock l)] :: k) := by
  simp [SpinLock.guard]

/-! ## Queues and conditions -/

@[simp] theorem orders_remove {q : Queue} : Orders q.remove k := by simp [Queue.remove]

@[simp] theorem orders_post_switch : Orders TCB.post_switch k := by simp [TCB.post_switch, Queue.add]

@[simp] theorem orders_wait : Orders (Condition.wait l) k ↔ AllWithin lockSections l k := by
  simp [Condition.wait]

@[simp] theorem orders_notify_one : Orders (Condition.notify_one l) k := by simp [Condition.notify_one, Queue.add]

@[simp] theorem orders_notify_all : Orders (Condition.notify_all l) k := by simp [Condition.notify_all, Queue.add]

/-! ## `BlockingLock`, printing and the heap -/

@[simp] theorem BlockingLock.orders_lock {b : BlockingLock} : Orders b.lock k := by
  simp [BlockingLock.lock, Condition.wait, Exposes]

@[simp] theorem BlockingLock.orders_unlock {b : BlockingLock} : Orders b.unlock k := by
  simp [BlockingLock.unlock, Condition.notify_one, Queue.add]

@[simp] theorem BlockingLock.orders_section {b : BlockingLock} : Orders (b.guard c) k ↔
    Orders c (block [b.unlock] :: k) := by
  simp [BlockingLock.guard]

@[simp] theorem orders_KPRINT : Orders KPRINT k := by simp [KPRINT, xprint, putch]

@[simp] theorem orders_KPANIC : Orders KPANIC k := by simp [KPANIC, xprint, putch, shutdown]

@[simp] theorem orders_shutdown {b : Bool} : Orders (shutdown b) k := by cases b <;> simp [shutdown]

@[simp] theorem orders_ASSERT : Orders ASSERT k := by simp [ASSERT]

@[simp] theorem orders_malloc : Orders malloc k := by simp [malloc]

@[simp] theorem orders_free : Orders free k := by simp [free]

@[simp] theorem orders_new : Orders new k := by simp [new]

/-! ## References and threads -/

@[simp] theorem orders_add_strong : Orders Middle.add_strong k := by simp [Middle.add_strong]

@[simp] theorem orders_BlockIO_drop : Orders BlockIO.drop k := by simp [Middle.remove_strong, BlockIO.drop]

@[simp] theorem orders_Node_drop : Orders Node.drop k := by simp [Node.drop, Middle.remove_strong]

@[simp] theorem orders_yield : Orders Thread.yield k := by simp [Thread.yield]

@[simp] theorem orders_reap : Orders reap k := by simp [reap, TCB.dealloc]

@[simp] theorem orders_make_tcb {e : Entry} : Orders (make_tcb e) k := by simp [make_tcb, Queue.add]

/-! ## Frames and files -/

@[simp] theorem orders_PhysMem_alloc : Orders PhysMem.alloc k := by simp [PhysMem.alloc]

@[simp] theorem orders_PhysMem_free : Orders PhysMem.free k := by simp [PhysMem.free]

@[simp] theorem orders_map {level : Nat} : Orders (map level) k := by
  induction level generalizing k with
  | zero => simp [map]
  | succ level ih => simp [map, ih]

@[simp] theorem orders_cloneTableSubtree {level : Nat} : Orders (cloneTableSubtree level) k := by
  induction level generalizing k with
  | zero => simp [cloneTableSubtree]
  | succ level ih => simp [cloneTableSubtree, ih]

@[simp] theorem orders_freeTableSubtree {level : Nat} : Orders (freeTableSubtree level) k := by
  induction level generalizing k with
  | zero => simp [freeTableSubtree]
  | succ level ih => simp [freeTableSubtree, ih]

@[simp] theorem orders_map_range : Orders map_range k := by simp [map_range, leafPte]

@[simp] theorem orders_unmapRange : Orders unmapRange k := by simp [unmapRange, leafPte]

@[simp] theorem orders_RamDisk_read : Orders (read_all RamDisk.read_block) k := by
  simp [read_all, BlockIO.read, RamDisk.read_block]

@[simp] theorem orders_Node_read : Orders (read_all Node.read_block) k := by
  simp [read_all, BlockIO.read, read_thing, Node.read_block, RamDisk.read_block, deref]

@[simp] theorem orders_get_node : Orders Ext2.get_node k := by simp [Ext2.get_node, read_thing, deref]

@[simp] theorem orders_find : Orders Ext2.find k := by simp [Ext2.find, Node.find, read_thing, deref]

@[simp] theorem orders_ELF_load : Orders ELF.load k := by simp [ELF.load, read_thing, deref]

/-! ## The lists of `VME`s -/

@[simp] theorem orders_ensureMappedPage : Orders ensureMappedPage k := by
  simp [ensureMappedPage, mapPageFromVme, leafPte, deref]

/-! ## Under `sharedLock` and `processLock` -/

section

variable (hl : l.Outer)

include hl

theorem under_add_woken : Under l (Queue.ready.add .add_woken) P ↔ P := by
  obtain rfl | rfl := hl <;> simp [Queue.add, SpinLock.guard, SpinLock.Outer]

theorem under_remove {q : Queue} : Under l q.remove P ↔ P := by
  obtain rfl | rfl := hl <;> simp [Queue.remove, SpinLock.guard, SpinLock.Outer]

theorem BlockingLock.under_lock {b : BlockingLock} (hb : Exposes (· = l) (.spin b)) : Under l b.lock P ↔ P := by
  have hremove : ∀ Q, Under l Queue.ready.remove Q ↔ Q := fun Q => under_remove hl
  obtain rfl | rfl := hl <;> simp [BlockingLock.lock, Condition.wait, hremove, hb, SpinLock.Outer]

theorem BlockingLock.under_unlock {b : BlockingLock} : Under l b.unlock P ↔ P := by
  have hadd : ∀ Q, Under l (Queue.ready.add .add_woken) Q ↔ Q := fun Q => under_add_woken hl
  obtain rfl | rfl := hl <;> simp [BlockingLock.unlock, Condition.notify_one, hadd, SpinLock.Outer]

theorem BlockingLock.under_guard {b : BlockingLock} (hb : Exposes (· = l) (.spin b)) :
    Under l (b.guard c) P ↔ Under l c P := by
  have hunlock : ∀ Q, Under l b.unlock Q ↔ Q := fun Q => BlockingLock.under_unlock hl
  simp [BlockingLock.guard, BlockingLock.under_lock hl hb, hunlock]

theorem under_xprint (hb : Exposes (· = l) (.spin .putch_spin)) : Under l xprint P ↔ P := by
  simp [xprint, putch, BlockingLock.under_guard hl hb, BlockingLock.under_lock hl hb, BlockingLock.under_unlock hl]

theorem under_KPANIC (hb : Exposes (· = l) (.spin .putch_spin)) : Under l KPANIC P ↔ P := by
  simp [KPANIC, shutdown, under_xprint hl hb]

end

theorem under_KPRINT : Under .processLock KPRINT P ↔ P := by
  have hb : ∀ b, b = .say_lock ∨ b = .putch_spin → Exposes (· = .processLock) (.spin b) := by simp [Exposes]
  have hl : SpinLock.processLock.Outer := Or.inr rfl
  rw [KPRINT, BlockingLock.under_guard hl (hb _ (Or.inl rfl)), under_xprint hl (hb _ (Or.inr rfl))]

theorem under_new : Under .sharedLock new P ↔ P := by
  have hb : ∀ b, b = .theLock ∨ b = .putch_spin → Exposes (· = .sharedLock) (.spin b) := by simp [Exposes]
  have hl : SpinLock.sharedLock.Outer := Or.inl rfl
  have hpanic : ∀ Q, Under .sharedLock KPANIC Q ↔ Q := fun Q => under_KPANIC hl (hb _ (Or.inr rfl))
  simp [new, malloc, hpanic, BlockingLock.under_guard hl (hb _ (Or.inl rfl))]

theorem under_add_strong : Under .sharedLock Middle.add_strong P ↔ P := by
  simp +contextual [Middle.add_strong, SpinLock.guard, SpinLock.Outer]

/-! ## System calls -/

/-- The shared section calls `new`. -/
@[simp] theorem orders_mmap : Orders VMM.mmap k := by
  simp [VMM.mmap, VME.new, under_new, under_add_strong]

@[simp] theorem orders_munmap : Orders VMM.munmap k := by simp [VMM.munmap, VME.new, VME.delete]

@[simp] theorem orders_pageFaultHandler : Orders pageFaultHandler k := by simp [pageFaultHandler]

@[simp] theorem orders_stop : Orders Thread.stop k := by simp [Thread.stop, VMM.fini_thread, VME.delete]

@[simp] theorem orders_is_user_range_mapped : Orders VMM.is_user_range_mapped k := by simp [VMM.is_user_range_mapped]

/-- Without a free slot it prints. -/
@[simp] theorem orders_sys_fork : Orders sys_fork k := by
  simp [sys_fork, ensure_current_pid, VMM.snapshot_for_fork, clonePrivateVmes, VME.new, under_KPRINT]

@[simp] theorem orders_syscallHandler : Orders syscallHandler k := by
  simp [syscallHandler, oneOf, sys_read, sys_write, sys_open, sys_lseek, sys_exit, sys_waitpid, sys_semget, sys_semop,
    sys_semctl, VMM.set_heap_break, copy_user_cstring, ensure_current_pid, putch, deref]

/-! ## The code of a thread and of a core -/

@[simp] theorem orders_user_mode : Orders user_mode k := by simp [user_mode]

@[simp] theorem orders_work : Orders work k := by
  simp [work, oneOf, kernel_main, Ext2.init, read_thing, deref, Thread.create, make_thread, putch]

theorem allNest_start (e : Entry) : AllNest lockSections e.start := by
  cases e with
  | entry => exact ⟨show Orders entry [] by simp [entry, VMM.init_thread], trivial⟩
  | fork_child_entry => exact ⟨show Orders fork_child_entry [] by simp [fork_child_entry], trivial⟩

theorem allNest_core_main (c : Nat) : AllNest lockSections (core_main c) := by
  refine ⟨?_, ?_, ?_, ?_, trivial⟩
  · show Orders core_init _
    simp [core_init, bootstrap]
  · show Orders Barrier.sync _
    simp [Barrier.sync, Condition.wait, Condition.notify_all, Queue.add]
  · show Orders (if c = 0 then Thread.create else .skip) _
    split <;> simp [Thread.create, make_thread]
  · show Orders event_loop _
    simp [event_loop]

end

end Kernel.Lock
