import Kernel.Lock.Sections

/-!
# What each function holds

A function that takes its locks with none held gives them all back, and waits
with none held: all but `mmap` and `fork`, by the rules for every caller of
theirs, and these two in the sections that `Exposes` names.
-/

namespace Kernel.Lock

open Lib
open Lib.Cmd (block oneOf Flow)
open Kernel.Lock.BlockIO (read_all read_thing)

section

variable {s : List SpinLock} {c : Code}

/-! ## Printing and the heap -/

theorem quiet_putch (h : MayBlock s .putch_spin) : Quiet s putch := by
  have hguard : Quiet s (BlockingLock.putch_spin.guard .skip) := BlockingLock.quiet_guard h quiet_skip
  exact fun B => .cons (quiet_repeated.mpr hguard B) (.cons (BlockingLock.lock_flow h) (.last BlockingLock.unlock_flow))

theorem quiet_xprint (h : MayBlock s .putch_spin) : Quiet s xprint := quiet_repeated.mpr (quiet_putch h)

theorem quiet_KPRINT (hs : MayBlock s .say_lock) (hp : MayBlock s .putch_spin) : Quiet s KPRINT :=
  BlockingLock.quiet_guard hs (quiet_xprint hp)

theorem quiet_halt : Quiet s (.op .halt) := fun _ => .halt

theorem quiet_KPANIC (h : MayBlock s .putch_spin) : Quiet s KPANIC := by
  have hshutdown : Quiet s (shutdown false) := quiet_block (by simp [quiet_halt])
  exact quiet_block (by simp [quiet_xprint h, hshutdown])

theorem quiet_malloc (h : MayBlock s .theLock) (hp : MayBlock s .putch_spin) : Quiet s malloc :=
  quiet_maybe.mpr (BlockingLock.quiet_guard h (by simp [quiet_KPANIC hp]))

theorem quiet_new (h : MayBlock s .theLock) (hp : MayBlock s .putch_spin) : Quiet s new :=
  quiet_block (by simp [quiet_malloc h hp, quiet_KPANIC hp])

theorem mayBlock_nil {b : BlockingLock} : MayBlock [] b := Or.inl rfl

@[simp] theorem quiet_putch_nil : Quiet [] putch := quiet_putch mayBlock_nil

@[simp] theorem quiet_KPRINT_nil : Quiet [] KPRINT := quiet_KPRINT mayBlock_nil mayBlock_nil

@[simp] theorem quiet_KPANIC_nil : Quiet [] KPANIC := quiet_KPANIC mayBlock_nil

@[simp] theorem quiet_malloc_nil : Quiet [] malloc := quiet_malloc mayBlock_nil mayBlock_nil

@[simp] theorem quiet_new_nil : Quiet [] new := quiet_new mayBlock_nil mayBlock_nil

@[simp] theorem quiet_free : Quiet [] free :=
  quiet_maybe.mpr (BlockingLock.quiet_guard mayBlock_nil (by simp))

@[simp] theorem quiet_shutdown {b : Bool} : Quiet [] (shutdown b) := by
  cases b <;> exact quiet_block (by simp [quiet_halt])

@[simp] theorem quiet_ASSERT : Quiet [] ASSERT := by simp [ASSERT]

/-! ## References -/

@[simp] theorem quiet_add_strong : Quiet s Middle.add_strong :=
  quiet_maybe.mpr (quiet_read fun _ => SpinLock.quiet_section)

@[simp] theorem quiet_remove_strong (h : Quiet [] c) : Quiet [] (Middle.remove_strong c) := by
  have hread : Quiet [] (.read .middle fun l => l.guard .skip) := quiet_read fun _ => SpinLock.quiet_section
  exact quiet_maybe.mpr (quiet_block (by simp [h, hread]))

@[simp] theorem quiet_deref : Quiet [] deref := quiet_block (by simp)

@[simp] theorem quiet_BlockIO_drop : Quiet [] BlockIO.drop := quiet_remove_strong quiet_skip

@[simp] theorem quiet_Node_drop : Quiet [] Node.drop := quiet_remove_strong quiet_BlockIO_drop

/-! ## Threads -/

@[simp] theorem quiet_next {d : Code} (hc : Quiet s c) (hd : Quiet s d) : Quiet s (.ite (.next none) c d) :=
  quiet_ite (fun _ v => by cases v <;> rfl) hc hd

@[simp] theorem quiet_switch : Quiet [] (.op .switch) := fun _ => .switch

attribute [simp] Queue.quiet_remove TCB.quiet_post_switch

@[simp] theorem quiet_yield : Quiet [] Thread.yield := by
  have hswitch : Quiet [] (block [ASSERT, .op (.set_action .ready), .op .switch, TCB.post_switch, ASSERT, ASSERT]) :=
    quiet_block (by simp)
  exact quiet_block (by simp [hswitch])

@[simp] theorem quiet_reap : Quiet [] reap := by
  have hloop : ∀ c, Quiet [] c → Quiet [] (.loop (.next none) c) := fun c hc =>
    quiet_loop (fun _ v => by cases v <;> rfl) hc
  have hdealloc : Quiet [] TCB.dealloc := quiet_block (by simp)
  exact quiet_block (by simp [hdealloc, hloop])

@[simp] theorem quiet_make_tcb {e : Entry} : Quiet [] (make_tcb e) := by
  have hadd : Quiet [] (Queue.ready.add .add_tcb) := Queue.quiet_add rfl
  exact quiet_block (by simp [hadd])

@[simp] theorem quiet_create : Quiet [] Thread.create := quiet_block (by simp [make_thread])

/-! ## Frames and page tables -/

@[simp] theorem quiet_PhysMem_alloc : Quiet [] PhysMem.alloc := by
  refine fun B => .cons SpinLock.lock_flow (.cons ?_ (.last (quiet_ASSERT B)))
  refine .ite (fun v => by cases v <;> rfl) .unlock (.ite (fun v => by cases v <;> rfl) ?_ .unlock)
  exact .cons .unlock (.last (quiet_KPANIC_nil B))

@[simp] theorem quiet_PhysMem_free : Quiet [] PhysMem.free := quiet_block (by simp)

@[simp] theorem quiet_leafPte : Quiet [] leafPte := quiet_ASSERT

@[simp] theorem quiet_cloneTableSubtree {level : Nat} : Quiet [] (cloneTableSubtree level) := by
  induction level with
  | zero => exact quiet_block (by simp)
  | succ level ih => exact quiet_block (by simp [ih])

@[simp] theorem quiet_freeTableSubtree {level : Nat} : Quiet [] (freeTableSubtree level) := by
  induction level with
  | zero => exact quiet_block (by simp)
  | succ level ih => exact quiet_block (by simp [ih])

@[simp] theorem quiet_unmapRange : Quiet [] unmapRange := by simp [unmapRange]

@[simp] theorem quiet_map {level : Nat} : Quiet [] (map level) := by
  induction level with
  | zero => exact quiet_ASSERT
  | succ level ih => exact quiet_block (by simp [ih])

@[simp] theorem quiet_map_range : Quiet [] map_range := quiet_maybe.mpr (quiet_block (by simp))

/-! ## Files -/

@[simp] theorem quiet_RamDisk_read_block : Quiet [] RamDisk.read_block := quiet_block (by simp)

@[simp] theorem quiet_read_all (h : Quiet [] c) : Quiet [] (read_all c) :=
  quiet_repeated.mpr (quiet_maybe.mpr (quiet_block (by simp [h])))

@[simp] theorem quiet_read_thing (h : Quiet [] c) : Quiet [] (read_thing c) :=
  quiet_block (by simp [quiet_read_all h])

@[simp] theorem quiet_Node_read_block : Quiet [] Node.read_block := by
  have hread : Quiet [] (read_thing RamDisk.read_block) := quiet_read_thing quiet_RamDisk_read_block
  exact quiet_block (by simp [hread])

@[simp] theorem quiet_get_node : Quiet [] Ext2.get_node := quiet_block (by simp)

@[simp] theorem quiet_find : Quiet [] Ext2.find := by
  have hfind : Quiet [] Node.find := quiet_block (by simp)
  exact quiet_block (by simp [hfind])

@[simp] theorem quiet_Ext2_init : Quiet [] Ext2.init := quiet_block (by simp)

@[simp] theorem quiet_ELF_load : Quiet [] ELF.load := by
  have hread : Quiet [] (read_all Node.read_block) := quiet_read_all quiet_Node_read_block
  exact quiet_block (by simp [hread])

/-! ## The lists of `VME`s -/

theorem quiet_VME_new (h : MayBlock s .theLock) (hp : MayBlock s .putch_spin) : Quiet s VME.new :=
  quiet_block (by simp [quiet_new h hp])

@[simp] theorem quiet_VME_new_nil : Quiet [] VME.new := quiet_VME_new mayBlock_nil mayBlock_nil

@[simp] theorem quiet_VME_delete : Quiet [] VME.delete := quiet_block (by simp)

@[simp] theorem quiet_ensureMappedPage : Quiet [] ensureMappedPage := by
  have hmap : Quiet [] mapPageFromVme := by
    have hread : Quiet [] (read_all Node.read_block) := quiet_read_all quiet_Node_read_block
    exact quiet_block (by simp [hread])
  exact quiet_block (by simp [hmap])

@[simp] theorem quiet_is_user_range_mapped : Quiet [] VMM.is_user_range_mapped :=
  quiet_repeated.mpr quiet_ensureMappedPage

@[simp] theorem quiet_set_heap_break : Quiet [] VMM.set_heap_break := by simp [VMM.set_heap_break]

@[simp] theorem quiet_snapshot_for_fork : Quiet [] VMM.snapshot_for_fork :=
  quiet_block (by simp [clonePrivateVmes])

/-- `new` waits with `sharedLock` held. -/
@[simp] theorem quiet_mmap : Quiet [] VMM.mmap := by
  have hnew : Quiet [SpinLock.sharedLock] VME.new :=
    quiet_VME_new (Or.inr (by simp [Exposes])) (Or.inr (by simp [Exposes]))
  have hshared : Quiet [] (block [.op (.lock .sharedLock),
      either (.op (.unlock .sharedLock)) (block [VME.new, .op (.unlock .sharedLock)])]) := fun B =>
    .cons SpinLock.lock_flow (.last (.ite (fun v => by cases v <;> rfl) .unlock (.cons (hnew B) (.last .unlock))))
  exact quiet_block (by simp [hshared])

@[simp] theorem quiet_munmap : Quiet [] VMM.munmap := by simp [VMM.munmap]

@[simp] theorem quiet_pageFaultHandler : Quiet [] pageFaultHandler := quiet_block (by simp)

@[simp] theorem quiet_init_thread : Quiet [] VMM.init_thread := quiet_block (by simp)

@[simp] theorem quiet_stop : Quiet [] Thread.stop := by
  have hfini : Quiet [] VMM.fini_thread := quiet_block (by simp)
  exact quiet_block (by simp [hfini])

/-! ## System calls -/

@[simp] theorem quiet_ensure_current_pid : Quiet [] ensure_current_pid := quiet_maybe.mpr SpinLock.quiet_section

theorem quiet_sys_read : Quiet [] sys_read := by
  have hread : Quiet [] (read_all Node.read_block) := quiet_read_all quiet_Node_read_block
  exact quiet_maybe.mpr (quiet_block (by simp [hread]))

theorem quiet_sys_open : Quiet [] sys_open := quiet_maybe.mpr (quiet_block (by simp [copy_user_cstring]))

theorem quiet_sys_fork : Quiet [] sys_fork := by
  have hprint : Quiet [SpinLock.processLock] KPRINT :=
    quiet_KPRINT (Or.inr (by simp [Exposes])) (Or.inr (by simp [Exposes]))
  refine fun B => .cons (quiet_ensure_current_pid B) (.cons (quiet_snapshot_for_fork B) (.cons SpinLock.lock_flow ?_))
  refine .last (.ite (fun v => by cases v <;> rfl) ?_ ?_)
  · exact .cons (hprint B) (.last .unlock)
  · exact .cons .unlock (.last (quiet_make_tcb B))

theorem quiet_sys_exit : Quiet [] sys_exit := quiet_block (by simp)

theorem quiet_sys_waitpid : Quiet [] sys_waitpid := quiet_block (by simp)

theorem quiet_sys_semop : Quiet [] sys_semop := quiet_maybe.mpr (quiet_block (by simp))

@[simp] theorem quiet_syscallHandler : Quiet [] syscallHandler :=
  quiet_oneOf (by simp [quiet_sys_read, sys_write, quiet_sys_open, sys_lseek, quiet_sys_fork, quiet_sys_exit,
    quiet_sys_waitpid, sys_semget, quiet_sys_semop, sys_semctl])

@[simp] theorem quiet_user_mode : Quiet [] user_mode :=
  quiet_always (quiet_either.mpr ⟨quiet_syscallHandler, quiet_pageFaultHandler⟩)

/-! ## The code of a thread and of a core -/

@[simp] theorem quiet_work : Quiet [] work := by
  have hmain : Quiet [] kernel_main := quiet_block (by simp)
  exact quiet_either.mpr ⟨hmain, quiet_repeated.mpr (quiet_oneOf (by simp))⟩

theorem flows_start (e : Entry) : Cmd.Flows rules .none e.start Held.none := by
  cases e with
  | entry =>
    have h : Quiet [] entry := quiet_block (by simp)
    exact ⟨Held.none, h [], rfl⟩
  | fork_child_entry =>
    have h : Quiet [] fork_child_entry := quiet_block (by simp)
    exact ⟨Held.none, h [], rfl⟩

theorem flows_core_main (c : Nat) : Cmd.Flows rules .none (core_main c) Held.none := by
  have hbootstrap : Quiet [] bootstrap := quiet_block (by simp)
  have hinit : Quiet [] core_init := quiet_block (by simp [hbootstrap])
  have hsync : Quiet [] Barrier.sync := by
    refine fun B => .cons SpinLock.lock_flow (.last (.ite (fun v => by cases v <;> rfl) Condition.notify_all_flow ?_))
    exact .cons (.loop (fun v => by cases v <;> rfl) (Condition.wait_flow (Or.inl rfl))) (.last .unlock)
  have hcreate : Quiet [] (if c = 0 then Thread.create else .skip) := by
    split
    · exact quiet_create
    · exact quiet_skip
  have hswitch : Quiet [] (block [.op (.set_action .none), ASSERT, ASSERT, .op .switch, TCB.post_switch]) :=
    quiet_block (by simp)
  have hloop : Quiet [] event_loop := quiet_always (quiet_block (by simp [hswitch]))
  exact ⟨Held.none, hinit [], Held.none, hsync [], Held.none, hcreate [], Held.none, hloop [], rfl⟩

end

end Kernel.Lock
