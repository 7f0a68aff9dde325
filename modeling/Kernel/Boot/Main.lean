import Kernel.Boot.RamDisk
import Kernel.Elf.Code
import Kernel.File.Descriptors
import Kernel.File.Geometry
import Kernel.Process.Code

/-!
# `kernel_main`

The first thread mounts the RAM disk, loads `init` and goes to user mode.
-/

namespace Kernel

open Lib

/-- What `kernel_main` changes. -/
structure Boot where
  machine : Machine
  processes : Processes
  g_sys_fs_ptr : Option Ext2
  /-- `PerCore::get()->tss.rsp0`. -/
  rsp0 : Nat
  disabled : Bool
  /-- `TCB::current()->pid`. -/
  pid : Int

abbrev B (α : Type) := Prog Boot α

def Boot.vm {α : Type} (c : K α) : B α := Prog.zoom Boot.machine (fun m s => { s with machine := m }) c

def Boot.table {α : Type} (c : P α) : B α := Prog.zoom Boot.processes (fun p s => { s with processes := p }) c

/-- The registers that `sysretq` sets. -/
structure UserState where
  rip : Nat
  rsp : Nat
  rflags : Nat
deriving DecidableEq, Repr

def switch_to_user (entry sp : Nat) : UserState := ⟨entry, sp, 0x200⟩

/-- `/boot/ramdisk`. -/
def ramdisk_name : List Byte := [47, 98, 111, 111, 116, 47, 114, 97, 109, 100, 105, 115, 107]

/-- `init`. -/
def init_name : List Byte := [105, 110, 105, 116]

def user_rsp : Nat := 0x7ffffff0000

def stack_size : Nat := 64 * 1024

/-- `memory` is the memory that the modules are in, and `turns` bounds the scan of the root directory. -/
def kernel_main (memory : Memory) (modules : List LimineFile) (nodes : Nat → BlockIO) (turns stack_bottom : Nat) :
    B UserState := do
  let mod ← orPanic (find_module modules ramdisk_name)
  let fs ← orPanic (Ext2.mount (RamDisk.io memory mod))
  modify fun s => { s with g_sys_fs_ptr := some fs }
  -- `find` gives null if there is no `init`, and `load` uses that.
  let init ← orPanic (fs.find turns fs.root init_name)
  let init ← orPanic init
  let (entry, loaded_end) ← Boot.vm (Script.perform (LoadOp.act nodes) (ELF.load init.io))
  Boot.vm (init_heap_break (initial_break loaded_end))
  let limit := user_rsp - stack_size
  Boot.vm (map_range limit stack_size true true)
  modify fun s => { s with disabled := true, rsp0 := stack_bottom }
  let pid ← Boot.table register_process_pid1
  modify fun s => { s with pid := pid }
  pure (switch_to_user entry user_rsp)

end Kernel
