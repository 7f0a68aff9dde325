import Kernel.Syscall.Buffer

/-!
# The process table (`syscall.cc`)

The critical sections of `processLock`: each runs from `lock` to `unlock` with
no other in between.
-/

namespace Kernel

open Lib

structure ProcessEntry where
  used : Bool
  parent : Int
  exited : Bool
  /-- An `int`. -/
  status : BitVec 32
deriving DecidableEq, Repr

def maxProcesses : Nat := 1024

/-- The variables that `processLock` guards. -/
structure Processes where
  processTable : Int → ProcessEntry
  nextPid : Int
  processTableInitialized : Bool

abbrev P (α : Type) := Prog Processes α

def Processes.set (s : Processes) (i : Int) (e : ProcessEntry) : Processes :=
  { s with processTable := fun j => if j = i then e else s.processTable j }

def init_process_table_locked : P Unit := do
  let s ← get
  if s.processTableInitialized then pure ()
  else do
    Prog.forRange maxProcesses fun i => modify fun s => s.set i ⟨false, 0, false, 0⟩
    modify fun s => { s with nextPid := 2 }
    modify fun s => { s with processTableInitialized := true }

/-- The loop of `allocate_pid_locked`, for `turns` more turns. -/
def allocate_pid_loop : Nat → P Int
  | 0 => pure (-1)
  | turns + 1 => do
    let s ← get
    let pid := s.nextPid
    modify fun s => { s with nextPid := s.nextPid + 1 }
    let s ← get
    if s.nextPid ≥ maxProcesses then modify fun s => { s with nextPid := 2 } else pure ()
    let s ← get
    if pid > 0 ∧ pid < maxProcesses ∧ ¬ (s.processTable pid).used then pure pid
    else allocate_pid_loop turns

def allocate_pid_locked : P Int := allocate_pid_loop maxProcesses

/-- `me` is `TCB::current()->pid`. The result is also what that becomes. -/
def ensure_current_pid (me : Int) : P Int := do
  if me > 0 then pure me
  else do
    let s ← get
    if ¬ s.processTableInitialized then init_process_table_locked else pure ()
    modify fun s => s.set 1 ⟨true, 0, false, 0⟩
    pure 1

/-- The result is `me->pid`. -/
def register_process_pid1 : P Int := do
  modify fun s => { s with processTableInitialized := false }
  init_process_table_locked
  modify fun s => s.set 1 ⟨true, 0, false, 0⟩
  pure 1

/-! ## System calls -/

/-- `fork` once there is a snapshot: what the system call returns. -/
def fork (me : Int) : P Int := do
  let myPid ← ensure_current_pid me
  let myPid := if myPid ≤ 0 then 1 else myPid
  init_process_table_locked
  let childPid ← allocate_pid_locked
  if childPid < 0 then pure (-1)
  else do
    modify fun s => s.set childPid ⟨true, myPid, false, 0⟩
    pure childPid

/-- `exit`, before `Thread::stop`. -/
def exit (me : Int) (rdi : Nat) : P Unit := do
  let myPid ← ensure_current_pid me
  if myPid > 0 then do
    init_process_table_locked
    let s ← get
    let pid := myPid
    if pid > 0 ∧ pid < maxProcesses ∧ (s.processTable pid).used then
      modify fun s => s.set pid { s.processTable pid with exited := true, status := BitVec.ofNat 32 rdi }
    else pure ()
  else pure ()

/-- What `waitpid` checks before its loop: the pid it waits for, or `none` for -1. -/
def waitpid_args (me : Int) (rdi rsi rdx : Nat) (mapped : Bool) : P (Option Int) := do
  let myPid ← ensure_current_pid me
  if myPid ≤ 0 then pure none
  else
    let childPid := int32 rdi
    let statusPtr := rsi
    if childPid ≤ 0 ∨ childPid ≥ maxProcesses then pure none
    else if rdx ≠ 0 then pure none
    else if statusPtr ≠ 0 ∧ (¬ is_valid_user_buffer statusPtr 4 ∨ ¬ mapped) then pure none
    else pure (some childPid)

/-- How a turn of the loop of `waitpid` ends. -/
inductive Wait where
  | again
  | denied
  /-- `waitpid` returns `childPid`, and stores a value unless `statusPtr` is null. -/
  | reaped (childPid : Int) (store : Option (BitVec 32))
deriving DecidableEq, Repr

def waitpid_turn (myPid childPid : Int) (statusPtr : Nat) : P Wait := do
  init_process_table_locked
  let s ← get
  if ¬ (s.processTable childPid).used ∨ (s.processTable childPid).parent ≠ myPid then pure .denied
  else if (s.processTable childPid).exited then do
    let status := (s.processTable childPid).status
    modify fun s => s.set childPid { s.processTable childPid with used := false }
    pure (.reaped childPid (if statusPtr ≠ 0 then some ((status &&& 0xFF#32) <<< 8) else none))
  else pure .again

end Kernel
