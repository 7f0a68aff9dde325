import Kernel.Lib.Command
import Kernel.Thread.Code

/-!
# Locks and the threads that take them (`spin_lock.cc`, `blocking_lock.h`, `condition.h`, `queue.h`)

Any number of cores and threads. A thread has its code still to run, and a step
of a core is a step of its current thread. What the code tests of data that no
lock depends on may go either way.
-/

namespace Kernel.Lock

open Lib
open Kernel.Thread (Tid Action)

inductive BlockingLock where
  | theLock
  | say_lock
  | putch_spin
deriving DecidableEq

/-- The queues that have a `SpinLock`. -/
inductive Queue where
  | ready
  | reaper
deriving DecidableEq

/-- Every `SpinLock`: that of a `BlockingLock`, of a `Queue`, of the `Middle` of a reference, and those with a name. -/
inductive SpinLock where
  | spin (b : BlockingLock)
  | queue (q : Queue)
  | middle (m : Nat)
  | processLock
  | semLock
  | sharedLock
  | physMem
  | start_barrier
deriving DecidableEq

/-- The functions that a new thread starts in. -/
inductive Entry where
  | entry
  | fork_child_entry
deriving DecidableEq

inductive Op where
  | lock (l : SpinLock)
  | unlock (l : SpinLock)
  /-- `locked = v`. -/
  | set_locked (b : BlockingLock) (v : Bool)
  /-- `me->cond_epoch = epoch`. -/
  | capture (l : SpinLock)
  /-- `me->cond_lock = &lock`, `me->action = Action::Wait`, `me->cond = this`. -/
  | set_wait (l : SpinLock)
  | set_action (a : Action)
  /-- `epoch += 1`. -/
  | bump (l : SpinLock)
  /-- What `Queue::remove` does under the lock, and that it returns `nullptr`. -/
  | take (q : Queue)
  | take_none
  /-- `waiting.remove()` and `waiting.remove_all()`. -/
  | take_waiting (l : SpinLock)
  | take_all (l : SpinLock)
  /-- What `Queue::add` does under the lock, for a thread that was woken, for `prev` and for a new thread. -/
  | add_woken
  | add_prev (q : Queue)
  | add_tcb
  /-- `cond->waiting.add(this)`. -/
  | park (l : SpinLock)
  /-- `TCB::alloc` has the memory, and the caller sets up the stack. -/
  | alloc (e : Entry)
  | idle_thread
  /-- `context_switch_(next)`. -/
  | switch
  /-- A failed `ASSERT` under a lock. -/
  | assert
  | halt

inductive Test where
  /-- On data that the model leaves out. -/
  | unknown
  | always
  | is_idle
  /-- `next != nullptr`, in the `wait` with the lock `l` or elsewhere. -/
  | next (l : Option SpinLock)
  | woken
  /-- `first == nullptr`. -/
  | empty (q : Queue)
  | locked (b : BlockingLock)
  | action (a : Action)
  /-- `cond->epoch == cond_epoch`. -/
  | same_epoch (l : SpinLock)
deriving DecidableEq

inductive Reg where
  /-- The `cond_lock` of `prev`. -/
  | cond_lock
  /-- The lock of some `Middle`. -/
  | middle

abbrev Code := Cmd Op Test Reg SpinLock

/-- A `TCB`, and the local variables of the thread that lead to another. -/
structure TCB where
  code : List Code
  next : Option Tid
  prev : Option Tid
  tcb : Option Tid
  woken : List Tid
  action : Action
  cond_lock : Option SpinLock
  cond_epoch : BitVec 64

/-- A `Condition` goes with the lock that it is used with. -/
structure Locks where
  current : Nat → Tid
  thread : Tid → TCB
  holder : SpinLock → Option Tid
  locked : BlockingLock → Bool
  queue : Queue → List Tid
  waiting : SpinLock → List Tid
  epoch : SpinLock → BitVec 64

namespace Locks

@[simps]
def modThread (s : Locks) (t : Tid) (f : TCB → TCB) : Locks :=
  { s with thread := fun u => if u = t then f (s.thread u) else s.thread u }

@[simps]
def setHolder (s : Locks) (l : SpinLock) (t : Option Tid) : Locks :=
  { s with holder := fun m => if m = l then t else s.holder m }

@[simps]
def setLocked (s : Locks) (b : BlockingLock) (v : Bool) : Locks :=
  { s with locked := fun d => if d = b then v else s.locked d }

@[simps]
def setQueue (s : Locks) (q : Queue) (l : List Tid) : Locks :=
  { s with queue := fun p => if p = q then l else s.queue p }

@[simps]
def setWaiting (s : Locks) (l : SpinLock) (w : List Tid) : Locks :=
  { s with waiting := fun m => if m = l then w else s.waiting m }

@[simps]
def setEpoch (s : Locks) (l : SpinLock) (e : BitVec 64) : Locks :=
  { s with epoch := fun m => if m = l then e else s.epoch m }

@[simps]
def setCurrent (s : Locks) (c : Nat) (t : Tid) : Locks :=
  { s with current := fun d => if d = c then t else s.current d }

@[simps!]
def setCode (s : Locks) (t : Tid) (k : List Code) : Locks := s.modThread t fun x => { x with code := k }

/-- The thread that the current thread of core `c` switched from. -/
def prev (s : Locks) (c : Nat) : Option Tid := (s.thread (s.current c)).prev

/--
The operation `o` of the current thread on core `c`, if it can be done. A new thread gets the code `start e`; `n` is
the new thread, one that never ran.
-/
def exec (start : Entry → List Code) (s : Locks) (c n : Nat) : Op → Option Locks
  | .lock l => if s.holder l = none then some (s.setHolder l (some (s.current c))) else none
  | .unlock l => some (s.setHolder l none)
  | .set_locked b v => some (s.setLocked b v)
  | .capture l => some (s.modThread (s.current c) fun x => { x with cond_epoch := s.epoch l })
  | .set_wait l => some (s.modThread (s.current c) fun x => { x with cond_lock := some l, action := .wait })
  | .set_action a => some (s.modThread (s.current c) fun x => { x with action := a })
  | .bump l => some (s.setEpoch l (s.epoch l + 1))
  | .take q => match s.queue q with
    | [] => none
    | t :: rest => some ((s.setQueue q rest).modThread (s.current c) fun x => { x with next := some t })
  | .take_none => some (s.modThread (s.current c) fun x => { x with next := none })
  | .take_waiting l => some ((s.setWaiting l (s.waiting l).tail).modThread (s.current c) fun x =>
      { x with woken := (s.waiting l).head?.toList })
  | .take_all l => some ((s.setWaiting l []).modThread (s.current c) fun x => { x with woken := s.waiting l })
  | .add_woken => some ((s.setQueue .ready (s.queue .ready ++ (s.thread (s.current c)).woken.head?.toList)).modThread
      (s.current c) fun x => { x with woken := x.woken.tail })
  | .add_prev q => some (s.setQueue q (s.queue q ++ (s.prev c).toList))
  | .add_tcb => some (s.setQueue .ready (s.queue .ready ++ (s.thread (s.current c)).tcb.toList))
  | .park l => some (s.setWaiting l (s.waiting l ++ (s.prev c).toList))
  | .alloc e =>
    if (s.thread (.thread n)).code.isEmpty then
      some ((s.setCode (.thread n) (start e)).modThread (s.current c) fun x => { x with tcb := some (.thread n) })
    else none
  | .idle_thread => some (s.modThread (s.current c) fun x => { x with next := some (.idle c) })
  | .switch => (s.thread (s.current c)).next.map fun t =>
      (s.setCurrent c t).modThread t fun x => { x with prev := some (s.current c) }
  | .assert => none
  | .halt => none

/-- What a test of the current thread on core `c` gives, unless the model leaves it open. -/
def eval (s : Locks) (c : Nat) : Test → Option Bool
  | .unknown => none
  | .always => some true
  | .is_idle => some (s.current c).is_idle
  | .next _ => some (s.thread (s.current c)).next.isSome
  | .woken => some !(s.thread (s.current c)).woken.isEmpty
  | .empty q => some (s.queue q).isEmpty
  | .locked b => some (s.locked b)
  | .action a => some (decide ((s.prev c).map (fun t => (s.thread t).action) = some a))
  | .same_epoch l => some (decide ((s.prev c).map (fun t => (s.thread t).cond_epoch) = some (s.epoch l)))

def Holds (s : Locks) (c : Nat) (t : Test) (v : Bool) : Prop := ∀ b, s.eval c t = some b → v = b

def Reads (s : Locks) (c : Nat) : Reg → SpinLock → Prop
  | .cond_lock, l => (s.prev c).bind (fun t => (s.thread t).cond_lock) = some l
  | .middle, l => ∃ m, l = .middle m

/-- The code that the current thread of core `c` has yet to run. -/
def code (s : Locks) (c : Nat) : List Code := (s.thread (s.current c)).code

end Locks

/-- A label is the core that takes the step, and what its thread does. -/
inductive LockStep (start : Entry → List Code) : Locks → Nat × Event Op Test → Locks → Prop where
  | unfold {s : Locks} {c : Nat} {v : Event Op Test} {k : List Code} :
      Cmd.Unfolds (s.Holds c) (s.Reads c) (s.code c) v k → LockStep start s (c, v) (s.setCode (s.current c) k)
  | op {s u : Locks} {c n : Nat} {o : Op} {k : List Code} : s.code c = .op o :: k →
      (s.setCode (s.current c) k).exec start c n o = some u → LockStep start s (c, .op o) u

/-- Every core runs the code `boot` of its idle thread, and there is no other thread. -/
structure Booted (boot : Nat → List Code) (s : Locks) : Prop where
  current : ∀ c, s.current c = .idle c
  idle : ∀ c, (s.thread (.idle c)).code = boot c
  thread : ∀ n, (s.thread (.thread n)).code = []
  holder : ∀ l, s.holder l = none
  locked : ∀ b, s.locked b = false
  queue : ∀ q, s.queue q = []
  waiting : ∀ l, s.waiting l = []

end Kernel.Lock
