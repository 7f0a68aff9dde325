import Mathlib.Algebra.Group.Nat.Defs
import Kernel.Lib.Transition
import Mathlib.Tactic.Common
import Mathlib.Tactic.Simps.Basic

/-!
# Threads and conditions (`thread.cc`, `condition.h`)

Any number of cores, each of which is between two steps of the code. A call of
a `Queue` is one step, and so is what a lock protects in `post_switch` and in a
notification. `Pit::init_core` returns at once, so a thread leaves its core
only in a call of its own.
-/

namespace Kernel.Thread

open Lib

/-- A `TCB *`: that of a core's idle thread, or one from `TCB::alloc`. -/
inductive Tid where
  | idle (core : Nat)
  | thread (n : Nat)
deriving DecidableEq

def Tid.is_idle : Tid → Bool
  | idle _ => true
  | thread _ => false

inductive Action where
  | ready
  | stop
  | wait
  | none
deriving DecidableEq

/-- A thread's progress in `make_thread` or in `fork`, and whether `n_active` counts the new thread. -/
inductive Making where
  | none
  | counted
  | made (n : Nat) (counted : Bool)

/-- A thread's progress in `reap`. -/
inductive Reaping where
  | none
  | taken (n : Nat)
  /-- `TCB::dealloc` has freed the stack. -/
  | unstacked (n : Nat)
  | freed

/-- A `TCB`, and what is on the thread's stack. -/
structure TCB where
  /-- `saved_rsp` is where the thread's registers are: `context_switch_` or the creator put them there. -/
  saved : Bool
  disable_preemption_count : Nat
  the_stack : Nat
  stack_bottom : Nat
  action : Action
  /-- The condition, with which goes its `cond_lock`. -/
  cond : Nat
  cond_epoch : Nat
  /-- The condition whose `wait` the thread is in. -/
  inside : Option Nat
  making : Making
  reaping : Reaping
  /-- Ghost: the notifications that `wait` had seen, and the calls of `wait`. -/
  captured : Nat
  waits : Nat
  /-- Ghost: where the stack of the thread's system call starts. -/
  entered : Option Nat

def TCB.disable_preemption (x : TCB) : TCB := { x with disable_preemption_count := x.disable_preemption_count + 1 }

/-- The `ASSERT` is a condition of the steps. -/
def TCB.enable_preemption (x : TCB) : TCB := { x with disable_preemption_count := x.disable_preemption_count - 1 }

/-- What `TCB::alloc` sets. The rest is what the memory held. -/
def TCB.alloc (x : TCB) : TCB :=
  { x with saved := false, disable_preemption_count := 1, the_stack := 0, inside := none, entered := none }

/-- Where a core is in the calls that switch threads or wake them. -/
inductive Stage where
  /-- In none of them. -/
  | run
  /-- In `Condition::wait`, with the lock released. -/
  | released
  /-- Before `context_switch_(next)`. -/
  | picked (next : Tid)
  /-- Before `prev->post_switch()`. -/
  | post (prev : Tid)
  /-- In `prev->post_switch()`, which found another epoch. -/
  | requeue (prev : Nat)
  /-- In a notification, with the lock released. -/
  | adding (l : List Nat)

structure Core where
  current : Tid
  stage : Stage
  /-- `tss.rsp0`. -/
  rsp0 : Nat
  /-- The core runs user code, of its current thread. -/
  user : Bool
  /-- The core is past the first line of `event_loop`. -/
  looping : Bool

structure Condition where
  waiting : List Nat
  epoch : Nat
  /-- The thread that holds the spin lock that the condition is used with. -/
  holder : Option Tid
  /-- Ghost: the notifications. -/
  notes : Nat

/-- A notification, which takes the threads that are not in `rest`. -/
def Condition.notify (x : Condition) (rest : List Nat) : Condition :=
  { waiting := rest, epoch := (x.epoch + 1) % 2 ^ 64, holder := none, notes := x.notes + 1 }

structure Threads where
  tcb : Tid → TCB
  core : Nat → Core
  cond : Nat → Condition
  readyQueue : List Nat
  reaperQueue : List Nat
  n_active : Nat
  /-- `TCB::alloc` returned it, and `TCB::dealloc` did not free it. -/
  alive : Nat → Bool
  /-- Ghost: the live allocation that is a TCB's stack. -/
  stack : Nat → Option Nat

namespace Threads

@[simps]
def modTcb (s : Threads) (t : Tid) (f : TCB → TCB) : Threads :=
  { s with tcb := fun u => if u = t then f (s.tcb u) else s.tcb u }

@[simps]
def modCore (s : Threads) (c : Nat) (f : Core → Core) : Threads :=
  { s with core := fun d => if d = c then f (s.core d) else s.core d }

@[simps]
def modCond (s : Threads) (k : Nat) (f : Condition → Condition) : Threads :=
  { s with cond := fun j => if j = k then f (s.cond j) else s.cond j }

@[simps]
def setReady (s : Threads) (l : List Nat) : Threads := { s with readyQueue := l }

@[simps]
def setReaper (s : Threads) (l : List Nat) : Threads := { s with reaperQueue := l }

@[simps]
def setAlive (s : Threads) (n : Nat) (b : Bool) : Threads :=
  { s with alive := fun m => if m = n then b else s.alive m }

@[simps]
def setStack (s : Threads) (n : Nat) (a : Option Nat) : Threads :=
  { s with stack := fun m => if m = n then a else s.stack m }

@[simps]
def setActive (s : Threads) (n : Nat) : Threads := { s with n_active := n }

def current (s : Threads) (c : Nat) : Tid := (s.core c).current
def stage (s : Threads) (c : Nat) : Stage := (s.core c).stage
def inside (s : Threads) (t : Tid) : Option Nat := (s.tcb t).inside
def making (s : Threads) (t : Tid) : Making := (s.tcb t).making
def reaping (s : Threads) (t : Tid) : Reaping := (s.tcb t).reaping
def count (s : Threads) (t : Tid) : Nat := (s.tcb t).disable_preemption_count

def setStage (s : Threads) (c : Nat) (g : Stage) : Threads := s.modCore c fun x => { x with stage := g }
def setHolder (s : Threads) (k : Nat) (h : Option Tid) : Threads := s.modCond k fun x => { x with holder := h }
def setInside (s : Threads) (t : Tid) (k : Option Nat) : Threads := s.modTcb t fun x => { x with inside := k }
def setMaking (s : Threads) (t : Tid) (m : Making) : Threads := s.modTcb t fun x => { x with making := m }
def setReaping (s : Threads) (t : Tid) (r : Reaping) : Threads := s.modTcb t fun x => { x with reaping := r }

def ready (s : Threads) (n : Nat) : Threads := s.setReady (s.readyQueue ++ [n])

/-- Thread `t` on core `c` is about to switch to `next`, which `readyQueue.remove()` took away unless it is idle. -/
def pick (s : Threads) (c : Nat) (t : Tid) (a : Action) (next : Tid) (rest : List Nat) : Threads :=
  ((s.setReady rest).modTcb t fun x => { x.disable_preemption with action := a }).setStage c (.picked next)

/-- `context_switch_(next)` on core `c`. -/
def context_switch (s : Threads) (c : Nat) (next : Tid) : Threads :=
  ((s.modTcb (s.current c) fun x => { x with saved := true }).modTcb next fun x => { x with saved := false }).modCore c
    fun x => { x with current := next, stage := .post x.current }

/-- The `tss.rsp0` that `post_switch` leaves on core `c`. -/
def tss_rsp0 (s : Threads) (c : Nat) : Nat :=
  if (s.current c).is_idle = false ∧ (s.tcb (s.current c)).stack_bottom ≠ 0 then (s.tcb (s.current c)).stack_bottom
  else (s.core c).rsp0

/-- What every `post_switch` does: the `tss.rsp0` at its start, `enable_preemption` at its end. -/
def switched (s : Threads) (c : Nat) : Threads :=
  (s.modTcb (s.current c) TCB.enable_preemption).modCore c fun x => { x with stage := .run, rsp0 := s.tss_rsp0 c }

/-- `Condition::wait` up to the release of the lock. -/
def release (s : Threads) (c k : Nat) (t : Tid) : Threads :=
  ((s.modTcb t fun x =>
    { x.disable_preemption with
      cond_epoch := (s.cond k).epoch, inside := some k, captured := (s.cond k).notes,
        waits := x.waits + 1 }).setHolder k
    none).setStage c .released

/-- `Condition::wait` goes on without a switch. -/
def wait_none (s : Threads) (c : Nat) : Threads := (s.modTcb (s.current c) TCB.enable_preemption).setStage c .run

/-- `Condition::wait` goes on with thread `n`, which `readyQueue.remove()` took away. -/
def wait_remove (s : Threads) (c k n : Nat) (rest : List Nat) : Threads :=
  ((s.setReady rest).modTcb (s.current c) fun x => { x with action := .wait, cond := k }).setStage c
    (.picked (.thread n))

/-- The deferred part of `wait`, for thread `p`. -/
def park (s : Threads) (k p : Nat) : Threads := s.modCond k fun x => { x with waiting := x.waiting ++ [p] }

/-- The first line of `event_loop`. -/
def start_loop (s : Threads) (c : Nat) : Threads :=
  (s.modTcb (.idle c) TCB.disable_preemption).modCore c fun x => { x with looping := true }

/-- The section of a notification, which takes the threads `l` and leaves `rest`. -/
def notify (s : Threads) (c k : Nat) (l rest : List Nat) : Threads :=
  (s.modCond k fun x => x.notify rest).setStage c (.adding l)

/-- `TCB::alloc` on behalf of `t`. -/
def alloc (s : Threads) (t : Tid) (n : Nat) (counted : Bool) : Threads :=
  ((s.modTcb (.thread n) TCB.alloc).setAlive n true).setMaking t (.made n counted)

def STACK_BYTES : Nat := 8 * 2048

/-- `new uintptr_t[STACK_QUADS]` returned `a`, for thread `n`. -/
def make_stack (s : Threads) (n a : Nat) : Threads :=
  (s.modTcb (.thread n) fun x => { x with the_stack := a, stack_bottom := a + STACK_BYTES }).setStack n (some a)

/-- What `new` gives overlaps no stack that is allocated. -/
def FreshStack (s : Threads) (a : Nat) : Prop :=
  a ≠ 0 ∧ ∀ n b, s.stack n = some b → a + STACK_BYTES ≤ b ∨ b + STACK_BYTES ≤ a

/-- `t` sets the `saved_rsp` of the new thread `n`, and adds it to the ready queue. -/
def publish (s : Threads) (t : Tid) (n : Nat) : Threads :=
  ((s.modTcb (.thread n) fun x => { x with saved := true }).ready n).setMaking t .none

/-- Thread `n` goes to user mode, with `rsp` in `tss.rsp0`. -/
def sysret (s : Threads) (c n rsp : Nat) : Threads :=
  (s.modTcb (.thread n) fun x => { x with entered := none }).modCore c fun x => { x with user := true, rsp0 := rsp }

/-- Thread `n` enters the kernel, on the stack that `tss.rsp0` is the bottom of. -/
def syscall (s : Threads) (c n : Nat) : Threads :=
  (s.modTcb (.thread n) fun x => { x with entered := some (s.core c).rsp0 }).modCore c fun x => { x with user := false }

/-- Thread `t` runs in the kernel on core `c`, and is in no call that switches threads or wakes them. -/
structure Runs (s : Threads) (c : Nat) (t : Tid) : Prop where
  current : s.current c = t
  user : (s.core c).user = false
  stage : s.stage c = .run
  inside : s.inside t = none

/-- Nor is it in `make_thread`, in a `fork` that has a new TCB, or in `reap`. -/
structure Clear (s : Threads) (c : Nat) (t : Tid) : Prop extends Runs s c t where
  making : s.making t = .none
  reaping : s.reaping t = .none

end Threads

/-! ## Steps -/

inductive Op where
  | event_loop
  | lock (k : Nat)
  | unlock (k : Nat)
  | wait (k : Nat)
  | wait_none
  | wait_remove
  | relock
  | yield
  | stop
  | loop
  | switch
  | post
  | requeue
  | notify_one (k : Nat)
  | notify_all (k : Nat)
  | add
  | added
  | make_thread
  | make_alloc (n : Nat)
  | fork_alloc (n : Nat)
  | make_stack (a : Nat)
  | fork_count
  | publish
  | take
  | free_stack
  | dealloc
  | reaped
  | sysret
  | fork_return
  | syscall
deriving DecidableEq

/--
A label is the core that takes the step, and what it does. The `wait` of an idle thread is `unlock` and then
`lock`. `make_thread` is its `add_fetch`, and `reaped` is the `sub_fetch` in `reap`.
-/
inductive ThreadStep : Threads → Nat × Op → Threads → Prop where
  | event_loop {s : Threads} {c : Nat} : s.Runs c (.idle c) → (s.core c).looping = false →
      ThreadStep s (c, .event_loop) (s.start_loop c)
  | lock {s : Threads} {c k : Nat} {t : Tid} : s.Runs c t → (s.cond k).holder = none →
      ThreadStep s (c, .lock k) (s.setHolder k (some t))
  | unlock {s : Threads} {c k : Nat} {t : Tid} : s.Runs c t → (s.cond k).holder = some t →
      ThreadStep s (c, .unlock k) (s.setHolder k none)
  | wait {s : Threads} {c k n : Nat} : s.Runs c (.thread n) → (s.cond k).holder = some (.thread n) →
      ThreadStep s (c, .wait k) (s.release c k (.thread n))
  /-- `wait` found the ready queue empty. -/
  | wait_none {s : Threads} {c : Nat} : s.stage c = .released → s.readyQueue = [] → 0 < s.count (s.current c) →
      ThreadStep s (c, .wait_none) (s.wait_none c)
  | wait_remove {s : Threads} {c k n : Nat} {rest : List Nat} : s.stage c = .released →
      s.inside (s.current c) = some k → s.readyQueue = n :: rest →
      ThreadStep s (c, .wait_remove) (s.wait_remove c k n rest)
  /-- `wait` returns. -/
  | relock {s : Threads} {c k : Nat} : s.stage c = .run → s.inside (s.current c) = some k → (s.cond k).holder = none →
      ThreadStep s (c, .relock) ((s.setHolder k (some (s.current c))).setInside (s.current c) none)
  | yield_none {s : Threads} {c n : Nat} : s.Clear c (.thread n) → s.readyQueue = [] → ThreadStep s (c, .yield) s
  | yield {s : Threads} {c n m : Nat} {rest : List Nat} : s.Clear c (.thread n) → s.readyQueue = m :: rest →
      ThreadStep s (c, .yield) (s.pick c (.thread n) .ready (.thread m) rest)
  | stop {s : Threads} {c n m : Nat} {rest : List Nat} : s.Clear c (.thread n) → s.readyQueue = m :: rest →
      ThreadStep s (c, .stop) (s.pick c (.thread n) .stop (.thread m) rest)
  | stop_idle {s : Threads} {c n : Nat} : s.Clear c (.thread n) → s.readyQueue = [] →
      ThreadStep s (c, .stop) (s.pick c (.thread n) .stop (.idle c) [])
  /-- `event_loop` after its `reap`. -/
  | loop {s : Threads} {c m : Nat} {rest : List Nat} : s.Clear c (.idle c) → (s.core c).looping = true →
      s.readyQueue = m :: rest → ThreadStep s (c, .loop) (s.pick c (.idle c) .none (.thread m) rest)
  | switch {s : Threads} {c : Nat} {next : Tid} : s.stage c = .picked next →
      ThreadStep s (c, .switch) (s.context_switch c next)
  | post_ready {s : Threads} {c p : Nat} : s.stage c = .post (.thread p) → (s.tcb (.thread p)).action = .ready →
      0 < s.count (s.current c) → ThreadStep s (c, .post) ((s.ready p).switched c)
  | post_stop {s : Threads} {c p : Nat} : s.stage c = .post (.thread p) → (s.tcb (.thread p)).action = .stop →
      0 < s.count (s.current c) → ThreadStep s (c, .post) ((s.setReaper (s.reaperQueue ++ [p])).switched c)
  | post_none {s : Threads} {c : Nat} {prev : Tid} : s.stage c = .post prev → (s.tcb prev).action = .none →
      0 < s.count (s.current c) → ThreadStep s (c, .post) (s.switched c)
  /-- The epoch is the one that the thread saw. -/
  | post_wait {s : Threads} {c p k : Nat} : s.stage c = .post (.thread p) → (s.tcb (.thread p)).action = .wait →
      (s.tcb (.thread p)).cond = k → (s.cond k).holder = none → (s.cond k).epoch = (s.tcb (.thread p)).cond_epoch →
      0 < s.count (s.current c) →
      ThreadStep s (c, .post) ((s.park k p).switched c)
  | post_again {s : Threads} {c p k : Nat} : s.stage c = .post (.thread p) → (s.tcb (.thread p)).action = .wait →
      (s.tcb (.thread p)).cond = k → (s.cond k).holder = none → (s.cond k).epoch ≠ (s.tcb (.thread p)).cond_epoch →
      ThreadStep s (c, .post) (s.setStage c (.requeue p))
  | requeue {s : Threads} {c p : Nat} : s.stage c = .requeue p → 0 < s.count (s.current c) →
      ThreadStep s (c, .requeue) ((s.ready p).switched c)
  | notify_one {s : Threads} {c k : Nat} {t : Tid} : s.Runs c t → (s.cond k).holder = some t →
      ThreadStep s (c, .notify_one k) (s.notify c k (s.cond k).waiting.head?.toList (s.cond k).waiting.tail)
  | notify_all {s : Threads} {c k : Nat} {t : Tid} : s.Runs c t → (s.cond k).holder = some t →
      ThreadStep s (c, .notify_all k) (s.notify c k (s.cond k).waiting [])
  | add {s : Threads} {c n : Nat} {l : List Nat} : s.stage c = .adding (n :: l) →
      ThreadStep s (c, .add) ((s.ready n).setStage c (.adding l))
  | added {s : Threads} {c : Nat} : s.stage c = .adding [] → ThreadStep s (c, .added) (s.setStage c .run)
  | make_thread {s : Threads} {c : Nat} {t : Tid} : s.Clear c t →
      ThreadStep s (c, .make_thread) ((s.setMaking t .counted).setActive (s.n_active + 1))
  | make_alloc {s : Threads} {c n : Nat} {t : Tid} : s.Runs c t → s.making t = .counted → s.reaping t = .none →
      s.alive n = false → ThreadStep s (c, .make_alloc n) (s.alloc t n true)
  | fork_alloc {s : Threads} {c n m : Nat} : s.Clear c (.thread m) → s.alive n = false →
      ThreadStep s (c, .fork_alloc n) (s.alloc (.thread m) n false)
  | make_stack {s : Threads} {c n a : Nat} {t : Tid} {counted : Bool} : s.Runs c t → s.making t = .made n counted →
      (s.tcb (.thread n)).the_stack = 0 → s.FreshStack a → ThreadStep s (c, .make_stack a) (s.make_stack n a)
  | fork_count {s : Threads} {c n : Nat} {t : Tid} : s.Runs c t → s.making t = .made n false →
      (s.tcb (.thread n)).the_stack ≠ 0 →
      ThreadStep s (c, .fork_count) ((s.setMaking t (.made n true)).setActive (s.n_active + 1))
  | publish {s : Threads} {c n : Nat} {t : Tid} : s.Runs c t → s.making t = .made n true →
      (s.tcb (.thread n)).the_stack ≠ 0 → ThreadStep s (c, .publish) (s.publish t n)
  | take {s : Threads} {c n : Nat} {t : Tid} {rest : List Nat} : s.Runs c t → s.reaping t = .none →
      s.reaperQueue = n :: rest → ThreadStep s (c, .take) ((s.setReaper rest).setReaping t (.taken n))
  /-- `delete[] tcb->the_stack`. -/
  | free_stack {s : Threads} {c n : Nat} {t : Tid} : s.Runs c t → s.reaping t = .taken n →
      ThreadStep s (c, .free_stack) ((s.setStack n none).setReaping t (.unstacked n))
  | dealloc {s : Threads} {c n : Nat} {t : Tid} : s.Runs c t → s.reaping t = .unstacked n →
      ThreadStep s (c, .dealloc) ((s.setAlive n false).setReaping t .freed)
  | reaped {s : Threads} {c : Nat} {t : Tid} : s.Runs c t → s.reaping t = .freed →
      ThreadStep s (c, .reaped) ((s.setReaping t .none).setActive (s.n_active - 1))
  /-- The end of `syscallHandler_`, and `switch_to_user`. -/
  | sysret {s : Threads} {c n : Nat} : s.Clear c (.thread n) → ThreadStep s (c, .sysret) (s.sysret c n (s.core c).rsp0)
  /-- The end of `fork_child_entry`. -/
  | fork_return {s : Threads} {c n : Nat} : s.Clear c (.thread n) →
      ThreadStep s (c, .fork_return) (s.sysret c n (s.tcb (.thread n)).stack_bottom)
  | syscall {s : Threads} {c n : Nat} : s.current c = .thread n → (s.core c).user = true →
      ThreadStep s (c, .syscall) (s.syscall c n)

/-- Every core runs its idle thread, and there is no other. -/
structure Booted (s : Threads) : Prop where
  core : ∀ c, s.core c = { current := .idle c, stage := .run, rsp0 := 0, user := false, looping := false }
  cond : ∀ k, s.cond k = { waiting := [], epoch := 0, holder := none, notes := 0 }
  count : ∀ c, s.count (.idle c) = 1
  tcb : ∀ t, s.inside t = none ∧ s.making t = .none ∧ s.reaping t = .none ∧ (s.tcb t).entered = none
  readyQueue : s.readyQueue = []
  reaperQueue : s.reaperQueue = []
  n_active : s.n_active = 0
  alive : ∀ n, s.alive n = false ∧ s.stack n = none

def threadSystem : System Threads (Nat × Op) where
  init := Booted
  step := ThreadStep

end Kernel.Thread
