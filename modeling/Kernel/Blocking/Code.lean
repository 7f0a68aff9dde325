import Kernel.Thread.Wakeup
import Mathlib.Logic.Function.Basic

/-!
# Locks and semaphores that block (`blocking_lock.h`, `semaphore.h`)

Both keep a value under a spin lock, wait on a condition while the value is
not to be had, and notify one thread when they give it back. What the spin lock
protects is one step.
-/

namespace Kernel.Blocking

open Lib Kernel.Thread

/-- What the two differ in. -/
structure Kind (V : Type) where
  /-- The condition of the `while`. -/
  blocked : V → Bool
  take : V → V
  give : V → V
  /-- Only a thread that has taken gives. -/
  owned : Bool
  /-- How often the value is to be had. -/
  avail : V → Nat
  blocked_iff : ∀ v, blocked v = true ↔ avail v = 0
  avail_take : ∀ v, blocked v = false → avail (take v) + 1 = avail v
  avail_give : ∀ v, avail (give v) ≤ avail v + 1
  blocked_take : owned = true → ∀ v, blocked (take v) = true

/-- The value is `locked`. That `unlock` finds it set is a fact about the holder. -/
def BlockingLock : Kind Bool where
  blocked locked := locked
  take _ := true
  give _ := false
  owned := true
  avail locked := if locked then 0 else 1
  blocked_iff := by decide
  avail_take := by decide
  avail_give := by decide
  blocked_take := by decide

/-- The value is `count`, a `uint64_t`. -/
def Semaphore : Kind (BitVec 64) where
  blocked count := count == 0
  take count := count - 1
  give count := count + 1
  owned := false
  avail count := count.toNat
  blocked_iff count := by
    rw [beq_iff_eq]
    bv_omega
  avail_take count h := by
    rw [beq_eq_false_iff_ne] at h
    bv_omega
  avail_give count := by bv_omega
  blocked_take h := by cases h

/-- Where a thread is in `lock` and `unlock`, or in `down` and `up`. -/
inductive Phase where
  | none
  /-- Before the spin lock is taken. -/
  | acquire
  /-- Before the test of the `while`, with the spin lock. -/
  | testing
  /-- In `wait`. -/
  | waiting
  /-- On the way to give, before the spin lock is taken. -/
  | release
  | giving
deriving DecidableEq

/-- The spin lock and the condition are number `k` of the threads' conditions. -/
structure Monitor (V : Type) where
  threads : Threads
  value : V
  phase : Tid → Phase
  /-- Ghost: the threads between taking and giving, and how often either was done. -/
  holds : Tid → Bool
  takes : Nat
  gives : Nat

variable {V : Type}

namespace Monitor

def current (m : Monitor V) (c : Nat) : Tid := m.threads.current c

def setPhase (m : Monitor V) (t : Tid) (p : Phase) : Monitor V := { m with phase := Function.update m.phase t p }

def setHolds (m : Monitor V) (t : Tid) (b : Bool) : Monitor V := { m with holds := Function.update m.holds t b }

end Monitor

inductive MonitorOp where
  | call
  | call_give
  | acquire
  | take
  | wait
  | retry
  | relock
  | release
  | give
  | other (o : Op)

/-- The thread that core `c` runs does not use the monitor. -/
structure Foreign (k : Nat) (s : Threads) (c : Nat) (o : Op) : Prop where
  lock : o ≠ .lock k
  unlock : o ≠ .unlock k
  wait : o ≠ .wait k
  notify_one : o ≠ .notify_one k
  notify_all : o ≠ .notify_all k
  relock : o = .relock → s.inside (s.current c) ≠ some k

/-- What a thread does inside of a call: the steps of `wait`, those after `notify_one`, and `yield` when the timer
preempts it. -/
def InCall : Op → Prop
  | .wait_none | .wait_remove | .switch | .post | .requeue | .add | .added | .yield => True
  | _ => False

/-- A label is the core that takes the step, and what it does. -/
inductive MonitorStep (K : Kind V) (k : Nat) : Monitor V → Nat × MonitorOp → Monitor V → Prop where
  /-- Of `lock` or `down`. -/
  | call {m : Monitor V} {c : Nat} {t : Tid} : m.threads.Runs c t → m.phase t = .none →
      MonitorStep K k m (c, .call) (m.setPhase t .acquire)
  /-- Of `unlock` or `up`. -/
  | call_give {m : Monitor V} {c : Nat} {t : Tid} : m.threads.Runs c t → m.phase t = .none →
      (K.owned = true → m.holds t = true) → MonitorStep K k m (c, .call_give) (m.setPhase t .release)
  | acquire {m : Monitor V} {c : Nat} {u : Threads} : m.phase (m.current c) = .acquire →
      ThreadStep m.threads (c, .lock k) u →
      MonitorStep K k m (c, .acquire) ({ m with threads := u }.setPhase (m.current c) .testing)
  | take {m : Monitor V} {c : Nat} {u : Threads} : m.phase (m.current c) = .testing → K.blocked m.value = false →
      ThreadStep m.threads (c, .unlock k) u →
      MonitorStep K k m (c, .take)
        (({ m with threads := u, value := K.take m.value, takes := m.takes + 1 }.setHolds (m.current c) true).setPhase
          (m.current c) .none)
  | wait {m : Monitor V} {c : Nat} {u : Threads} : m.phase (m.current c) = .testing → K.blocked m.value = true →
      ThreadStep m.threads (c, .wait k) u →
      MonitorStep K k m (c, .wait) ({ m with threads := u }.setPhase (m.current c) .waiting)
  /-- The `wait` of an idle thread: `unlock`, then `lock`. -/
  | retry {m : Monitor V} {c : Nat} {u : Threads} : m.phase (m.current c) = .testing → K.blocked m.value = true →
      (m.current c).is_idle = true → ThreadStep m.threads (c, .unlock k) u →
      MonitorStep K k m (c, .retry) ({ m with threads := u }.setPhase (m.current c) .acquire)
  | relock {m : Monitor V} {c : Nat} {u : Threads} : m.phase (m.current c) = .waiting →
      ThreadStep m.threads (c, .relock) u →
      MonitorStep K k m (c, .relock) ({ m with threads := u }.setPhase (m.current c) .testing)
  | release {m : Monitor V} {c : Nat} {u : Threads} : m.phase (m.current c) = .release →
      ThreadStep m.threads (c, .lock k) u →
      MonitorStep K k m (c, .release) ({ m with threads := u }.setPhase (m.current c) .giving)
  /-- With `notify_one`, up to its release of the spin lock. -/
  | give {m : Monitor V} {c : Nat} {u : Threads} : m.phase (m.current c) = .giving →
      ThreadStep m.threads (c, .notify_one k) u →
      MonitorStep K k m (c, .give)
        (({ m with threads := u, value := K.give m.value, gives := m.gives + 1 }.setHolds (m.current c) false).setPhase
          (m.current c) .none)
  | other {m : Monitor V} {c : Nat} {o : Op} {u : Threads} : Foreign k m.threads c o →
      m.phase (m.current c) = .none ∨ InCall o → ThreadStep m.threads (c, o) u →
      MonitorStep K k m (c, .other o) { m with threads := u }

/-- Nobody has called yet. -/
structure New (v : V) (m : Monitor V) : Prop where
  threads : Thread.Booted m.threads
  value : m.value = v
  phase : ∀ t, m.phase t = .none
  holds : ∀ t, m.holds t = false
  takes : m.takes = 0
  gives : m.gives = 0

def monitorSystem (K : Kind V) (k : Nat) (v : V) : System (Monitor V) (Nat × MonitorOp) where
  init := New v
  step := MonitorStep K k

/-- Fewer than `2 ^ 64` notifications came between a thread's `wait` and its `post_switch`. -/
def FewGives (m : Monitor V) : Nat × MonitorOp → Prop
  | (c, .other o) => FewNotes m.threads (c, o)
  | _ => True

end Kernel.Blocking
