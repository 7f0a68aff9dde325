import Kernel.Blocking.Code

/-!
# Barriers, latches and futures (`barrier.h`, `count_down_latch.h`, `future.h`)

All three keep a value under a spin lock, and wait on a condition until the
value is such that nobody has to. The call that makes it so notifies all. What
the spin lock protects is one step.
-/

namespace Kernel.Blocking

open Lib Kernel.Thread

/-- How a call goes on when it has changed the value. -/
inductive After where
  | notify
  | wait
  | unlock

/-- What the three differ in. The calls are of type `C`. -/
structure Gate (V C : Type) where
  /-- The condition of the `while` is that it is not open. -/
  is_open : V → Bool
  /-- What a call makes of the value, and `none` where its `ASSERT` fails. -/
  update : C → V → Option V
  after : C → V → After
  /-- The call makes the value wrap around. -/
  wraps : C → V → Bool
  opens : ∀ call v v', update call v = some v' → wraps call v = false → is_open v = false → is_open v' = true →
    after call v' = .notify

/-- The value is `count`, and the only call is `sync`. -/
def Barrier : Gate (BitVec 64) Unit where
  is_open count := count == 0
  update _ count := some (count - 1)
  after _ count := if count = 0 then .notify else .wait
  wraps _ _ := false
  opens _ _ _ _ _ _ h := if_pos (beq_iff_eq.mp h)

inductive LatchCall where
  | up
  | down
  | sync
deriving DecidableEq

/-- The value is `count`. -/
def CountDownLatch : Gate (BitVec 64) LatchCall where
  is_open count := count == 0
  update call count :=
    match call with
    | .up => some (count + 1)
    | .down => if count ≠ 0 then some (count - 1) else none
    | .sync => some count
  after call count :=
    match call with
    | .up => .unlock
    | .down => if count = 0 then .notify else .unlock
    | .sync => .wait
  wraps call count := call == .up && count + 1 == 0
  opens call count v' hupdate hwraps hclosed hopen := by
    rw [beq_iff_eq] at hopen
    cases call with
    | up =>
      have hv : count + 1 = v' := Option.some.inj hupdate
      rw [hv, hopen] at hwraps
      cases hwraps
    | down => exact if_pos hopen
    | sync =>
      have hv : count = v' := Option.some.inj hupdate
      rw [hv, hopen] at hclosed
      cases hclosed

inductive FutureCall (T : Type) where
  | set (v : T)
  | get

/-- The value is `ready` with `value`. -/
def Future (T : Type) : Gate (Bool × T) (FutureCall T) where
  is_open x := x.1
  update call x :=
    match call with
    | .set v => some (true, v)
    | .get => some x
  after call _ :=
    match call with
    | .set _ => .notify
    | .get => .wait
  wraps _ _ := false
  opens call x x' hupdate _ hclosed hopen := by
    cases call with
    | set v => rfl
    | get =>
      have hx : x = x' := Option.some.inj hupdate
      rw [hx, hopen] at hclosed
      cases hclosed

/-- Where a thread is in a call. -/
inductive GatePhase (C : Type) where
  | none
  /-- Before the spin lock is taken. -/
  | acquire (call : C)
  /-- With the spin lock, before the value is changed. -/
  | entered (call : C)
  /-- Before the test of the `while`, with the spin lock. -/
  | testing
  /-- In `wait`. -/
  | waiting
  /-- In the `wait` of an idle thread, before the spin lock is taken again. -/
  | again
  /-- The spin lock is released. -/
  | leaving

/-- The spin lock and the condition are number `k` of the threads' conditions. -/
structure GateState (V C : Type) where
  threads : Threads
  value : V
  phase : Tid → GatePhase C
  /-- Ghost: the calls that have changed the value, in order. -/
  calls : List (Tid × C)

variable {V C : Type}

namespace GateState

def current (m : GateState V C) (c : Nat) : Tid := m.threads.current c

/-- The thread of core `c` goes on to `p`. -/
def goto (m : GateState V C) (c : Nat) (p : GatePhase C) : GateState V C :=
  { m with phase := Function.update m.phase (m.current c) p }

end GateState

/-- What the thread of core `c` does next under the spin lock, with the value and the calls that it leaves. -/
inductive Decides (K : Gate V C) (m : GateState V C) (c : Nat) : After → V → List (Tid × C) → Prop where
  | update {call : C} {x : After} {v : V} : m.phase (m.current c) = .entered call → K.update call m.value = some v →
      K.after call v = x → Decides K m c x v (m.calls ++ [(m.current c, call)])
  | test : m.phase (m.current c) = .testing → Decides K m c .wait m.value m.calls

inductive GateOp (V C : Type) where
  | call (call : C)
  | acquire
  | notify
  | unlock
  | pass
  | wait
  | retry
  | relock
  | lock_again
  /-- The call returns, and `value` is what it was. -/
  | ret (v : V)
  | other (o : Op)

/-- A label is the core that takes the step, and what it does. -/
inductive GateStep (K : Gate V C) (k : Nat) : GateState V C → Nat × GateOp V C → GateState V C → Prop where
  | call {m : GateState V C} {c : Nat} {x : C} : m.threads.Runs c (m.current c) → m.phase (m.current c) = .none →
      GateStep K k m (c, .call x) (m.goto c (.acquire x))
  | acquire {m : GateState V C} {c : Nat} {call : C} {u : Threads} : m.phase (m.current c) = .acquire call →
      ThreadStep m.threads (c, .lock k) u →
      GateStep K k m (c, .acquire) { m.goto c (.entered call) with threads := u }
  | notify {m : GateState V C} {c : Nat} {v : V} {l : List (Tid × C)} {u : Threads} : Decides K m c .notify v l →
      ThreadStep m.threads (c, .notify_all k) u →
      GateStep K k m (c, .notify) { m.goto c .leaving with threads := u, value := v, calls := l }
  | unlock {m : GateState V C} {c : Nat} {v : V} {l : List (Tid × C)} {u : Threads} : Decides K m c .unlock v l →
      ThreadStep m.threads (c, .unlock k) u →
      GateStep K k m (c, .unlock) { m.goto c .leaving with threads := u, value := v, calls := l }
  /-- The `while` ends. -/
  | pass {m : GateState V C} {c : Nat} {v : V} {l : List (Tid × C)} {u : Threads} : Decides K m c .wait v l →
      K.is_open v = true → ThreadStep m.threads (c, .unlock k) u →
      GateStep K k m (c, .pass) { m.goto c .leaving with threads := u, value := v, calls := l }
  | wait {m : GateState V C} {c : Nat} {v : V} {l : List (Tid × C)} {u : Threads} : Decides K m c .wait v l →
      K.is_open v = false → ThreadStep m.threads (c, .wait k) u →
      GateStep K k m (c, .wait) { m.goto c .waiting with threads := u, value := v, calls := l }
  /-- The `wait` of an idle thread: `unlock`, then `lock`. -/
  | retry {m : GateState V C} {c : Nat} {v : V} {l : List (Tid × C)} {u : Threads} : Decides K m c .wait v l →
      K.is_open v = false → (m.current c).is_idle = true → ThreadStep m.threads (c, .unlock k) u →
      GateStep K k m (c, .retry) { m.goto c .again with threads := u, value := v, calls := l }
  | relock {m : GateState V C} {c : Nat} {u : Threads} : m.phase (m.current c) = .waiting →
      ThreadStep m.threads (c, .relock) u →
      GateStep K k m (c, .relock) { m.goto c .testing with threads := u }
  | lock_again {m : GateState V C} {c : Nat} {u : Threads} : m.phase (m.current c) = .again →
      ThreadStep m.threads (c, .lock k) u →
      GateStep K k m (c, .lock_again) { m.goto c .testing with threads := u }
  | ret {m : GateState V C} {c : Nat} : m.threads.Runs c (m.current c) → m.phase (m.current c) = .leaving →
      GateStep K k m (c, .ret m.value) (m.goto c .none)
  | other {m : GateState V C} {c : Nat} {o : Op} {u : Threads} : Foreign k m.threads c o →
      m.phase (m.current c) = .none ∨ InCall o → ThreadStep m.threads (c, o) u →
      GateStep K k m (c, .other o) { m with threads := u }

/-- Nobody has called yet. -/
structure NewGate (v : V) (m : GateState V C) : Prop where
  threads : Thread.Booted m.threads
  value : m.value = v
  phase : ∀ t, m.phase t = .none
  calls : m.calls = []

def gateSystem (K : Gate V C) (k : Nat) (v : V) : System (GateState V C) (Nat × GateOp V C) where
  init := NewGate v
  step := GateStep K k

/-- No count wraps around, and no thread misses `2 ^ 64` notifications between its `wait` and its `post_switch`. -/
def FewCalls (K : Gate V C) (m : GateState V C) : Nat × GateOp V C → Prop
  | (c, .other o) => FewNotes m.threads (c, o)
  | (c, _) => ∀ call, m.phase (m.current c) = .entered call → K.wraps call m.value = false

end Kernel.Blocking
