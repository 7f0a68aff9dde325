import Kernel.Lib.Mutex
import Mathlib.Data.BitVec
import Mathlib.Logic.Function.Basic

/-!
# Spin locks (`spin_lock.cc`, `atomic.h`)

Any number of cores and locks. Each access of a core to memory, and to its
interrupt flag, is a step. A core goes on only when it wants to, so the order of
the steps is any.
-/

namespace Kernel.Spin

open Lib

structure SpinLock where
  taken : Bool
  start : BitVec 64
  count_it : Bool
  was_disabled : Bool

/-- Where a core is in `lock`, `tryLock` and `unlock`, with the local variables it still needs. Each is named after what
comes next. -/
inductive Pc where
  /-- In neither. -/
  | out
  | disable (l : Nat)
  | exchange (l : Nat) (was : Bool)
  | set_was_disabled (l : Nat) (was : Bool)
  | set_start (l : Nat)
  /-- `tryLock` has failed. -/
  | restore_failed (l : Nat) (was : Bool)
  | get_count_it (l : Nat)
  | set_count_it (l : Nat) (c : Bool)
  | get_start (l : Nat) (c : Bool)
  | rdtsc (l : Nat) (c : Bool) (s : BitVec 64)
  | get_was_disabled (l : Nat) (c : Bool) (elapsed : BitVec 64)
  | set_taken (l : Nat) (c : Bool) (elapsed : BitVec 64) (was : Bool)
  | restore (c : Bool) (elapsed : BitVec 64) (was : Bool)
  | add_total (elapsed : BitVec 64)
  | add_count (elapsed : BitVec 64)
  /-- The loop of `AtomicMax::update`. -/
  | get_max (v : BitVec 64)
  | compare_exchange (v old : BitVec 64)

structure Spins where
  lock : Nat → SpinLock
  pc : Nat → Pc
  /-- The interrupt flag, the other way round. -/
  disabled : Nat → Bool
  total_critical_section_cycles : BitVec 64
  critical_section_count : BitVec 64
  max_critical_section_cycles : BitVec 64
  /-- Ghost: the locks of a core, the last one first, each with the flag at the call of `lock`. -/
  held : Nat → List (Nat × Bool)
  /-- Ghost: the flag that the core has set outside of all locks. -/
  base : Nat → Bool
  /-- Ghost: the cycles of the critical sections that count. -/
  sections : List (BitVec 64)

namespace Spins

def goto (s : Spins) (c : Nat) (p : Pc) : Spins := { s with pc := Function.update s.pc c p }

def setDisabled (s : Spins) (c : Nat) (b : Bool) : Spins := { s with disabled := Function.update s.disabled c b }

/-- `restore(was)`. -/
def restore (s : Spins) (c : Nat) (was : Bool) : Spins :=
  { s with disabled := if was then s.disabled else Function.update s.disabled c false }

def setHeld (s : Spins) (c : Nat) (l : List (Nat × Bool)) : Spins := { s with held := Function.update s.held c l }

def modLock (s : Spins) (l : Nat) (f : SpinLock → SpinLock) : Spins :=
  { s with lock := Function.update s.lock l (f (s.lock l)) }

end Spins

/-- What only the core itself can see. -/
inductive Silent : Spins → Nat → Spins → Prop where
  /-- `disable` and `restore` outside of all locks. -/
  | set_flag {s : Spins} {c : Nat} {b : Bool} : s.pc c = .out → s.held c = [] →
      Silent s c { s.setDisabled c b with base := Function.update s.base c b }
  | lock {s : Spins} {c l : Nat} : s.pc c = .out → Silent s c (s.goto c (.disable l))
  | disable {s : Spins} {c l : Nat} : s.pc c = .disable l →
      Silent s c ((s.goto c (.exchange l (s.disabled c))).setDisabled c true)
  | exchange_failed {s : Spins} {c l : Nat} {was : Bool} : s.pc c = .exchange l was → (s.lock l).taken = true →
      Silent s c (s.goto c (.restore_failed l was))
  /-- `lock` calls `tryLock` again. -/
  | restore_failed {s : Spins} {c l : Nat} {was : Bool} : s.pc c = .restore_failed l was →
      Silent s c ((s.goto c (.disable l)).restore c was)
  /-- It was a call of `tryLock` alone. -/
  | try_failed {s : Spins} {c l : Nat} {was : Bool} : s.pc c = .restore_failed l was →
      Silent s c ((s.goto c .out).restore c was)
  | set_was_disabled {s : Spins} {c l : Nat} {was : Bool} : s.pc c = .set_was_disabled l was →
      Silent s c ((s.goto c (.set_start l)).modLock l fun x => { x with was_disabled := was })
  | set_start {s : Spins} {c l : Nat} {t : BitVec 64} : s.pc c = .set_start l →
      Silent s c ((s.goto c .out).modLock l fun x => { x with start := t })
  /-- A core gives back only a lock that it has. -/
  | unlock {s : Spins} {c l : Nat} : s.pc c = .out → l ∈ (s.held c).map Prod.fst →
      Silent s c (s.goto c (.get_count_it l))
  | get_count_it {s : Spins} {c l : Nat} : s.pc c = .get_count_it l →
      Silent s c (s.goto c (.set_count_it l (s.lock l).count_it))
  | set_count_it {s : Spins} {c l : Nat} {b : Bool} : s.pc c = .set_count_it l b →
      Silent s c ((s.goto c (.get_start l b)).modLock l fun x => { x with count_it := true })
  | get_start {s : Spins} {c l : Nat} {b : Bool} : s.pc c = .get_start l b →
      Silent s c (s.goto c (.rdtsc l b (s.lock l).start))
  | rdtsc {s : Spins} {c l : Nat} {b : Bool} {start t : BitVec 64} : s.pc c = .rdtsc l b start →
      Silent s c (s.goto c (.get_was_disabled l b (t - start)))
  | get_was_disabled {s : Spins} {c l : Nat} {b : Bool} {elapsed : BitVec 64} : s.pc c = .get_was_disabled l b elapsed →
      Silent s c (s.goto c (.set_taken l b elapsed (s.lock l).was_disabled))
  | restore {s : Spins} {c : Nat} {b was : Bool} {elapsed : BitVec 64} : s.pc c = .restore b elapsed was →
      Silent s c ((s.goto c (if b then .add_total elapsed else .out)).restore c was)
  | add_total {s : Spins} {c : Nat} {elapsed : BitVec 64} : s.pc c = .add_total elapsed →
      Silent s c { s.goto c (.add_count elapsed) with
        total_critical_section_cycles := s.total_critical_section_cycles + elapsed }
  | add_count {s : Spins} {c : Nat} {elapsed : BitVec 64} : s.pc c = .add_count elapsed →
      Silent s c { s.goto c (.get_max elapsed) with critical_section_count := s.critical_section_count + 1 }
  | get_max {s : Spins} {c : Nat} {v : BitVec 64} : s.pc c = .get_max v →
      Silent s c (s.goto c (if v ≤ s.max_critical_section_cycles then .out
        else .compare_exchange v s.max_critical_section_cycles))
  | compare_exchange {s : Spins} {c : Nat} {v old : BitVec 64} : s.pc c = .compare_exchange v old →
      s.max_critical_section_cycles = old → Silent s c { s.goto c .out with max_critical_section_cycles := v }
  | compare_failed {s : Spins} {c : Nat} {v old : BitVec 64} : s.pc c = .compare_exchange v old →
      s.max_critical_section_cycles ≠ old → Silent s c (s.goto c (.get_max v))

/-- A label is the core that takes the step, and what it does to a lock. -/
inductive SpinStep : Spins → Nat × LockOp Nat → Spins → Prop where
  /-- `taken.exchange(true)` finds `false`. -/
  | acquire {s : Spins} {c l : Nat} {was : Bool} : s.pc c = .exchange l was → (s.lock l).taken = false →
      SpinStep s (c, .acquire l) (((s.goto c (.set_was_disabled l was)).modLock l fun x =>
        { x with taken := true }).setHeld c ((l, was) :: s.held c))
  /-- `taken.set(false)`. -/
  | release {s : Spins} {c l : Nat} {b was : Bool} {elapsed : BitVec 64} : s.pc c = .set_taken l b elapsed was →
      SpinStep s (c, .release l) { ((s.goto c (.restore b elapsed was)).modLock l fun x =>
        { x with taken := false }).setHeld c ((s.held c).filter fun a => a.1 ≠ l) with
        sections := if b then s.sections ++ [elapsed] else s.sections }
  | internal {s t : Spins} {c : Nat} : Silent s c t → SpinStep s (c, .internal) t

/-- No lock was ever taken. -/
structure Free (s : Spins) : Prop where
  lock : ∀ l, s.lock l = ⟨false, 0, false, false⟩
  pc : ∀ c, s.pc c = .out
  disabled : ∀ c, s.disabled c = s.base c
  held : ∀ c, s.held c = []
  total_critical_section_cycles : s.total_critical_section_cycles = 0
  critical_section_count : s.critical_section_count = 0
  max_critical_section_cycles : s.max_critical_section_cycles = 0
  sections : s.sections = []

def spinSystem : System Spins (Nat × LockOp Nat) where
  init := Free
  step := SpinStep

end Kernel.Spin
