import Kernel.Lib.Chain
import Kernel.Lib.Program
import Kernel.Lib.Transition

/-!
# Queues (`queue.h`)

Any number of queues, of nodes that link to each other. What a queue's lock
protects is one step. The first test of `remove` is not protected; a section
writes `first` at most once, so the test sees it as before or as after one.
-/

namespace Kernel.Queue

open Lib

/-- The members of a `Queue`. -/
structure Members (α : Type) where
  first : Option α
  last : Option α
  size_count : BitVec 64

structure Memory (ι α : Type) where
  queue : ι → Members α
  /-- The `next` fields of the nodes. -/
  next : α → Option α

section

variable {ι α : Type} [DecidableEq ι]

abbrev Q (ι α β : Type) := Prog (Memory ι α) β

def Memory.setFirst (m : Memory ι α) (q : ι) (p : Option α) : Memory ι α :=
  { m with queue := Function.update m.queue q { m.queue q with first := p } }

def Memory.setLast (m : Memory ι α) (q : ι) (p : Option α) : Memory ι α :=
  { m with queue := Function.update m.queue q { m.queue q with last := p } }

def Memory.setSize (m : Memory ι α) (q : ι) (n : BitVec 64) : Memory ι α :=
  { m with queue := Function.update m.queue q { m.queue q with size_count := n } }

section

variable (m : Memory ι α) (q : ι) (p : Option α) (n : BitVec 64)

@[simp] theorem Memory.setFirst_next : (m.setFirst q p).next = m.next := rfl
@[simp] theorem Memory.setLast_next : (m.setLast q p).next = m.next := rfl
@[simp] theorem Memory.setSize_next : (m.setSize q n).next = m.next := rfl

@[simp] theorem Memory.setFirst_queue :
    (m.setFirst q p).queue = Function.update m.queue q { m.queue q with first := p } := rfl

@[simp] theorem Memory.setLast_queue :
    (m.setLast q p).queue = Function.update m.queue q { m.queue q with last := p } := rfl

@[simp] theorem Memory.setSize_queue :
    (m.setSize q n).queue = Function.update m.queue q { m.queue q with size_count := n } := rfl

end

variable [DecidableEq α]

/-- `t->next = p`. -/
def Memory.setNext (m : Memory ι α) (t : α) (p : Option α) : Memory ι α :=
  { m with next := Function.update m.next t p }

omit [DecidableEq ι] in
@[simp] theorem Memory.setNext_next (m : Memory ι α) (t : α) (p : Option α) :
    (m.setNext t p).next = Function.update m.next t p := rfl

omit [DecidableEq ι] in
@[simp] theorem Memory.setNext_queue (m : Memory ι α) (t : α) (p : Option α) : (m.setNext t p).queue = m.queue := rfl

/-- The same through a pointer, which may be null. -/
def set_next (t : Option α) (p : Option α) : Q ι α Unit :=
  match t with
  | none => Prog.panic
  | some t => modify fun m => m.setNext t p

/-! ## What the lock protects -/

def add (q : ι) (t : α) : Q ι α Unit := do
  set_next (some t) none
  let m ← get
  if (m.queue q).first = none then modify fun m => m.setFirst q (some t)
  else set_next (m.queue q).last (some t)
  modify fun m => m.setLast q (some t)
  modify fun m => m.setSize q ((m.queue q).size_count + 1)

/-- `remove`, after its first test. -/
def remove_locked (q : ι) : Q ι α (Option α) := do
  let m ← get
  match (m.queue q).first with
  | none => pure none
  | some it => do
    modify fun m => m.setFirst q (m.next it)
    let m ← get
    if (m.queue q).first = none then modify fun m => m.setLast q none else pure ()
    modify fun m => m.setSize q ((m.queue q).size_count - 1)
    pure (some it)

def remove_all (q : ι) : Q ι α (Option α) := do
  let m ← get
  let it := (m.queue q).first
  modify fun m => m.setFirst q none
  modify fun m => m.setLast q none
  modify fun m => m.setSize q 0
  pure it

/-! ## Runs -/

/-- Where a thread is. -/
inductive Phase (ι α : Type) where
  | idle
  /-- In `remove`, after its first test. -/
  | removing (q : ι)
  /-- It has the chain from `p` on, which `remove_all` returned. -/
  | chain (p : Option α)
  /-- In the loop of `notify_all`, which is about to add `p`. -/
  | adding (p : α) (next : Option α)

structure State (ι α : Type) where
  memory : Memory ι α
  phase : Nat → Phase ι α

def State.setPhase (s : State ι α) (t : Nat) (p : Phase ι α) : State ι α :=
  { s with phase := Function.update s.phase t p }

def State.setMemory (s : State ι α) (m : Memory ι α) : State ι α := { s with memory := m }

/-- The node is in no queue, and in no chain that a thread goes through. -/
structure State.Free (s : State ι α) (x : α) : Prop where
  queue : ∀ q, ¬ Links s.memory.next (s.memory.queue q).first x
  chain : ∀ t p, s.phase t = .chain p → ¬ Links s.memory.next p x
  adding : ∀ t p n, s.phase t = .adding p n → x ≠ p ∧ ¬ Links s.memory.next n x

inductive Op (ι α : Type) where
  | add (q : ι) (x : α)
  /-- The first test of `remove`: whether there is a node. -/
  | test (q : ι) (found : Bool)
  /-- The rest of `remove`, and what it returns. -/
  | remove (q : ι) (it : Option α)
  | remove_all (q : ι) (it : Option α)
  /-- `auto next = p->next`. -/
  | read_next (p : α)
  /-- `add(p)` and `p = next`. -/
  | re_add (q : ι) (p : α)
  /-- The end of the loop. -/
  | done

/-- A step of a thread. A `remove` whose first test fails has returned `nullptr`. -/
inductive Step : State ι α → Nat × Op ι α → State ι α → Prop where
  | add {s : State ι α} {t : Nat} {q : ι} {x : α} {m : Memory ι α} : s.phase t = .idle → s.Free x →
      (add q x).run s.memory = some ((), m) → Step s (t, .add q x) (s.setMemory m)
  | test_none {s : State ι α} {t : Nat} {q : ι} : s.phase t = .idle → (s.memory.queue q).first = none →
      Step s (t, .test q false) s
  | test_some {s : State ι α} {t : Nat} {q : ι} : s.phase t = .idle → (s.memory.queue q).first ≠ none →
      Step s (t, .test q true) (s.setPhase t (.removing q))
  | remove {s : State ι α} {t : Nat} {q : ι} {it : Option α} {m : Memory ι α} : s.phase t = .removing q →
      (remove_locked q).run s.memory = some (it, m) → Step s (t, .remove q it) ((s.setMemory m).setPhase t .idle)
  | remove_all {s : State ι α} {t : Nat} {q : ι} {it : Option α} {m : Memory ι α} : s.phase t = .idle →
      (remove_all q).run s.memory = some (it, m) →
      Step s (t, .remove_all q it) ((s.setMemory m).setPhase t (.chain it))
  | read_next {s : State ι α} {t : Nat} {p : α} : s.phase t = .chain (some p) →
      Step s (t, .read_next p) (s.setPhase t (.adding p (s.memory.next p)))
  | re_add {s : State ι α} {t : Nat} {q : ι} {p : α} {n : Option α} {m : Memory ι α} : s.phase t = .adding p n →
      (Queue.add q p).run s.memory = some ((), m) →
      Step s (t, .re_add q p) ((s.setMemory m).setPhase t (.chain n))
  | done {s : State ι α} {t : Nat} : s.phase t = .chain none → Step s (t, .done) (s.setPhase t .idle)

/-- All queues are empty. -/
structure Boot (s : State ι α) : Prop where
  queue : ∀ q, s.memory.queue q = ⟨none, none, 0⟩
  phase : ∀ t, s.phase t = .idle

def queueSystem (ι α : Type) [DecidableEq ι] [DecidableEq α] : System (State ι α) (Nat × Op ι α) where
  init := Boot
  step := Step

end

end Kernel.Queue
