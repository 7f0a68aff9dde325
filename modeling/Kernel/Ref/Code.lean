import Kernel.Lib.Tally
import Kernel.Lib.Transition

/-!
# Reference counts (`shared.h`)

Any number of calls work on reference variables at once. The sections that a
`Middle`'s lock protects are single steps, and so is each `delete` after them.
-/

namespace Kernel

open Lib

/-! ## `impl::Middle` -/

/-- A count stays far below 2^64: a reference takes eight bytes. -/
structure Middle where
  ptr : Option Nat
  strong_count : Nat
  weak_count : Nat

/-- The section of `Middle::add_strong`, and whether it returns `m`. -/
def Middle.add_strong (m : Middle) : Middle × Bool :=
  if m.strong_count > 0 then ({ m with strong_count := m.strong_count + 1 }, true) else (m, false)

/-- The section of `Middle::remove_strong`, with `del_ptr` and `delete_m`. `none` is the failed `ASSERT`. -/
def Middle.remove_strong (m : Middle) : Option (Middle × Option Nat × Bool) :=
  if m.strong_count > 0 then
    let m := { m with strong_count := m.strong_count - 1 }
    if m.strong_count = 0 then some ({ m with ptr := none }, m.ptr, m.weak_count = 0) else some (m, none, false)
  else none

/-- The section of `Middle::add_weak`. -/
def Middle.add_weak (m : Middle) : Middle × Bool :=
  if m.ptr = none then (m, false) else ({ m with weak_count := m.weak_count + 1 }, true)

/-- The section of `Middle::remove_weak`, with `delete_m`. -/
def Middle.remove_weak (m : Middle) : Option (Middle × Bool) :=
  if m.weak_count > 0 then
    let m := { m with weak_count := m.weak_count - 1 }
    some (m, m.weak_count = 0 ∧ m.strong_count = 0)
  else none

/-! ## Variables and calls -/

inductive Ref where
  | strong (i : Nat)
  | weak (i : Nat)
  | unique (i : Nat)
deriving DecidableEq

def Ref.shared : Ref → Prop
  | strong _ | weak _ => True
  | unique _ => False

inductive RefVar where
  | none
  | null
  /-- `middle`, or the `ptr` of a `UniqueRef`. -/
  | ref (m : Nat)
  /-- The same address, which is no longer counted or is about to be deleted. -/
  | stale (m : Nat)
deriving DecidableEq

/-- How far a call is. `ends` is for the destructor, which leaves no variable. -/
inductive Call where
  | idle
  /-- It has read `other.middle`, for a new variable, and not taken the lock. -/
  | add_strong (i : Nat) (other : Ref) (m : Nat)
  | add_weak (i : Nat) (other : Ref) (m : Nat)
  | remove_strong (i m : Nat) (ends : Bool)
  | remove_weak (i m : Nat) (ends : Bool)
  /-- What is left to delete before `v` is null or ends. -/
  | after (v : Ref) (del_ptr delete_m : Option Nat) (ends : Bool)

/-- The variable that the call makes or changes. -/
def Call.writes : Call → Ref → Prop
  | idle, _ => False
  | add_strong i _ _, v | remove_strong i _ _, v => v = .strong i
  | add_weak i _ _, v | remove_weak i _ _, v => v = .weak i
  | after w _ _ _, v => v = w

def Call.reads : Call → Ref → Prop
  | add_strong _ other _, v | add_weak _ other _, v => v = other
  | _, _ => False

def Call.locks : Call → Nat → Prop
  | add_strong _ _ m, n | add_weak _ _ m, n | remove_strong _ m _, n | remove_weak _ m _, n => n = m
  | _, _ => False

/-- The object, and the `Middle`, that the call is about to delete. -/
def Call.deletes : Call → Nat → Prop
  | after _ del_ptr _ _, o => del_ptr = some o
  | _, _ => False

def Call.frees : Call → Nat → Prop
  | after _ _ delete_m _, m => delete_m = some m
  | _, _ => False

structure Refs where
  middle : Nat → Middle
  /-- The next `Middle`. Numbers are not used again. -/
  next : Nat
  var : Ref → RefVar
  call : Nat → Call
  /-- Ghost: the object that a `Middle` was made for, how often an object and a `Middle` were deleted, and the objects
  that constructors were given. -/
  object : Nat → Nat
  deleted : Nat → Nat
  freed : Nat → Nat
  given : Nat → Bool

namespace Refs

def put (s : Refs) (v : Ref) (x : RefVar) : Refs := { s with var := fun w => if w = v then x else s.var w }

def enter (s : Refs) (k : Nat) (c : Call) : Refs := { s with call := fun l => if l = k then c else s.call l }

def setMiddle (s : Refs) (m : Nat) (x : Middle) : Refs := { s with middle := fun n => if n = m then x else s.middle n }

def give (s : Refs) (o : Nat) : Refs := { s with given := fun p => if p = o then true else s.given p }

/-- `new M(ptr)`, for variable `i`. -/
def make (s : Refs) (i o : Nat) : Refs :=
  { ((s.setMiddle s.next ⟨some o, 1, 0⟩).put (.strong i) (.ref s.next)) with
    next := s.next + 1
    object := fun m => if m = s.next then o else s.object m }

/-- No call makes or changes `v`. -/
def Quiet (s : Refs) (v : Ref) : Prop := ∀ k, ¬ (s.call k).writes v

/-- There is room for a variable. -/
def Room (s : Refs) (v : Ref) : Prop := s.var v = .none ∧ s.Quiet v

end Refs

/-- The variable after the call. -/
def slotAfter (ends : Bool) : RefVar := if ends then .none else .null

/-! ## Steps -/

inductive RefOp where
  | null (v : Ref)
  | strong_ptr (i o : Nat)
  | weak_ptr (k i o : Nat)
  | unique_ptr (i o : Nat)
  | strong_copy (k i : Nat) (other : Ref)
  | weak_copy (k i : Nat) (other : Ref)
  | strong_unique (i j : Nat)
  | weak_unique (k i j : Nat)
  | unique_unique (i j : Nat)
  | drop (k : Nat) (v : Ref) (ends : Bool)
  | lock (k : Nat)
  | delete_object (k : Nat)
  | delete_middle (k : Nat)
  | finish (k : Nat)

/--
`null` is every constructor that makes a null reference: without an argument, from a null pointer or
reference, and of a `UniqueRef` from a shared one. `drop` is the destructor or the assignment of null.
No two calls change one variable.
-/
inductive RefStep : Refs → RefOp → Refs → Prop where
  | null {s : Refs} {v : Ref} : s.Room v → RefStep s (.null v) (s.put v .null)
  | strong_ptr {s : Refs} {i o : Nat} : s.Room (.strong i) → RefStep s (.strong_ptr i o) ((s.give o).make i o)
  | weak_ptr {s : Refs} {k i o : Nat} : s.Room (.weak i) → s.call k = .idle →
      RefStep s (.weak_ptr k i o) ((s.give o).enter k (.after (.weak i) (some o) none false))
  | unique_ptr {s : Refs} {i o : Nat} : s.Room (.unique i) →
      RefStep s (.unique_ptr i o) ((s.give o).put (.unique i) (.ref o))
  | strong_copy {s : Refs} {k i m : Nat} {other : Ref} : s.Room (.strong i) → s.call k = .idle → other.shared →
      s.var other = .ref m ∨ s.var other = .stale m →
      RefStep s (.strong_copy k i other) (s.enter k (.add_strong i other m))
  | weak_copy {s : Refs} {k i m : Nat} {other : Ref} : s.Room (.weak i) → s.call k = .idle → other.shared →
      s.var other = .ref m ∨ s.var other = .stale m →
      RefStep s (.weak_copy k i other) (s.enter k (.add_weak i other m))
  | strong_unique {s : Refs} {i j o : Nat} : s.Room (.strong i) → s.Quiet (.unique j) → s.var (.unique j) = .ref o →
      RefStep s (.strong_unique i j) ((s.make i o).put (.unique j) .null)
  | weak_unique {s : Refs} {k i j o : Nat} : s.Room (.weak i) → s.call k = .idle → s.Quiet (.unique j) →
      s.var (.unique j) = .ref o →
      RefStep s (.weak_unique k i j)
        (((s.put (.weak i) .null).put (.unique j) (.stale o)).enter k (.after (.unique j) (some o) none false))
  | unique_unique {s : Refs} {i j o : Nat} : s.Room (.unique i) → s.Quiet (.unique j) → s.var (.unique j) = .ref o →
      RefStep s (.unique_unique i j) ((s.put (.unique i) (.ref o)).put (.unique j) .null)
  | drop_null {s : Refs} {k : Nat} {v : Ref} {ends : Bool} : s.Quiet v → s.var v = .null →
      RefStep s (.drop k v ends) (s.put v (slotAfter ends))
  | drop_strong {s : Refs} {k i m : Nat} {ends : Bool} : s.Quiet (.strong i) → s.call k = .idle →
      s.var (.strong i) = .ref m → RefStep s (.drop k (.strong i) ends) (s.enter k (.remove_strong i m ends))
  | drop_weak {s : Refs} {k i m : Nat} {ends : Bool} : s.Quiet (.weak i) → s.call k = .idle →
      s.var (.weak i) = .ref m → RefStep s (.drop k (.weak i) ends) (s.enter k (.remove_weak i m ends))
  | drop_unique {s : Refs} {k i o : Nat} {ends : Bool} : s.Quiet (.unique i) → s.call k = .idle →
      s.var (.unique i) = .ref o →
      RefStep s (.drop k (.unique i) ends)
        ((s.put (.unique i) (.stale o)).enter k (.after (.unique i) (some o) none ends))
  | add_strong {s : Refs} {k i m : Nat} {other : Ref} {x : Middle} {ok : Bool} : s.call k = .add_strong i other m →
      (s.middle m).add_strong = (x, ok) →
      RefStep s (.lock k) (((s.setMiddle m x).put (.strong i) (if ok then .ref m else .null)).enter k .idle)
  | add_weak {s : Refs} {k i m : Nat} {other : Ref} {x : Middle} {ok : Bool} : s.call k = .add_weak i other m →
      (s.middle m).add_weak = (x, ok) →
      RefStep s (.lock k) (((s.setMiddle m x).put (.weak i) (if ok then .ref m else .null)).enter k .idle)
  | remove_strong {s : Refs} {k i m : Nat} {ends delete_m : Bool} {x : Middle} {del_ptr : Option Nat} :
      s.call k = .remove_strong i m ends → (s.middle m).remove_strong = some (x, del_ptr, delete_m) →
      RefStep s (.lock k) (((s.setMiddle m x).put (.strong i) (.stale m)).enter k
        (.after (.strong i) del_ptr (if delete_m then some m else none) ends))
  | remove_weak {s : Refs} {k i m : Nat} {ends delete_m : Bool} {x : Middle} :
      s.call k = .remove_weak i m ends → (s.middle m).remove_weak = some (x, delete_m) →
      RefStep s (.lock k) (((s.setMiddle m x).put (.weak i) (.stale m)).enter k
        (.after (.weak i) none (if delete_m then some m else none) ends))
  | delete_object {s : Refs} {k o : Nat} {v : Ref} {delete_m : Option Nat} {ends : Bool} :
      s.call k = .after v (some o) delete_m ends →
      RefStep s (.delete_object k)
        { s.enter k (.after v none delete_m ends) with
          deleted := fun p => if p = o then s.deleted p + 1 else s.deleted p }
  | delete_middle {s : Refs} {k m : Nat} {v : Ref} {ends : Bool} : s.call k = .after v none (some m) ends →
      RefStep s (.delete_middle k)
        { s.enter k (.after v none none ends) with freed := fun n => if n = m then s.freed n + 1 else s.freed n }
  | finish {s : Refs} {k : Nat} {v : Ref} {ends : Bool} : s.call k = .after v none none ends →
      RefStep s (.finish k) ((s.put v (slotAfter ends)).enter k .idle)

structure NoRefs (s : Refs) : Prop where
  var : ∀ v, s.var v = .none
  call : ∀ k, s.call k = .idle
  middle : ∀ m, s.middle m = ⟨none, 0, 0⟩
  next : s.next = 0
  deleted : ∀ o, s.deleted o = 0
  freed : ∀ m, s.freed m = 0
  given : ∀ o, s.given o = false

def refSystem : System Refs RefOp where
  init := NoRefs
  step := RefStep

/-- A raw pointer that a constructor gets is to an object of its own, and no variable is copied while a call changes it.
-/
def Careful (s : Refs) : RefOp → Prop
  | .strong_ptr _ o | .weak_ptr _ _ o | .unique_ptr _ o => s.given o = false
  | .strong_copy _ _ other | .weak_copy _ _ other => s.Quiet other
  | .drop _ v _ => ∀ k, ¬ (s.call k).reads v
  | _ => True

end Kernel
