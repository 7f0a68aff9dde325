import Kernel.Lib.Program
import Kernel.Ref.Code
import Mathlib.Logic.Function.Basic

/-!
# Objects that hold references (`shared.h`)

A `StrongRef` may lie in an object. Deleting the object ends the reference, and
that may delete the next object, and so on. One thread works on the graph here.
-/

namespace Kernel

open Lib

/-- The StrongRefs are numbered, and so are the objects and the `Middle`s. -/
structure Graph where
  middle : Nat → Middle
  /-- The `Middle`s and the objects that were deleted. -/
  freed : Nat → Bool
  deleted : Nat → Bool
  /-- The `middle` of a reference. -/
  var : Nat → Option Nat
  /-- The object that a reference lies in, if any, and the references in an object in the order in which they end. -/
  holder : Nat → Option Nat
  fields : Nat → List Nat
  /-- Ghost: the references that are counted. -/
  live : List Nat

namespace Graph

def setMiddle (g : Graph) (m : Nat) (x : Middle) : Graph := { g with middle := Function.update g.middle m x }

def Here (g : Graph) (v : Nat) : Prop := (g.holder v).all (fun o => !g.deleted o) = true

instance (g : Graph) (v : Nat) : Decidable (g.Here v) := by unfold Here; infer_instance

end Graph

/-- `middle`, read in reference `v`. -/
def StrongRef.middle (v : Nat) : Prog Graph (Option Nat) := do
  let g ← get
  Prog.assert (g.Here v)
  pure (g.var v)

def StrongRef.add_strong (m : Option Nat) : Prog Graph (Option Nat) :=
  match m with
  | none => pure none
  | some m => do
    let g ← get
    Prog.assert (g.freed m = false)
    let (x, ok) := (g.middle m).add_strong
    modify fun g => g.setMiddle m x
    pure (if ok then some m else none)

/-- The destructors of the references in an object. `release` is `remove_strong`. -/
def endRefs (release : Option Nat → Prog Graph Unit) : List Nat → Prog Graph Unit
  | [] => pure ()
  | v :: l => do
    modify fun g => { g with live := g.live.erase v }
    let g ← get
    release (g.var v)
    endRefs release l

/-- `fuel` bounds how deep the deletions nest. -/
def StrongRef.remove_strong : Nat → Option Nat → Prog Graph Unit
  | 0, _ => Prog.panic
  | _ + 1, none => pure ()
  | fuel + 1, some m => do
    let g ← get
    Prog.assert (g.freed m = false)
    match (g.middle m).remove_strong with
    | none => Prog.panic
    | some (x, del_ptr, delete_m) => do
      modify fun g => g.setMiddle m x
      match del_ptr with
      | none => pure ()
      | some o => do
        endRefs (fun m => StrongRef.remove_strong fuel m) (g.fields o)
        modify fun g => { g with deleted := Function.update g.deleted o true }
      if delete_m then modify fun g => { g with freed := Function.update g.freed m true } else pure ()

/-- `a = b`. A deletion ends a reference, so they nest less deep than there are references. -/
def StrongRef.assign (a b : Nat) : Prog Graph Unit := do
  let x ← StrongRef.middle a
  let y ← StrongRef.middle b
  if x ≠ y then do
    modify fun g => { g with live := g.live.erase a }
    let g ← get
    StrongRef.remove_strong (g.live.length + 1) x
    let z ← StrongRef.middle b
    let w ← StrongRef.add_strong z
    let g ← get
    Prog.assert (g.Here a)
    modify fun g => { g with var := Function.update g.var a w, live := a :: g.live }
  else pure ()

/-! ## What is to hold -/

def Graph.refs (g : Graph) (l : List Nat) (m : Nat) : Nat := l.countP fun v => g.var v = some m

def Graph.Counted (g : Graph) : Prop := ∀ m, (g.middle m).strong_count = g.refs g.live m

/-- A graph of managed objects: what is referred to exists, and no object has two `Middle`s. -/
structure Graph.Ok (g : Graph) : Prop where
  nodup : g.live.Nodup
  counted : g.Counted
  managed : ∀ m, 0 < (g.middle m).strong_count → g.freed m = false ∧ ∃ o, (g.middle m).ptr = some o ∧
    g.deleted o = false
  own : ∀ m n o, (g.middle m).ptr = some o → (g.middle n).ptr = some o → m = n
  fields : ∀ o v, v ∈ g.fields o ↔ g.holder v = some o
  fields_nodup : ∀ o, (g.fields o).Nodup
  alive : ∀ v o, g.holder v = some o → (v ∈ g.live ↔ g.deleted o = false)

/-- The assignment returns, `a` refers to what `b` referred to, that is not deleted, and the counts are right. -/
def Graph.Assigns (g : Graph) (a b : Nat) : Prop :=
  ∃ t, (StrongRef.assign a b).run g = some ((), t) ∧ t.var a = g.var b ∧
    (∀ m, g.var b = some m → t.freed m = false ∧ (t.middle m).ptr = (g.middle m).ptr ∧
      ∀ o, (g.middle m).ptr = some o → t.deleted o = false) ∧ t.Counted

/-- Without reference `a`, whatever refers to `m` lies in objects that fall with it. `own` is where. -/
inductive Graph.Falls (g : Graph) (a : Nat) : Nat → Prop where
  | mk {m : Nat} (own : Nat → Nat) (hpos : 0 < (g.middle m).strong_count)
      (hheld : ∀ v ∈ g.live, g.var v = some m → v ≠ a → ∃ o, g.holder v = some o ∧ (g.middle (own v)).ptr = some o)
      (hfalls : ∀ v ∈ g.live, g.var v = some m → v ≠ a → g.Falls a (own v)) : g.Falls a m

/-- Reference `v` lies in an object that `a` alone keeps alive. -/
def Graph.HeldBy (g : Graph) (a v : Nat) : Prop := ∃ m o, g.holder v = some o ∧ (g.middle m).ptr = some o ∧ g.Falls a m

end Kernel
