import Kernel.Lib.Command
import Mathlib.Logic.Relation
import Mathlib.Order.RelClasses

/-!
# Sections of code

An operation may start a section that a later one ends. `Nests` says that the
code does in its sections only what they allow, up to the end of each. If a
party in a section waits only for sections of a greater rank, the parties do not
wait for each other in a circle.
-/

namespace Kernel.Lib

namespace Cmd

/-- `can a t v`: the test `t` may give `v` in the section `a`. -/
structure Sections (ω τ ρ ν α : Type) where
  opens : ω → Option α
  closes : α → ω → Prop
  allows : α → ω → Prop
  can : α → τ → Bool → Prop
  gives : ρ → ν → Prop

section

variable {ω τ ρ ν α : Type} (S : Sections ω τ ρ ν α)

/-- `c` runs in the section `a`, and goes on to `P` unless it ends the section. -/
def Within (a : α) : Cmd ω τ ρ ν → Prop → Prop
  | .skip, P => P
  | .op o, P => S.closes a o ∨ S.allows a o ∧ P
  | .seq c d, P => c.Within a (d.Within a P)
  | .ite t c d, P => (S.can a t true → c.Within a P) ∧ (S.can a t false → d.Within a P)
  | .loop t c, P => (S.can a t true → c.Within a True) ∧ (S.can a t false → P)
  | .read r f, P => ∀ x, S.gives r x → (f x).Within a P

/-- The code still to run is in the section `a`, and ends it. -/
def AllWithin (a : α) : List (Cmd ω τ ρ ν) → Prop
  | [] => False
  | c :: k => c.Within S a (AllWithin a k)

/-- The sections that `c` starts, with `k` to run after it. -/
def Nests : Cmd ω τ ρ ν → List (Cmd ω τ ρ ν) → Prop
  | .skip, _ => True
  | .op o, k => ∀ a, S.opens o = some a → AllWithin S a k
  | .seq c d, k => c.Nests (d :: k) ∧ d.Nests k
  | .ite _ c d, k => c.Nests k ∧ d.Nests k
  | .loop t c, k => c.Nests (.loop t c :: k)
  | .read r f, k => ∀ x, S.gives r x → (f x).Nests k

def AllNest : List (Cmd ω τ ρ ν) → Prop
  | [] => True
  | c :: k => c.Nests S k ∧ AllNest k

variable {S} {a : α} {c : Cmd ω τ ρ ν} {P Q : Prop} {o : ω} {k l : List (Cmd ω τ ρ ν)}
  {holds : τ → Bool → Prop} {reads : ρ → ν → Prop} {v : Event ω τ}

theorem Within.mono (hPQ : P → Q) (h : c.Within S a P) : c.Within S a Q := by
  induction c generalizing P Q with
  | skip => exact hPQ h
  | op o => exact h.imp_right fun ⟨ho, hP⟩ => ⟨ho, hPQ hP⟩
  | seq c d hc hd => exact hc (hd hPQ) h
  | ite t c d hc hd => exact ⟨fun ht => hc hPQ (h.1 ht), fun ht => hd hPQ (h.2 ht)⟩
  | loop t c hc => exact ⟨h.1, fun ht => hPQ (h.2 ht)⟩
  | read r f hf => exact fun x hx => hf x hPQ (h x hx)

theorem AllWithin.unfold (h : AllWithin S a k) (hu : Unfolds holds reads k v l)
    (hcan : ∀ t b, v = .test t b → S.can a t b) (hgives : ∀ r x, reads r x → S.gives r x) : AllWithin S a l := by
  cases hu with
  | skip => exact h
  | seq => exact h
  | @ite t c d b k hb =>
    cases b with
    | true => exact h.1 (hcan t true rfl)
    | false => exact h.2 (hcan t false rfl)
  | @loop t c b k hb =>
    cases b with
    | true => exact Within.mono (fun _ => h) (h.1 (hcan t true rfl))
    | false => exact h.2 (hcan t false rfl)
  | read hx => exact h _ (hgives _ _ hx)

theorem AllNest.unfold (h : AllNest S k) (hu : Unfolds holds reads k v l) (hgives : ∀ r x, reads r x → S.gives r x) :
    AllNest S l := by
  cases hu with
  | skip => exact h.2
  | seq => exact ⟨h.1.1, h.1.2, h.2⟩
  | @ite t c d b k hb =>
    cases b with
    | true => exact ⟨h.1.1, h.2⟩
    | false => exact ⟨h.1.2, h.2⟩
  | @loop t c b k hb =>
    cases b with
    | true => exact ⟨h.1, h⟩
    | false => exact h.2
  | read hx => exact ⟨h.1 _ (hgives _ _ hx), h.2⟩

theorem AllWithin.op (h : AllWithin S a (.op o :: k)) (ho : ¬ S.closes a o) : S.allows a o ∧ AllWithin S a k :=
  h.resolve_left ho

end

end Cmd

/-! ## Who waits for whom -/

section

open Relation

variable {κ α ρ : Type} {want : κ → Option α} {has : κ → α → Prop}

def WaitsFor (want : κ → Option α) (has : κ → α → Prop) (c d : κ) : Prop := ∃ a, want c = some a ∧ has d a

variable [Preorder ρ] {rank : α → ρ} (h : ∀ c a b, has c a → want c = some b → rank a < rank b)

include h in
theorem WaitsFor.rank_lt {c d : κ} {b : α} (hcd : TransGen (WaitsFor want has) c d) (hd : want d = some b) :
    ∃ a, want c = some a ∧ rank a < rank b := by
  induction hcd generalizing b with
  | single hcd =>
    obtain ⟨a, hc, ha⟩ := hcd
    exact ⟨a, hc, h _ a b ha hd⟩
  | tail _ hde ih =>
    obtain ⟨m, hm, hhas⟩ := hde
    obtain ⟨a, hc, ham⟩ := ih hm
    exact ⟨a, hc, ham.trans (h _ m b hhas hd)⟩

include h in
theorem WaitsFor.acyclic (c : κ) : ¬ TransGen (WaitsFor want has) c c := by
  intro hcc
  obtain ⟨d, ⟨b, hb, -⟩, -⟩ := TransGen.head'_iff.mp hcc
  obtain ⟨a, ha, hab⟩ := rank_lt h hcc hb
  rw [Option.some.inj (ha.symm.trans hb)] at hab
  exact lt_irrefl _ hab

include h in
/-- Whoever waits does so, in the end, for a party that does not wait. -/
theorem WaitsFor.ends [WellFoundedGT ρ] {c d : κ} (hcd : WaitsFor want has c d) :
    ∃ e, TransGen (WaitsFor want has) c e ∧ ∀ f, ¬ WaitsFor want has e f := by
  obtain ⟨a, ha, hhas⟩ := hcd
  induction hr : rank a using WellFoundedGT.induction generalizing a c d with
  | ind r ih =>
    by_cases hd : ∃ f, WaitsFor want has d f
    · obtain ⟨f, b, hb, hf⟩ := hd
      obtain ⟨e, hde, he⟩ := ih (rank b) (hr ▸ h d a b hhas hb) b hb hf rfl
      exact ⟨e, hde.head ⟨a, ha, hhas⟩, he⟩
    · exact ⟨d, .single ⟨a, ha, hhas⟩, not_exists.mp hd⟩

end

end Kernel.Lib
