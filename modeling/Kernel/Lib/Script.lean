import Kernel.Lib.Program

/-!
# Scripts

A program that does not read the state it changes: the operations it asks for,
in order, and its result, or `none` where it panics.
-/

namespace Kernel.Lib

structure Script (ω α : Type) where
  ops : List ω
  result : Option α

namespace Script

variable {ω σ α β : Type}

def bind (c : Script ω α) (f : α → Script ω β) : Script ω β :=
  match c.result with
  | none => ⟨c.ops, none⟩
  | some a => ⟨c.ops ++ (f a).ops, (f a).result⟩

instance : Monad (Script ω) where
  pure a := ⟨[], some a⟩
  bind := bind

def emit (ops : List ω) : Script ω Unit := ⟨ops, some ()⟩

def panic : Script ω α := ⟨[], none⟩

def assert (p : Prop) [Decidable p] : Script ω Unit := if p then pure () else panic

def ofOption (a : Option α) : Script ω α := ⟨[], a⟩

/-! ## The result and the operations -/

section

variable {c : Script ω α} {f : α → Script ω β} {a : α} {p : Prop} [Decidable p]

@[simp] theorem ops_pure (a : α) : (pure a : Script ω α).ops = [] := rfl

@[simp] theorem result_pure (a : α) : (pure a : Script ω α).result = some a := rfl

theorem bind_some (h : c.result = some a) : c >>= f = ⟨c.ops ++ (f a).ops, (f a).result⟩ := by
  show bind c f = _
  unfold bind
  rw [h]

theorem bind_none (h : c.result = none) : c >>= f = ⟨c.ops, none⟩ := by
  show bind c f = _
  unfold bind
  rw [h]

theorem mem_bind {o : ω} : o ∈ (c >>= f).ops ↔ o ∈ c.ops ∨ ∃ a, c.result = some a ∧ o ∈ (f a).ops := by
  cases hc : c.result with
  | none =>
    rw [bind_none hc]
    exact ⟨Or.inl, fun h => h.resolve_right fun ⟨a, ha, _⟩ => by cases ha⟩
  | some a =>
    rw [bind_some hc, List.mem_append]
    refine or_congr_right ⟨fun h => ⟨a, rfl, h⟩, ?_⟩
    rintro ⟨b, hb, h⟩
    obtain rfl := Option.some.inj hb
    exact h

theorem ofOption_some_bind (a : α) (f : α → Script ω β) : ofOption (some a) >>= f = f a := rfl

theorem ofOption_none_bind (f : α → Script ω β) : ofOption none >>= f = panic := rfl

theorem assert_bind (hp : p) (f : Unit → Script ω β) : assert p >>= f = f () := by
  rw [assert, if_pos hp]
  rfl

theorem assert_not_bind (hp : ¬ p) (f : Unit → Script ω β) : assert p >>= f = panic := by
  rw [assert, if_neg hp]
  rfl

theorem emit_bind (ops : List ω) (f : Unit → Script ω β) : emit ops >>= f = ⟨ops ++ (f ()).ops, (f ()).result⟩ := rfl

end

/-! ## Doing what a script asks for -/

section

variable {act : ω → Prog σ Unit} {c : Script ω α} {f : α → Script ω β} {s t : σ} {l l₁ l₂ : List ω} {o : ω}

def runAll (act : ω → Prog σ Unit) : List ω → Prog σ Unit
  | [] => pure ()
  | o :: ops => do
    act o
    runAll act ops

def perform (act : ω → Prog σ Unit) (c : Script ω α) : Prog σ α := do
  runAll act c.ops
  match c.result with
  | none => Prog.panic
  | some a => pure a

theorem perform_of_run (h : (runAll act c.ops).run s = some ((), t)) :
    (perform act c).run s = c.result.map fun a => (a, t) := by
  unfold perform
  rw [Prog.bind_run h]
  cases c.result with
  | none => rfl
  | some a => rfl

theorem perform_run {a : α} (h : (perform act c).run s = some (a, t)) :
    c.result = some a ∧ (runAll act c.ops).run s = some ((), t) := by
  unfold perform at h
  obtain ⟨_, u, hops, h⟩ := Prog.run_bind.mp h
  cases hc : c.result with
  | none =>
    rw [hc] at h
    cases h
  | some b =>
    rw [hc, Prog.run_pure] at h
    obtain ⟨rfl, rfl⟩ := h
    exact ⟨rfl, hops⟩

/-! ## What the operations come to -/

/-- Some operation is come to in a state with `P`. -/
def Meets (act : ω → Prog σ Unit) (P : σ → ω → Prop) : List ω → σ → Prop
  | [], _ => False
  | o :: ops, s => P s o ∨ ∃ t, (act o).run s = some ((), t) ∧ Meets act P ops t

theorem meets_append {P : σ → ω → Prop} :
    Meets act P (l₁ ++ l₂) s ↔ Meets act P l₁ s ∨ ∃ t, (runAll act l₁).run s = some ((), t) ∧ Meets act P l₂ t := by
  induction l₁ generalizing s with
  | nil =>
    constructor
    · exact fun h => Or.inr ⟨s, rfl, h⟩
    · rintro (h | ⟨t, ht, h⟩)
      · exact h.elim
      · obtain ⟨-, rfl⟩ := Prog.run_pure.mp ht
        exact h
  | cons o l ih =>
    show (P s o ∨ ∃ t, (act o).run s = some ((), t) ∧ Meets act P (l ++ l₂) t) ↔
      (P s o ∨ ∃ t, (act o).run s = some ((), t) ∧ Meets act P l t) ∨ _
    rw [or_assoc]
    refine or_congr_right ⟨?_, ?_⟩
    · rintro ⟨t, ht, h⟩
      rcases ih.mp h with h | ⟨u, hu, h⟩
      · exact Or.inl ⟨t, ht, h⟩
      · exact Or.inr ⟨u, (Prog.bind_run ht).trans hu, h⟩
    · rintro (⟨t, ht, h⟩ | ⟨u, hu, h⟩)
      · exact ⟨t, ht, ih.mpr (Or.inl h)⟩
      · obtain ⟨_, t, ht, hu⟩ := Prog.run_bind.mp hu
        exact ⟨t, ht, ih.mpr (Or.inr ⟨u, hu, h⟩)⟩

theorem meets_bind {P : σ → ω → Prop} : Meets act P (c >>= f).ops s ↔
    Meets act P c.ops s ∨ ∃ a t, c.result = some a ∧ (runAll act c.ops).run s = some ((), t) ∧
      Meets act P (f a).ops t := by
  cases hc : c.result with
  | none =>
    rw [bind_none hc]
    exact ⟨Or.inl, fun h => h.resolve_right fun ⟨a, _, ha, _⟩ => by cases ha⟩
  | some a =>
    rw [bind_some hc, meets_append]
    refine or_congr_right ⟨fun ⟨t, ht, h⟩ => ⟨a, t, rfl, ht, h⟩, ?_⟩
    rintro ⟨b, t, hb, ht, h⟩
    obtain rfl := Option.some.inj hb
    exact ⟨t, ht, h⟩

theorem meets_mono {P Q : σ → ω → Prop} (h : ∀ o ∈ l, ∀ s, P s o → Q s o) (hm : Meets act P l s) : Meets act Q l s := by
  induction l generalizing s with
  | nil => exact hm
  | cons o l ih =>
    rcases hm with ho | ⟨t, ht, hl⟩
    · exact Or.inl (h o List.mem_cons_self s ho)
    · exact Or.inr ⟨t, ht, ih (fun o ho => h o (List.mem_cons_of_mem _ ho)) hl⟩

theorem not_meets {P : σ → ω → Prop} (h : ∀ o ∈ l, ∀ s, ¬ P s o) : ¬ Meets act P l s := by
  induction l generalizing s with
  | nil => exact id
  | cons o l ih =>
    rintro (ho | ⟨t, -, hl⟩)
    · exact h o List.mem_cons_self s ho
    · exact ih (fun o ho => h o (List.mem_cons_of_mem _ ho)) hl

end

end Script

end Kernel.Lib
