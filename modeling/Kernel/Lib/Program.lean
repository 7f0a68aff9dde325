import Mathlib.Tactic.Common

/-!
# Programs that change a state and may panic

`none` is a panic: the machine stops there. The lemmas below read a finished
run backwards, one statement at a time.
-/

namespace Kernel.Lib

abbrev Prog (σ α : Type) := StateT σ Option α

namespace Prog

variable {σ α β : Type}

def panic : Prog σ α := fun _ => none

def assert (p : Prop) [Decidable p] : Prog σ Unit := if p then pure () else panic

/-- `for (i = 0; i < n; i++)`. -/
def forRange : Nat → (Nat → Prog σ Unit) → Prog σ Unit
  | 0, _ => pure ()
  | n + 1, body => do
    forRange n body
    body n

/-- `c` on the part of the state that `view` shows and `put` puts back. -/
def zoom {τ : Type} (view : τ → σ) (put : σ → τ → τ) (c : Prog σ α) : Prog τ α := fun t =>
  (c.run (view t)).map fun r => (r.1, put r.2 t)

/-! ## Running forwards -/

theorem bind_run {c : Prog σ α} {f : α → Prog σ β} {a : α} {s u : σ} (h : c.run s = some (a, u)) :
    (c >>= f).run s = (f a).run u := by
  rw [StateT.run_bind, h]; rfl

theorem bind_none {c : Prog σ α} {f : α → Prog σ β} {s : σ} (h : c.run s = none) : (c >>= f).run s = none := by
  rw [StateT.run_bind, h]; rfl

theorem get_bind_run {f : σ → Prog σ β} {s : σ} : (get >>= f).run s = (f s).run s :=
  bind_run rfl

theorem modify_bind_run {g : σ → σ} {f : PUnit → Prog σ β} {s : σ} :
    (modify g >>= f).run s = (f ()).run (g s) :=
  bind_run rfl

theorem modify_run {g : σ → σ} {s : σ} : (modify g : Prog σ PUnit).run s = some ((), g s) := rfl

theorem assert_bind_run {p : Prop} [Decidable p] {f : Unit → Prog σ β} {s : σ} (hp : p) :
    (assert p >>= f).run s = (f ()).run s :=
  bind_run (by rw [assert, if_pos hp]; rfl)

theorem assert_bind_none {p : Prop} [Decidable p] {f : Unit → Prog σ β} {s : σ} (hp : ¬ p) :
    (assert p >>= f).run s = none :=
  bind_none (by rw [assert, if_neg hp]; rfl)

/-! ## Reading a run backwards -/

@[simp] theorem run_pure {a b : α} {s t : σ} :
    (pure a : Prog σ α).run s = some (b, t) ↔ b = a ∧ t = s := by
  simp [StateT.run_pure, eq_comm]

theorem run_bind {c : Prog σ α} {f : α → Prog σ β} {b : β} {s t : σ} :
    (c >>= f).run s = some (b, t) ↔
      ∃ a u, c.run s = some (a, u) ∧ (f a).run u = some (b, t) := by
  simp only [StateT.run_bind, Option.bind_eq_bind, Option.bind_eq_some_iff, Prod.exists]

@[simp] theorem run_get {a s t : σ} : (get : Prog σ σ).run s = some (a, t) ↔ a = s ∧ t = s := by
  simp [eq_comm]

@[simp] theorem run_set {x s t : σ} {u : PUnit} :
    (set x : Prog σ PUnit).run s = some (u, t) ↔ t = x := by
  simp [eq_comm]

@[simp] theorem run_modify {f : σ → σ} {s t : σ} {u : PUnit} :
    (modify f : Prog σ PUnit).run s = some (u, t) ↔ t = f s := by
  simp [modify, modifyGet, MonadStateOf.modifyGet, StateT.modifyGet, StateT.run, eq_comm]

@[simp] theorem run_panic {a : α} {s t : σ} : (panic : Prog σ α).run s = some (a, t) ↔ False := by
  simp [panic, StateT.run]

@[simp] theorem run_assert {p : Prop} [Decidable p] {s t : σ} {u : Unit} :
    (assert p : Prog σ Unit).run s = some (u, t) ↔ p ∧ t = s := by
  by_cases hp : p
  · rw [assert, if_pos hp, run_pure]; simp [hp]
  · rw [assert, if_neg hp, run_panic]; simp [hp]

theorem run_ite {p : Prop} [Decidable p] {c d : Prog σ α} {a : α} {s t : σ} :
    (if p then c else d).run s = some (a, t) ↔
      (p ∧ c.run s = some (a, t)) ∨ (¬ p ∧ d.run s = some (a, t)) := by
  split <;> simp_all

theorem assert_bind_some {p : Prop} [Decidable p] {f : Unit → Prog σ β} {s : σ} {r : β × σ}
    (h : (assert p >>= f).run s = some r) : p ∧ (f ()).run s = some r := by
  by_cases hp : p
  · exact ⟨hp, by rwa [assert_bind_run hp] at h⟩
  · rw [assert, if_neg hp] at h
    cases h

theorem run_zoom {τ : Type} {view : τ → σ} {put : σ → τ → τ} {c : Prog σ α} {a : α} {s t : τ} :
    (zoom view put c).run s = some (a, t) ↔ ∃ u, c.run (view s) = some (a, u) ∧ t = put u s := by
  simp only [zoom, StateT.run, Option.map_eq_some_iff, Prod.exists, Prod.mk.injEq]
  constructor
  · rintro ⟨b, u, h, rfl, rfl⟩
    exact ⟨u, h, rfl⟩
  · rintro ⟨u, h, rfl⟩
    exact ⟨a, u, h, rfl, rfl⟩

/-! ## Loops -/

@[simp] theorem forRange_zero (body : Nat → Prog σ Unit) : forRange 0 body = pure () := rfl

theorem forRange_succ (n : Nat) (body : Nat → Prog σ Unit) :
    forRange (n + 1) body = (do forRange n body; body n) := rfl

/-- The invariant rule: `I i` holds before turn `i`. -/
theorem forRange_inv {n : Nat} {body : Nat → Prog σ Unit} (I : Nat → σ → Prop)
    (hstep : ∀ i, i < n → ∀ s t, I i s → (body i).run s = some ((), t) → I (i + 1) t)
    {s t : σ} {u : Unit} (h0 : I 0 s) (h : (forRange n body).run s = some (u, t)) : I n t := by
  induction n generalizing t with
  | zero =>
    rw [forRange_zero, run_pure] at h
    rw [h.2]; exact h0
  | succ n ih =>
    rw [forRange_succ, run_bind] at h
    obtain ⟨a, m, hn, hb⟩ := h
    have hm : I n m := ih (fun i hi => hstep i (by omega)) hn
    exact hstep n (by omega) m t hm hb

/-- The invariant rule for a loop that no turn stops. -/
theorem forRange_total {n : Nat} {body : Nat → Prog σ Unit} (I : Nat → σ → Prop)
    (hstep : ∀ i, i < n → ∀ s, I i s → ∃ t, (body i).run s = some ((), t) ∧ I (i + 1) t)
    {s : σ} (h0 : I 0 s) : ∃ t, (forRange n body).run s = some ((), t) ∧ I n t := by
  induction n with
  | zero => exact ⟨s, rfl, h0⟩
  | succ n ih =>
    obtain ⟨u, hu, hI⟩ := ih fun i hi => hstep i (by omega)
    obtain ⟨t, ht, hI'⟩ := hstep n (by omega) u hI
    exact ⟨t, (bind_run hu).trans ht, hI'⟩

/-- A turn may rely on the turns before it, as a run from the start. -/
theorem forRange_inv_turns {n : Nat} {body : Nat → Prog σ Unit} {s t : σ} {u : Unit} (I : Nat → σ → Prop)
    (hstep : ∀ i, i < n → ∀ m t, I i m → (forRange i body).run s = some ((), m) → (body i).run m = some ((), t) →
      I (i + 1) t)
    (h0 : I 0 s) (h : (forRange n body).run s = some (u, t)) : I n t := by
  refine (forRange_inv (fun i m => I i m ∧ (forRange i body).run s = some ((), m)) ?_ ⟨h0, rfl⟩ h).1
  rintro i hi m t ⟨hm, hturns⟩ hturn
  exact ⟨hstep i hi m t hm hturns hturn, (bind_run hturns).trans hturn⟩

theorem forRange_total_turns {n : Nat} {body : Nat → Prog σ Unit} {s : σ} (I : Nat → σ → Prop)
    (hstep : ∀ i, i < n → ∀ m, I i m → (forRange i body).run s = some ((), m) →
      ∃ t, (body i).run m = some ((), t) ∧ I (i + 1) t)
    (h0 : I 0 s) : ∃ t, (forRange n body).run s = some ((), t) ∧ I n t := by
  have hboth : ∀ i, i < n → ∀ m, I i m ∧ (forRange i body).run s = some ((), m) →
      ∃ t, (body i).run m = some ((), t) ∧ I (i + 1) t ∧ (forRange (i + 1) body).run s = some ((), t) := by
    rintro i hi m ⟨hm, hturns⟩
    obtain ⟨t, hturn, ht⟩ := hstep i hi m hm hturns
    exact ⟨t, hturn, ht, (bind_run hturns).trans hturn⟩
  obtain ⟨t, hrun, ht, -⟩ := forRange_total _ hboth ⟨h0, rfl⟩
  exact ⟨t, hrun, ht⟩

/-- A loop whose every turn `i` goes from `st i` to `st (i + 1)`. -/
theorem forRange_trace {n : Nat} {body : Nat → Prog σ Unit} (st : Nat → σ)
    (hstep : ∀ i, i < n → (body i).run (st i) = some ((), st (i + 1))) :
    (forRange n body).run (st 0) = some ((), st n) := by
  induction n with
  | zero => rfl
  | succ n ih =>
    rw [forRange_succ, run_bind]
    exact ⟨(), st n, ih (fun i hi => hstep i (by omega)), hstep n (by omega)⟩

theorem forRange_single {n k : Nat} {body : Nat → Prog σ Unit} {s t : σ} (hk : k < n)
    (hbefore : ∀ i, i < k → (body i).run s = some ((), s)) (hturn : (body k).run s = some ((), t))
    (hafter : ∀ i, k < i → i < n → (body i).run t = some ((), t)) : (forRange n body).run s = some ((), t) := by
  have h := forRange_trace (fun i => if i ≤ k then s else t) fun i hi => by
    rcases Nat.lt_trichotomy i k with hlt | rfl | hgt
    · rw [if_pos (by omega), if_pos (by omega)]
      exact hbefore i hlt
    · rw [if_pos (Nat.le_refl i), if_neg (by omega)]
      exact hturn
    · rw [if_neg (by omega), if_neg (by omega)]
      exact hafter i hgt hi
  rwa [if_pos (Nat.zero_le k), if_neg (by omega)] at h

/-! ## Related states -/

section

variable {R : σ → σ → Prop}

/-- From related states, `c` returns the same value in related states. -/
def Respects (R : σ → σ → Prop) (c : Prog σ α) : Prop :=
  ∀ s s' a t, R s s' → c.run s = some (a, t) → ∃ t', c.run s' = some (a, t') ∧ R t t'

theorem respects_pure (a : α) : Respects R (pure a : Prog σ α) := by
  intro s s' b t h hrun
  obtain ⟨rfl, rfl⟩ := run_pure.mp hrun
  exact ⟨s', rfl, h⟩

theorem respects_bind {c : Prog σ α} {f : α → Prog σ β} (hc : Respects R c) (hf : ∀ a, Respects R (f a)) :
    Respects R (c >>= f) := by
  intro s s' b t h hrun
  obtain ⟨a, u, hu, hrun⟩ := run_bind.mp hrun
  obtain ⟨u', hu', h'⟩ := hc s s' a u h hu
  obtain ⟨t', ht', h''⟩ := hf a u u' b t h' hrun
  exact ⟨t', (bind_run hu').trans ht', h''⟩

theorem respects_get {f : σ → Prog σ β} (hsame : ∀ s s', R s s' → f s' = f s) (hf : ∀ s, Respects R (f s)) :
    Respects R (get >>= f) := by
  intro s s' b t h hrun
  rw [get_bind_run] at hrun
  obtain ⟨t', ht', h'⟩ := hf s s s' b t h hrun
  refine ⟨t', ?_, h'⟩
  rw [get_bind_run, hsame s s' h]
  exact ht'

theorem respects_modify {g : σ → σ} (hg : ∀ s s', R s s' → R (g s) (g s')) :
    Respects R (modify g : Prog σ PUnit) := by
  intro s s' a t h hrun
  obtain rfl := run_modify.mp hrun
  exact ⟨g s', rfl, hg s s' h⟩

theorem respects_assert {p : Prop} [Decidable p] : Respects R (assert p : Prog σ Unit) := by
  intro s s' a t h hrun
  obtain ⟨hp, rfl⟩ := run_assert.mp hrun
  exact ⟨s', run_assert.mpr ⟨hp, rfl⟩, h⟩

theorem respects_ite {p : Prop} [Decidable p] {c d : Prog σ α} (hc : Respects R c) (hd : Respects R d) :
    Respects R (if p then c else d) := by
  split
  · exact hc
  · exact hd

theorem respects_forRange {n : Nat} {body : Nat → Prog σ Unit} (h : ∀ i, Respects R (body i)) :
    Respects R (forRange n body) := by
  induction n with
  | zero => exact respects_pure ()
  | succ n ih => exact respects_bind ih fun _ => h n

end

end Prog

end Kernel.Lib
