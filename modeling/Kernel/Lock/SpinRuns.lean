import Kernel.Lock.Spin
import Mathlib.Data.List.Nodup

/-!
# What spin locks are good for

They are locks that are taken in one step. Interrupts are off as long as a core
has one, if it gives them back in order.
-/

namespace Kernel.Spin

open Lib

variable {s t : Spins} {c d l : Nat} {a : Nat × LockOp Nat}

/-! ## Exclusion -/

def Spins.Has (s : Spins) (c l : Nat) : Prop := l ∈ (s.held c).map Prod.fst

/-- The lock that a core has and is at work on. -/
def Pc.own : Pc → Option Nat
  | .set_was_disabled l _ | .set_start l | .get_count_it l | .set_count_it l _ | .get_start l _ | .rdtsc l _ _
  | .get_was_disabled l _ _ | .set_taken l _ _ _ => some l
  | _ => none

/-- What a core does for itself changes no lock's owner, and nothing of another core. -/
structure Alone (s : Spins) (c : Nat) (t : Spins) : Prop where
  held : t.held = s.held
  taken : ∀ l, (t.lock l).taken = (s.lock l).taken
  sections : t.sections = s.sections
  other : ∀ d, d ≠ c → t.pc d = s.pc d ∧ t.disabled d = s.disabled d ∧ t.base d = s.base d
  own : ∀ l, (t.pc c).own = some l → (s.pc c).own = some l ∨ s.Has c l
  was : ∀ l, (t.lock l).was_disabled = (s.lock l).was_disabled ∨ (s.pc c).own = some l

theorem modLock_same {β : Type} {f : SpinLock → SpinLock} (g : SpinLock → β) (hf : ∀ x, g (f x) = g x) (k : Nat) :
    g ((s.modLock l f).lock k) = g (s.lock k) := by
  by_cases hk : k = l
  · subst hk
    simp [Spins.modLock, hf]
  · simp [Spins.modLock, hk]

theorem silent_alone (h : Silent s c t) : Alone s c t := by
  constructor
  · cases h <;> rfl
  · intro k
    cases h with
    | set_was_disabled | set_start | set_count_it =>
        exact modLock_same (s := s.goto c _) SpinLock.taken (by intro x; rfl) k
    | _ => rfl
  · cases h <;> rfl
  · intro d hd
    cases h with
    | @restore_failed _ was | @try_failed _ was | @restore _ was => cases was <;> simp [Spins.goto, Spins.restore, hd]
    | _ => simp [Spins.goto, Spins.setDisabled, Spins.modLock, hd]
  · intro k hk
    cases h with
    | set_flag => exact Or.inl hk
    | unlock _ hl =>
      simp only [Spins.goto, Function.update_self, Pc.own, Option.some.injEq] at hk
      exact Or.inr (hk ▸ hl)
    | restore | get_max =>
      simp only [Spins.goto, Spins.restore, Function.update_self] at hk
      split_ifs at hk <;> cases hk
    | set_was_disabled hp | set_start hp | get_count_it hp | set_count_it hp | get_start hp | rdtsc hp
    | get_was_disabled hp =>
      simp_all [Spins.goto, Spins.modLock, Pc.own]
    | _ => simp [Spins.goto, Spins.setDisabled, Spins.restore, Pc.own] at hk
  · intro k
    cases h with
    | @set_was_disabled l was hp =>
      by_cases hk : k = l
      · rw [hp, hk]
        exact Or.inr rfl
      · simp [Spins.goto, Spins.modLock, hk]
    | set_start | set_count_it =>
      exact Or.inl (modLock_same (s := s.goto c _) SpinLock.was_disabled (by intro x; rfl) k)
    | _ => exact Or.inl rfl

/-- Who has a lock, and the bit that says so. -/
structure SpinOk (s : Spins) : Prop where
  nodup : ∀ c, ((s.held c).map Prod.fst).Nodup
  taken : ∀ l, (s.lock l).taken = true ↔ ∃ c, s.Has c l
  one : ∀ c d l, s.Has c l → s.Has d l → c = d
  own : ∀ c l, (s.pc c).own = some l → s.Has c l

namespace SpinOk

theorem free (h : Free s) : SpinOk s := by
  refine ⟨fun c => ?_, fun l => ?_, fun c d l hc => ?_, fun c l hl => ?_⟩
  · simp [h.held]
  · simp [h.lock, Spins.Has, h.held]
  · simp [Spins.Has, h.held] at hc
  · simp [h.pc, Pc.own] at hl

theorem alone (h : SpinOk s) (ha : Alone s c t) : SpinOk t := by
  have hhas : ∀ d k, t.Has d k ↔ s.Has d k := fun d k => by rw [Spins.Has, Spins.Has, ha.held]
  refine ⟨fun d => ?_, fun k => ?_, fun d e k hd he => ?_, fun d k hk => ?_⟩
  · rw [ha.held]
    exact h.nodup d
  · rw [ha.taken, h.taken]
    exact exists_congr fun d => (hhas d k).symm
  · exact h.one d e k ((hhas d k).mp hd) ((hhas e k).mp he)
  · rw [hhas]
    by_cases hd : d = c
    · subst hd
      exact (ha.own k hk).elim (h.own d k) id
    · rw [(ha.other d hd).1] at hk
      exact h.own d k hk

end SpinOk

/-- A core gets a lock that nobody has. -/
structure Acquired (s : Spins) (c l : Nat) (was : Bool) (t : Spins) : Prop where
  free : (s.lock l).taken = false
  at_exchange : s.pc c = .exchange l was
  pc : t.pc = Function.update s.pc c (.set_was_disabled l was)
  held : t.held = Function.update s.held c ((l, was) :: s.held c)
  taken : ∀ k, (t.lock k).taken = true ↔ k = l ∨ (s.lock k).taken = true
  was : ∀ k, (t.lock k).was_disabled = (s.lock k).was_disabled
  disabled : t.disabled = s.disabled
  base : t.base = s.base

/-- A core gives a lock back. -/
structure Released (s : Spins) (c l : Nat) (b : Bool) (elapsed : BitVec 64) (was : Bool) (t : Spins) : Prop where
  at_set_taken : s.pc c = .set_taken l b elapsed was
  pc : t.pc = Function.update s.pc c (.restore b elapsed was)
  held : t.held = Function.update s.held c ((s.held c).filter fun a => a.1 ≠ l)
  taken : ∀ k, (t.lock k).taken = true ↔ k ≠ l ∧ (s.lock k).taken = true
  was : ∀ k, (t.lock k).was_disabled = (s.lock k).was_disabled
  disabled : t.disabled = s.disabled
  base : t.base = s.base

theorem acquired_of_step (h : SpinStep s (c, .acquire l) t) : ∃ was, Acquired s c l was t := by
  cases h with
  | @acquire _ _ was hp hfree =>
    refine ⟨was, hfree, hp, rfl, rfl, fun k => ?_, fun k => ?_, rfl, rfl⟩
    · by_cases hk : k = l
      · subst hk
        simp [Spins.setHeld, Spins.modLock]
      · simp [Spins.setHeld, Spins.modLock, Spins.goto, hk]
    · by_cases hk : k = l
      · subst hk
        simp [Spins.setHeld, Spins.modLock, Spins.goto]
      · simp [Spins.setHeld, Spins.modLock, Spins.goto, hk]

theorem released_of_step (h : SpinStep s (c, .release l) t) : ∃ b elapsed was, Released s c l b elapsed was t := by
  cases h with
  | @release _ _ b was elapsed hp =>
    refine ⟨b, elapsed, was, hp, rfl, rfl, fun k => ?_, fun k => ?_, rfl, rfl⟩
    · by_cases hk : k = l
      · subst hk
        simp [Spins.setHeld, Spins.modLock]
      · simp [Spins.setHeld, Spins.modLock, Spins.goto, hk]
    · by_cases hk : k = l
      · subst hk
        simp [Spins.setHeld, Spins.modLock, Spins.goto]
      · simp [Spins.setHeld, Spins.modLock, Spins.goto, hk]

theorem Acquired.has {was : Bool} (h : Acquired s c l was t) (d k : Nat) :
    t.Has d k ↔ (d = c ∧ k = l) ∨ s.Has d k := by
  by_cases hd : d = c
  · subst hd
    simp [Spins.Has, h.held, eq_comm]
  · simp [Spins.Has, h.held, hd]

theorem Released.has {b was : Bool} {elapsed : BitVec 64} (h : Released s c l b elapsed was t) (d k : Nat) :
    t.Has d k ↔ ¬ (d = c ∧ k = l) ∧ s.Has d k := by
  by_cases hd : d = c
  · subst hd
    simp [Spins.Has, h.held, and_comm]
  · simp [Spins.Has, h.held, hd]

namespace SpinOk

theorem acquired {was : Bool} (h : SpinOk s) (ha : Acquired s c l was t) : SpinOk t := by
  have hfree : ∀ d, ¬ s.Has d l := fun d hd => by
    have htaken := (h.taken l).mpr ⟨d, hd⟩
    rw [ha.free] at htaken
    cases htaken
  refine ⟨fun d => ?_, fun k => ?_, fun d e k hd he => ?_, fun d k hk => ?_⟩
  · rw [ha.held]
    by_cases hd : d = c
    · subst hd
      rw [Function.update_self, List.map_cons, List.nodup_cons]
      exact ⟨hfree d, h.nodup d⟩
    · rw [Function.update_of_ne hd]
      exact h.nodup d
  · rw [ha.taken, h.taken]
    constructor
    · rintro (rfl | ⟨d, hd⟩)
      · exact ⟨c, (ha.has c k).mpr (Or.inl ⟨rfl, rfl⟩)⟩
      · exact ⟨d, (ha.has d k).mpr (Or.inr hd)⟩
    · rintro ⟨d, hd⟩
      rcases (ha.has d k).mp hd with ⟨-, hk⟩ | hd
      · exact Or.inl hk
      · exact Or.inr ⟨d, hd⟩
  · rcases (ha.has d k).mp hd with ⟨hdc, rfl⟩ | hd' <;> rcases (ha.has e k).mp he with ⟨hec, hk⟩ | he'
    · rw [hdc, hec]
    · exact absurd he' (hfree e)
    · exact absurd (hk ▸ hd') (hfree d)
    · exact h.one d e k hd' he'
  · rw [ha.pc] at hk
    by_cases hd : d = c
    · subst hd
      simp only [Function.update_self, Pc.own, Option.some.injEq] at hk
      exact (ha.has d k).mpr (Or.inl ⟨rfl, hk.symm⟩)
    · rw [Function.update_of_ne hd] at hk
      exact (ha.has d k).mpr (Or.inr (h.own d k hk))

theorem released {b was : Bool} {elapsed : BitVec 64} (h : SpinOk s) (hr : Released s c l b elapsed was t) :
    SpinOk t := by
  have hmine : s.Has c l := h.own c l (by rw [hr.at_set_taken]; rfl)
  refine ⟨fun d => ?_, fun k => ?_, fun d e k hd he => ?_, fun d k hk => ?_⟩
  · rw [hr.held]
    by_cases hd : d = c
    · subst hd
      rw [Function.update_self]
      exact (h.nodup d).sublist (List.filter_sublist.map _)
    · rw [Function.update_of_ne hd]
      exact h.nodup d
  · rw [hr.taken, h.taken]
    constructor
    · rintro ⟨hk, d, hd⟩
      exact ⟨d, (hr.has d k).mpr ⟨fun hc => hk hc.2, hd⟩⟩
    · rintro ⟨d, hd⟩
      obtain ⟨hne, hd⟩ := (hr.has d k).mp hd
      refine ⟨fun hk => hne ⟨?_, hk⟩, d, hd⟩
      subst hk
      exact h.one d c k hd hmine
  · exact h.one d e k ((hr.has d k).mp hd).2 ((hr.has e k).mp he).2
  · rw [hr.pc] at hk
    by_cases hd : d = c
    · subst hd
      simp [Pc.own] at hk
    · rw [Function.update_of_ne hd] at hk
      exact (hr.has d k).mpr ⟨fun hc => hd hc.1, h.own d k hk⟩

theorem step {a : Nat × LockOp Nat} (h : SpinOk s) (hs : SpinStep s a t) : SpinOk t := by
  obtain ⟨c, o⟩ := a
  cases o with
  | acquire l =>
    obtain ⟨was, ha⟩ := acquired_of_step hs
    exact h.acquired ha
  | release l =>
    obtain ⟨b, elapsed, was, hr⟩ := released_of_step hs
    exact h.released hr
  | internal =>
    cases hs with
    | internal hi => exact h.alone (silent_alone hi)

end SpinOk

/-! ## Locks that are taken in one step -/

/-- Who has which lock. -/
def Owners (s : Spins) (h : Nat → Option Nat) : Prop := SpinOk s ∧ ∀ l c, h l = some c ↔ s.Has c l

theorem owners_step {h : Nat → Option Nat} (ho : Owners s h) (hs : SpinStep s a t) :
    ∃ h', MutexStep h a h' ∧ Owners t h' := by
  obtain ⟨hok, hown⟩ := ho
  obtain ⟨c, o⟩ := a
  have hok' := hok.step hs
  cases o with
  | acquire l =>
    obtain ⟨was, ha⟩ := acquired_of_step hs
    have hnone : h l = none := Option.eq_none_iff_forall_ne_some.mpr fun d hd => by
      have htaken := (hok.taken l).mpr ⟨d, (hown l d).mp hd⟩
      rw [ha.free] at htaken
      cases htaken
    refine ⟨_, .acquire hnone, hok', fun k d => ?_⟩
    rw [ha.has]
    by_cases hk : k = l
    · subst hk
      rw [Function.update_self, ← hown, hnone]
      simp [eq_comm]
    · rw [Function.update_of_ne hk, hown]
      simp [hk]
  | release l =>
    obtain ⟨b, elapsed, was, hr⟩ := released_of_step hs
    have hmine : s.Has c l := hok.own c l (by rw [hr.at_set_taken]; rfl)
    refine ⟨_, .release ((hown l c).mpr hmine), hok', fun k d => ?_⟩
    rw [hr.has]
    by_cases hk : k = l
    · subst hk
      rw [Function.update_self]
      refine iff_of_false (by simp) fun hd => hd.1 ⟨hok.one d c k hd.2 hmine, rfl⟩
    · rw [Function.update_of_ne hk, hown]
      simp [hk]
  | internal =>
    cases hs with
    | internal hi =>
      refine ⟨h, .internal, hok', fun k d => ?_⟩
      rw [hown, Spins.Has, Spins.Has, (silent_alone hi).held]

theorem owners_free (h : Free s) : Owners s fun _ => none :=
  ⟨SpinOk.free h, fun l c => by simp [Spins.Has, h.held]⟩

theorem owners_simulation : Simulation spinSystem (fun _ _ => True) (mutexSystem Nat Nat) Owners where
  init _ h := ⟨fun _ => none, fun _ => rfl, owners_free h⟩
  step _ _ _ _ hR _ hs := owners_step hR hs

/-- **Spin locks.** In whatever order the cores access memory, they take locks as if that were one step. So a core that
gets a lock after another finds that the other gave it back. -/
theorem spin_locks_exclude {k : List (Nat × LockOp Nat)} (h : Free s) (hrun : spinSystem.Run s k t) :
    (∃ owner, (mutexSystem Nat Nat).Run (fun _ => none) k owner ∧ ∀ l c, owner l = some c ↔ t.Has c l) ∧
      ∀ l c d k₁ k₂ k₃, k = k₁ ++ (c, .acquire l) :: k₂ ++ (d, .acquire l) :: k₃ → (c, .release l) ∈ k₂ := by
  obtain ⟨owner, habs, -, howner⟩ :=
    owners_simulation.run (hrun.guarded (fun _ _ => trivial) fun _ _ _ => trivial) (owners_free h)
  refine ⟨⟨owner, habs, howner⟩, fun l c d k₁ k₂ k₃ hk => ?_⟩
  rw [hk] at habs
  exact mutex_excludes habs

/-- Nobody has a lock, and interrupts are on. -/
def unlocked : Spins :=
  ⟨fun _ => ⟨false, 0, false, false⟩, fun _ => .out, fun _ => false, 0, 0, 0, fun _ => [], fun _ => false, []⟩

theorem unlocked_free : Free unlocked :=
  ⟨fun _ => rfl, fun _ => rfl, fun _ => rfl, fun _ => rfl, rfl, rfl, rfl, rfl⟩

theorem spin_locks_exclude_two : ∃ k t owner, spinSystem.Run unlocked k t ∧
    (mutexSystem Nat Nat).Run (fun _ => none) k owner ∧ (0, .release 5) ∈ k ∧ owner 5 = some 1 := by
  have h := System.Run.nil (S := spinSystem) unlocked
  have h := h.snoc (.internal (.lock (c := 0) (l := 5) rfl))
  have h := h.snoc (.internal (.disable (c := 0) rfl))
  have h := h.snoc (.acquire (c := 0) rfl rfl)
  have h := h.snoc (.internal (.set_was_disabled (c := 0) rfl))
  have h := h.snoc (.internal (.set_start (c := 0) (t := 7) rfl))
  have h := h.snoc (.internal (.unlock (c := 0) (l := 5) rfl (List.mem_singleton.mpr rfl)))
  have h := h.snoc (.internal (.get_count_it (c := 0) rfl))
  have h := h.snoc (.internal (.set_count_it (c := 0) rfl))
  have h := h.snoc (.internal (.get_start (c := 0) rfl))
  have h := h.snoc (.internal (.rdtsc (c := 0) (t := 9) rfl))
  have h := h.snoc (.internal (.get_was_disabled (c := 0) rfl))
  have h := h.snoc (.release (c := 0) rfl)
  have h := h.snoc (.internal (.lock (c := 1) (l := 5) rfl))
  have h := h.snoc (.internal (.disable (c := 1) rfl))
  have h := h.snoc (.acquire (c := 1) rfl rfl)
  obtain ⟨owner, howner, hhas⟩ := (spin_locks_exclude unlocked_free h).1
  exact ⟨_, _, owner, h, howner, by simp, (hhas 5 1).mpr (List.mem_singleton.mpr rfl)⟩

end Kernel.Spin
