import Kernel.Lock.Functions
import Mathlib.Logic.Function.Basic

/-!
# Every thread has the locks that its code says it has

The invariant of the runs in which no thread comes to a switch in a section
that `Exposes` names.
-/

namespace Kernel.Lock

open Lib
open Lib.Cmd (Flows)
open Kernel.Thread (Tid Action)

/-- Every thread has the locks that its code says it has. -/
structure LocksOk (s : Locks) (h : Tid → Held) : Prop where
  flows : ∀ t, Flows rules .none (s.thread t).code (h t)
  holder : ∀ l t, s.holder l = some t ↔ l ∈ (h t).spins
  spins : ∀ t, (h t).spins.Nodup
  locked : ∀ t b, b ∈ (h t).blocks → s.locked b = true
  blocks : ∀ t, (h t).blocks.Nodup
  apart : ∀ t u b, b ∈ (h t).blocks → b ∈ (h u).blocks → t = u
  seen : ∀ t b, (h t).seen = some b → s.locked b = false ∧ .spin b ∈ (h t).spins
  running : ∀ t, (∀ c, s.current c ≠ t) → (h t).spins = []

/-- The step does not go on to a switch in a section that `Exposes` names. -/
def Unexposed (s : Locks) : Nat × Event Op Test → Prop
  | (c, .test (.next (some l)) true) => ¬ Exposes (fun m => s.holder m = some (s.current c)) l
  | _ => True

section

variable {s u : Locks} {h : Tid → Held} {c n : Nat} {t : Tid} {k : List Code} {m : Held}

theorem LocksOk.flows_setCode (hok : LocksOk s h) (hk : Flows rules .none k m) (w : Tid) :
    Flows rules .none ((s.setCode t k).thread w).code (Function.update h t m w) := by
  by_cases hw : w = t
  · subst hw
    simpa [Locks.setCode] using hk
  · simpa [Locks.setCode, hw] using hok.flows w

/-! ## Steps without an operation -/

theorem learn_cases {h m : Held} {x : Test} {v : Bool} (hm : h.learn x v = some m) :
    m.spins = h.spins ∧ m.blocks = h.blocks ∧
      (m.seen = h.seen ∨ m.seen = none ∨ ∃ b, x = .locked b ∧ v = false ∧ m.seen = some b ∧ .spin b ∈ h.spins) := by
  unfold Held.learn at hm
  split at hm
  · cases hm
  · split at hm
    · cases hm
    · cases hm
      exact ⟨rfl, rfl, Or.inl rfl⟩
  · rename_i b
    split at hm
    · cases hm
    · cases hm
      refine ⟨rfl, rfl, Or.inr ?_⟩
      by_cases hb : .spin b ∈ h.spins
      · exact Or.inr ⟨b, rfl, rfl, if_pos hb, hb⟩
      · exact Or.inl (if_neg hb)
  · cases hm
    exact ⟨rfl, rfl, Or.inl rfl⟩

theorem LocksOk.learns (hok : LocksOk s h) {x : Test} {v : Bool} (hx : s.Holds c x v)
    (hg : Unexposed s (c, .test x v)) : ∃ m, (h (s.current c)).learn x v = some m := by
  unfold Held.learn
  split
  · cases hx true rfl
  · rename_i l
    have hne : ¬ Exposes (· ∈ (h (s.current c)).spins) l := by
      simpa only [Unexposed, hok.holder] using hg
    exact ⟨_, if_neg hne⟩
  · rename_i b
    have hb : b ∉ (h (s.current c)).blocks := fun hb => by
      have hv := hx (s.locked b) rfl
      rw [hok.locked _ b hb] at hv
      cases hv
    exact ⟨_, if_neg hb⟩
  · exact ⟨_, rfl⟩

theorem LocksOk.learn (hok : LocksOk s h) (hk : Flows rules .none k m) (hspins : m.spins = (h (s.current c)).spins)
    (hblocks : m.blocks = (h (s.current c)).blocks)
    (hseen : ∀ b, m.seen = some b → s.locked b = false ∧ .spin b ∈ m.spins) :
    LocksOk (s.setCode (s.current c) k) (Function.update h (s.current c) m) := by
  have hs : ∀ w, (Function.update h (s.current c) m w).spins = (h w).spins := fun w => by
    by_cases hw : w = s.current c
    · rw [hw, Function.update_self, hspins]
    · rw [Function.update_of_ne hw]
  have hb : ∀ w, (Function.update h (s.current c) m w).blocks = (h w).blocks := fun w => by
    by_cases hw : w = s.current c
    · rw [hw, Function.update_self, hblocks]
    · rw [Function.update_of_ne hw]
  refine ⟨hok.flows_setCode hk, ?_, ?_, ?_, ?_, ?_, fun w b hw => ?_, ?_⟩
  · simpa only [hs, Locks.setCode_holder] using hok.holder
  · simpa only [hs] using hok.spins
  · simpa only [hb, Locks.setCode_locked] using hok.locked
  · simpa only [hb] using hok.blocks
  · simpa only [hb] using hok.apart
  · by_cases hc : w = s.current c
    · rw [hc, Function.update_self] at hw ⊢
      exact hseen b hw
    · rw [Function.update_of_ne hc] at hw ⊢
      exact hok.seen w b hw
  · simpa only [hs, Locks.setCode_current] using hok.running

theorem LocksOk.unfold (hok : LocksOk s h) {v : Event Op Test}
    (hu : Cmd.Unfolds (s.Holds c) (s.Reads c) (s.code c) v k) (hg : Unexposed s (c, v)) :
    ∃ h', LocksOk (s.setCode (s.current c) k) h' := by
  obtain ⟨m, hk, rfl | ⟨x, b, rfl, hm⟩⟩ := (hok.flows (s.current c)).unfold hu fun x b hv => by
    subst hv
    exact hok.learns (hu.holds rfl) hg
  · exact ⟨_, hok.learn hk rfl rfl fun b hb => hok.seen _ b hb⟩
  · obtain ⟨hspins, hblocks, hseen⟩ := learn_cases hm
    refine ⟨_, hok.learn hk hspins hblocks fun d hd => ?_⟩
    rcases hseen with he | he | ⟨e, rfl, rfl, he, hmem⟩
    · rw [he] at hd
      rw [hspins]
      exact hok.seen _ d hd
    · rw [he] at hd
      cases hd
    · rw [he] at hd
      cases hd
      rw [hspins]
      exact ⟨(hu.holds rfl (s.locked d) rfl).symm, hmem⟩

/-! ## Operations -/

/-- What an operation that is plain does to the state, as far as it matters to locks. -/
structure Plain (start : Entry → List Code) (s u : Locks) : Prop where
  holder : u.holder = s.holder
  locked : u.locked = s.locked
  current : u.current = s.current
  code : ∀ t, (u.thread t).code = (s.thread t).code ∨ (s.thread t).code = [] ∧ ∃ e, (u.thread t).code = start e

theorem plain_modThread {start : Entry → List Code} {w : Locks} {f : TCB → TCB} (hw : Plain start s w)
    (hf : ∀ x, (f x).code = x.code) : Plain start s (w.modThread t f) := by
  refine ⟨hw.holder, hw.locked, hw.current, fun v => ?_⟩
  have hcode : ((w.modThread t f).thread v).code = (w.thread v).code := by
    rw [Locks.modThread_thread]
    split
    · exact hf _
    · rfl
  rw [hcode]
  exact hw.code v

theorem exec_plain {start : Entry → List Code} {o : Op} (ho : o.plain = true) (he : s.exec start c n o = some u) :
    Plain start s u := by
  have hself : ∀ w : Locks, w.holder = s.holder → w.locked = s.locked → w.current = s.current → w.thread = s.thread →
      Plain start s w := fun w hh hl hc ht => ⟨hh, hl, hc, fun v => Or.inl (by rw [ht])⟩
  cases o with
  | lock | unlock | set_locked | switch | assert | halt => cases ho
  | take q =>
    simp only [Locks.exec] at he
    split at he
    · cases he
    · cases he
      exact plain_modThread (hself _ rfl rfl rfl rfl) fun _ => rfl
  | alloc e =>
    simp only [Locks.exec] at he
    split at he
    · rename_i hempty
      cases he
      refine plain_modThread ⟨rfl, rfl, rfl, fun v => ?_⟩ fun _ => rfl
      by_cases hv : v = .thread n
      · subst hv
        exact Or.inr ⟨List.isEmpty_iff.mp hempty, e, by simp⟩
      · exact Or.inl (by simp [hv])
    · cases he
  | _ =>
    cases he
    first
      | exact plain_modThread (hself _ rfl rfl rfl rfl) fun _ => rfl
      | exact hself _ rfl rfl rfl rfl

theorem LocksOk.blank (hok : LocksOk s h) (ht : (s.thread t).code = []) : h t = .none := by
  have hflows := hok.flows t
  rw [ht] at hflows
  exact hflows

theorem LocksOk.plain (hok : LocksOk s h) (hp : Plain Entry.start s u) : LocksOk u h where
  flows t := by
    rcases hp.code t with ht | ⟨hempty, e, ht⟩
    · rw [ht]
      exact hok.flows t
    · rw [ht, hok.blank hempty]
      exact flows_start e
  holder := by
    rw [hp.holder]
    exact hok.holder
  spins := hok.spins
  locked := by
    rw [hp.locked]
    exact hok.locked
  blocks := hok.blocks
  apart := hok.apart
  seen := by
    rw [hp.locked]
    exact hok.seen
  running := by
    rw [hp.current]
    exact hok.running

attribute [local grind =] Function.update_apply Locks.setHolder_holder Locks.setHolder_locked Locks.setLocked_holder
  Locks.setLocked_locked Locks.setCode_holder Locks.setCode_locked

section

variable {S : List SpinLock} {B : List BlockingLock} {e : Option BlockingLock} {l : SpinLock} {b : BlockingLock}

theorem LocksOk.running_update (hok : LocksOk s h) {w : Tid} (hw : ∀ d, s.current d ≠ w) :
    (Function.update h (s.current c) m w).spins = [] := by
  rw [Function.update_of_ne (hw c).symm]
  exact hok.running w hw

theorem LocksOk.lock (hok : LocksOk s h) (ht : h (s.current c) = ⟨S, B, e⟩) (hk : Flows rules .none k ⟨l :: S, B, none⟩)
    (hfree : s.holder l = none) :
    LocksOk ((s.setCode (s.current c) k).setHolder l (some (s.current c)))
      (Function.update h (s.current c) ⟨l :: S, B, none⟩) := by
  have ⟨_, hholder, hspins, hlocked, hblocks, happart, hseen, _⟩ := hok
  refine ⟨hok.flows_setCode hk, ?_, ?_, ?_, ?_, ?_, ?_, fun w => hok.running_update⟩
  all_goals grind

theorem LocksOk.unlock (hok : LocksOk s h) (ht : h (s.current c) = ⟨l :: S, B, e⟩)
    (hk : Flows rules .none k ⟨S, B, none⟩) :
    LocksOk ((s.setCode (s.current c) k).setHolder l none) (Function.update h (s.current c) ⟨S, B, none⟩) := by
  have hheld : s.holder l = some (s.current c) := (hok.holder l _).mpr (by
    rw [ht]
    exact List.mem_cons_self)
  have ⟨_, hholder, hspins, hlocked, hblocks, happart, hseen, _⟩ := hok
  refine ⟨hok.flows_setCode hk, ?_, ?_, ?_, ?_, ?_, ?_, fun w => hok.running_update⟩
  all_goals grind

/-- No other thread has seen `b` free, for that takes the spin lock. -/
theorem LocksOk.set_locked (hok : LocksOk s h) (ht : h (s.current c) = ⟨S, B, some b⟩)
    (hk : Flows rules .none k ⟨S, b :: B, none⟩) :
    LocksOk ((s.setCode (s.current c) k).setLocked b true) (Function.update h (s.current c) ⟨S, b :: B, none⟩) := by
  have ⟨_, hholder, hspins, hlocked, hblocks, happart, hseen, _⟩ := hok
  refine ⟨hok.flows_setCode hk, ?_, ?_, ?_, ?_, ?_, ?_, fun w => hok.running_update⟩
  all_goals grind

theorem LocksOk.clear_locked (hok : LocksOk s h) (ht : h (s.current c) = ⟨S, b :: B, e⟩)
    (hk : Flows rules .none k ⟨S, B, none⟩) :
    LocksOk ((s.setCode (s.current c) k).setLocked b false) (Function.update h (s.current c) ⟨S, B, none⟩) := by
  have ⟨_, hholder, hspins, hlocked, hblocks, happart, hseen, _⟩ := hok
  refine ⟨hok.flows_setCode hk, ?_, ?_, ?_, ?_, ?_, ?_, fun w => hok.running_update⟩
  all_goals grind

theorem LocksOk.switch (hok : LocksOk s h) (ht : h (s.current c) = ⟨[], B, e⟩) (hk : Flows rules .none k ⟨[], B, e⟩)
    {next : Tid} {f : TCB → TCB} (hf : ∀ x, (f x).code = x.code) :
    LocksOk ((((s.setCode (s.current c) k).setCurrent c next).modThread next f)) h := by
  have hsame : Function.update h (s.current c) ⟨[], B, e⟩ = h := by
    rw [← ht, Function.update_eq_self]
  refine ⟨fun w => ?_, hok.holder, hok.spins, hok.locked, hok.blocks, hok.apart, hok.seen, fun w hw => ?_⟩
  · have hflows := hok.flows_setCode (t := s.current c) hk w
    rw [hsame] at hflows
    rw [Locks.modThread_thread]
    split
    · rw [hf]
      exact hflows
    · exact hflows
  · by_cases hout : w = s.current c
    · rw [hout, ht]
    · refine hok.running w fun d hd => ?_
      by_cases hdc : d = c
      · rw [hdc] at hd
        exact hout hd.symm
      · refine hw d ?_
        rw [← hd]
        simp [hdc]

end

/-! ## Runs -/

theorem LocksOk.step {a : Nat × Event Op Test} (hok : LocksOk s h) (hs : LockStep Entry.start s a u)
    (hg : Unexposed s a) : ∃ h', LocksOk u h' := by
  cases hs with
  | unfold hu => exact hok.unfold hu hg
  | @op _ c n o k hc he =>
    have hflows := hok.flows (s.current c)
    rw [show (s.thread (s.current c)).code = .op o :: k from hc] at hflows
    obtain ⟨m, hdoes, hk⟩ := hflows
    generalize ht : h (s.current c) = i at hdoes
    cases (hdoes : Held.Does i o m) with
    | lock =>
      simp only [Locks.exec] at he
      split at he
      · rename_i hfree
        cases he
        exact ⟨_, hok.lock ht hk hfree⟩
      · cases he
    | unlock =>
      cases he
      exact ⟨_, hok.unlock ht hk⟩
    | set_locked =>
      cases he
      exact ⟨_, hok.set_locked ht hk⟩
    | clear_locked =>
      cases he
      exact ⟨_, hok.clear_locked ht hk⟩
    | switch =>
      obtain ⟨next, -, rfl⟩ := Option.map_eq_some_iff.mp he
      exact ⟨_, hok.switch ht hk fun _ => rfl⟩
    | halt => cases he
    | plain ho =>
      have hself : LocksOk (s.setCode (s.current c) k) (Function.update h (s.current c) m) :=
        hok.learn hk (by rw [ht]) (by rw [ht]) fun b hb => by
          rw [← ht] at hb ⊢
          exact hok.seen _ b hb
      exact ⟨_, hself.plain (exec_plain ho he)⟩

theorem locksOk_booted (h : Booted core_main s) : LocksOk s fun _ => .none where
  flows t := by
    cases t with
    | idle c =>
      rw [h.idle c]
      exact flows_core_main c
    | thread n =>
      rw [h.thread n]
      rfl
  holder l t := by
    rw [h.holder l]
    simp [Held.none]
  spins _ := List.nodup_nil
  locked _ _ hb := absurd hb List.not_mem_nil
  blocks _ := List.nodup_nil
  apart _ _ _ hb := absurd hb List.not_mem_nil
  seen _ _ hb := by cases hb
  running _ _ := rfl

theorem locksOk_reachable (h : lockSystem.GuardedReachable Unexposed s) : ∃ i, LocksOk s i := by
  obtain ⟨s₀, l, h₀, hrun⟩ := h
  exact hrun.preserves (I := fun s => ∃ i, LocksOk s i) (fun s a u ⟨i, hi⟩ hg hs => hi.step hs hg)
    ⟨_, locksOk_booted h₀⟩

end

end Kernel.Lock
