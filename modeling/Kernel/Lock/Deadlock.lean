import Kernel.Lock.Order
import Kernel.Lock.Switches
import Mathlib.Data.Fintype.Order
import Mathlib.Order.Fin.Basic

/-!
# Spin locks do not deadlock

The invariant of the runs in which no thread comes to a switch in a section
that `Exposes` names: a thread with a spin lock runs on a core, and takes others
in the order of `lockSections` only.
-/

namespace Kernel.Lock

open Lib
open Lib.Cmd (AllWithin AllNest)
open Kernel.Thread (Tid)
open Relation (TransGen)

structure InOrder (s : Locks) : Prop where
  nests : ∀ t, AllNest lockSections (s.thread t).code
  within : ∀ l t, s.holder l = some t → AllWithin lockSections l (s.thread t).code
  running : ∀ l t, s.holder l = some t → ∃ c, s.current c = t

namespace Locks

/-- The lock that the current thread of core `c` is about to take. -/
def wants (s : Locks) (c : Nat) : Option SpinLock :=
  match s.code c with
  | .op (.lock l) :: _ => some l
  | _ => none

/-- Core `c` spins for a lock of the thread on core `d`. -/
def SpinsFor (s : Locks) : Nat → Nat → Prop := WaitsFor s.wants fun d l => s.holder l = some (s.current d)

end Locks

section

variable {s u : Locks} {c n : Nat} {t : Tid} {k : List Code} {l : SpinLock} {o : Op}

/-! ## Steps -/

theorem InOrder.setCode (h : InOrder s) (hk : AllNest lockSections k)
    (hw : ∀ l, s.holder l = some (s.current c) → AllWithin lockSections l k) : InOrder (s.setCode (s.current c) k) where
  nests t := by
    by_cases ht : t = s.current c
    · simpa [ht] using hk
    · simpa [ht] using h.nests t
  within l t hl := by
    by_cases ht : t = s.current c
    · subst ht
      simpa using hw l hl
    · simpa [ht] using h.within l t hl
  running := h.running

theorem InOrder.release (h : InOrder s) (l : SpinLock) : InOrder (s.setHolder l none) := by
  have hold : ∀ m t, (s.setHolder l none).holder m = some t → s.holder m = some t := fun m t hm => by
    rw [Locks.setHolder_holder] at hm
    split at hm
    · cases hm
    · exact hm
  exact ⟨h.nests, fun m t hm => h.within m t (hold m t hm), fun m t hm => h.running m t (hold m t hm)⟩

theorem InOrder.acquire (h : InOrder s) (hl : AllWithin lockSections l (s.code c)) :
    InOrder (s.setHolder l (some (s.current c))) := by
  have hold : ∀ m t, (s.setHolder l (some (s.current c))).holder m = some t →
      (m = l ∧ t = s.current c) ∨ s.holder m = some t := fun m t hm => by
    rw [Locks.setHolder_holder] at hm
    split at hm
    · exact Or.inl ⟨‹_›, (Option.some.inj hm).symm⟩
    · exact Or.inr hm
  refine ⟨h.nests, fun m t hm => ?_, fun m t hm => ?_⟩
  · rcases hold m t hm with ⟨rfl, rfl⟩ | hm
    · exact hl
    · exact h.within m t hm
  · rcases hold m t hm with ⟨-, rfl⟩ | hm
    · exact ⟨c, rfl⟩
    · exact h.running m t hm

theorem InOrder.allows (h : InOrder s) (hc : s.code c = .op o :: k) (hl : s.holder l = some (s.current c))
    (ho : o ≠ .unlock l) : lockSections.allows l o ∧ AllWithin lockSections l k := by
  have hw := h.within l _ hl
  rw [show (s.thread (s.current c)).code = .op o :: k from hc] at hw
  exact hw.op ho

theorem InOrder.next (h : InOrder s) (hc : s.code c = .op o :: k) : AllNest lockSections (.op o :: k) := by
  have hn := h.nests (s.current c)
  rwa [show (s.thread (s.current c)).code = .op o :: k from hc] at hn

theorem InOrder.op (h : InOrder s) (hc : s.code c = .op o :: k) (ho : ∀ l, o ≠ .unlock l) :
    InOrder (s.setCode (s.current c) k) :=
  h.setCode (h.next hc).2 fun l hl => (h.allows hc hl (ho l)).2

theorem Exposes.mono {P Q : SpinLock → Prop} (hPQ : ∀ l, P l → Q l) (h : Exposes P l) : Exposes Q l :=
  h.imp (And.imp_left (hPQ _)) (And.imp_left (hPQ _))

theorem InOrder.unfold {v : Event Op Test} (h : InOrder s) (hu : Cmd.Unfolds (s.Holds c) (s.Reads c) (s.code c) v k)
    (hg : Unexposed s (c, v)) : InOrder (s.setCode (s.current c) k) := by
  have hgives : ∀ r x, s.Reads c r x → lockSections.gives r x := by
    rintro (_ | _) x hx
    · trivial
    · obtain ⟨m, rfl⟩ := hx
      simp [SpinLock.Outer]
  refine h.setCode ((h.nests _).unfold hu hgives) fun l hl => (h.within l _ hl).unfold hu ?_ hgives
  rintro t b rfl
  -- only the wait in a section that `Exposes` names has an outcome that cannot come
  simp only [lockSections_can]
  split
  · refine fun hx => hg (hx.mono fun m hm => ?_)
    rw [hm]
    exact hl
  · trivial

theorem InOrder.plain (h : InOrder s) (hp : Plain Entry.start s u) : InOrder u where
  nests t := by
    rcases hp.code t with ht | ⟨-, e, ht⟩
    · exact ht ▸ h.nests t
    · exact ht ▸ allNest_start e
  within l t hl := by
    rw [hp.holder] at hl
    rcases hp.code t with ht | ⟨hempty, -⟩
    · exact ht ▸ h.within l t hl
    · have hw := h.within l t hl
      rw [hempty] at hw
      exact hw.elim
  running := by
    rw [hp.holder, hp.current]
    exact h.running

theorem InOrder.switch (h : InOrder s) (hc : s.code c = .op .switch :: k) {next : Tid} {f : TCB → TCB}
    (hf : ∀ x, (f x).code = x.code) :
    InOrder ((((s.setCode (s.current c) k).setCurrent c next).modThread next f)) := by
  have hgo := h.op hc fun _ => by simp
  have hcode : ∀ t, ((((s.setCode (s.current c) k).setCurrent c next).modThread next f).thread t).code =
      ((s.setCode (s.current c) k).thread t).code := fun t => by
    rw [Locks.modThread_thread]
    split
    · exact hf _
    · rfl
  refine ⟨fun t => hcode t ▸ hgo.nests t, fun l t hl => hcode t ▸ hgo.within l t hl, fun l t hl => ?_⟩
  obtain ⟨d, hd⟩ := h.running l t hl
  refine ⟨d, ?_⟩
  by_cases hdc : d = c
  · subst hdc
    have hheld : s.holder l = some (s.current d) := by
      rw [hd]
      exact hl
    exact (h.allows hc hheld nofun).1.elim
  · simpa [hdc] using hd

theorem InOrder.step {a : Nat × Event Op Test} (h : InOrder s) (hs : LockStep Entry.start s a u) (hg : Unexposed s a) :
    InOrder u := by
  cases hs with
  | unfold hu => exact h.unfold hu hg
  | @op _ c n o k hc he =>
    cases ho : o with
    | lock l =>
      subst ho
      simp only [Locks.exec] at he
      split at he
      · cases he
        refine (h.op hc fun _ => by simp).acquire ?_
        simpa [Locks.code] using (h.next hc).1 l rfl
      · cases he
    | unlock l =>
      subst ho
      cases he
      refine (h.release l).setCode (c := c) (h.next hc).2 fun m hm => ?_
      rw [Locks.setHolder_holder] at hm
      split at hm
      · cases hm
      · rename_i hne
        exact (h.allows hc hm fun he => hne (Op.unlock.inj he).symm).2
    | set_locked b v =>
      subst ho
      cases he
      have hgo := h.op hc fun _ => by simp
      exact ⟨hgo.nests, hgo.within, hgo.running⟩
    | switch =>
      subst ho
      obtain ⟨next, -, rfl⟩ := Option.map_eq_some_iff.mp he
      exact h.switch hc fun _ => rfl
    | assert | halt =>
      subst ho
      cases he
    | _ => exact (h.op hc fun _ => by simp [ho]).plain (exec_plain (by rw [ho]) he)

/-! ## Runs -/

theorem inOrder_booted (h : Booted core_main s) : InOrder s where
  nests t := by
    cases t with
    | idle c => exact h.idle c ▸ allNest_core_main c
    | thread n => exact h.thread n ▸ trivial
  within l t hl := by
    rw [h.holder l] at hl
    cases hl
  running l t hl := by
    rw [h.holder l] at hl
    cases hl

theorem inOrder_reachable (h : lockSystem.GuardedReachable Unexposed s) : InOrder s := by
  obtain ⟨s₀, l, h₀, hrun⟩ := h
  exact hrun.preserves (I := InOrder) (fun s a u hi hg hs => hi.step hs hg) (inOrder_booted h₀)

theorem Locks.code_of_wants (h : s.wants c = some l) : ∃ k, s.code c = .op (.lock l) :: k := by
  unfold Locks.wants at h
  split at h
  · cases h
    exact ⟨_, ‹_›⟩
  · cases h

instance : DecidablePred SpinLock.Outer := fun _ => inferInstanceAs (Decidable (_ ∨ _))

def SpinLock.rank (l : SpinLock) : Fin 2 := if l.Outer then 0 else 1

theorem InOrder.order (h : InOrder s) (c : Nat) (l m : SpinLock) (hl : s.holder l = some (s.current c))
    (hm : s.wants c = some m) : l.rank < m.rank := by
  obtain ⟨k, hc⟩ := Locks.code_of_wants hm
  obtain ⟨hl, hm⟩ := (h.allows hc hl nofun).1
  simp [SpinLock.rank, hl, hm]

/--
Cores do not spin for each other in a circle, and one that spins waits in the end for a core that has a lock and does
not spin.
-/
theorem spin_locks_in_order (h : lockSystem.GuardedReachable Unexposed s) :
    (∀ c, ¬ TransGen s.SpinsFor c c) ∧
      ∀ c l, s.wants c = some l → s.holder l ≠ none →
        ∃ d, TransGen s.SpinsFor c d ∧ ∀ m, s.wants d = some m → s.holder m = none := by
  have hi := inOrder_reachable h
  have hspins : ∀ c l, s.wants c = some l → s.holder l ≠ none → ∃ d, s.SpinsFor c d := fun c l hl hne => by
    obtain ⟨t, ht⟩ := Option.ne_none_iff_exists'.mp hne
    obtain ⟨d, rfl⟩ := hi.running l t ht
    exact ⟨d, l, hl, ht⟩
  refine ⟨fun c => WaitsFor.acyclic (ρ := Fin 2) hi.order c, fun c l hl hne => ?_⟩
  obtain ⟨d, hd⟩ := hspins c l hl hne
  obtain ⟨e, hce, he⟩ := WaitsFor.ends (ρ := Fin 2) hi.order hd
  refine ⟨e, hce, fun m hm => ?_⟩
  by_contra hne
  obtain ⟨f, hf⟩ := hspins e m hm hne
  exact he f hf

end

/-- Core 0 has the lock of the barrier, and core 1 is about to take it. -/
def spinningLocks : Option Locks := do
  let s ← Locks.drive (Locks.waits · 0) 0 0 2000 initOutcomes bootLocks
  Locks.drive (fun s => s.waits 1 || decide (s.wants 1 = some .start_barrier)) 1 0 2000 initOutcomes s

theorem spinningLocks_reachable {s : Locks} (h : spinningLocks = some s) : lockSystem.GuardedReachable Unexposed s := by
  simp only [spinningLocks, Option.bind_eq_bind, Option.bind_eq_some_iff] at h
  obtain ⟨s₁, h₁, h⟩ := h
  have hreach₁ : lockSystem.GuardedReachable Unexposed s₁ :=
    Locks.drive_guarded (fun _ _ _ hstop => Locks.unexposed_of_waits hstop) ⟨_, _, bootLocks_booted, .nil _⟩ h₁
  exact Locks.drive_guarded (fun _ _ _ hstop => Locks.unexposed_of_waits (Bool.or_eq_false_iff.mp hstop).1) hreach₁ h

theorem spinningLocks_wants :
    (spinningLocks.map fun s => decide (s.wants 1 = some .start_barrier ∧ s.holder .start_barrier = some (.idle 0))) =
      some true := by decide +kernel

theorem spinningLocks_in_order : ∃ (s : Locks) (d : Nat), s.wants 1 = some .start_barrier ∧
    s.holder .start_barrier = some (.idle 0) ∧ TransGen s.SpinsFor 1 d ∧ ∀ m, s.wants d = some m →
      s.holder m = none := by
  obtain ⟨s, hs, hspins⟩ := Option.map_eq_some_iff.mp spinningLocks_wants
  obtain ⟨hwants, hholder⟩ := of_decide_eq_true hspins
  have hne : s.holder .start_barrier ≠ none := by simp [hholder]
  obtain ⟨d, hd, hends⟩ := (spin_locks_in_order (spinningLocks_reachable hs)).2 1 .start_barrier hwants hne
  exact ⟨s, d, hwants, hholder, hd, hends⟩

end Kernel.Lock
