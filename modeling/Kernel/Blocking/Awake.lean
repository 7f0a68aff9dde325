import Kernel.Blocking.Waiters

/-!
# Threads that are not parked

A thread on its way to a value that is to be had is ready or runs, or its
`post_switch` makes it ready again.
-/

namespace Kernel.Blocking

open Lib Kernel.Thread

variable {V : Type} {K : Kind V} {k : Nat} {m : Monitor V} {n : Nat} {t : Tid}

/-- The thread is not in a waiting queue, and is not put in one before it runs again. -/
inductive Awake (s : Threads) : Tid → Prop where
  | ready {n : Nat} : n ∈ s.readyQueue → Awake s (.thread n)
  /-- A core has removed the thread from a queue, to switch to it or to make it ready. -/
  | removed {c n : Nat} : n ∈ s.cell (.next c) ∨ n ∈ s.cell (.notified c) → Awake s (.thread n)
  | running {c : Nat} {t : Tid} : s.current c = t → Awake s t
  | requeue {c n : Nat} : s.stage c = .requeue n → Awake s (.thread n)
  /-- Its `post_switch` is still to come. -/
  | pending {c n : Nat} : s.stage c = .post (.thread n) →
      (s.tcb (.thread n)).action = .ready ∨
        (s.tcb (.thread n)).action = .wait ∧
          (s.cond (s.tcb (.thread n)).cond).epoch ≠ (s.tcb (.thread n)).cond_epoch → Awake s (.thread n)

/-- The thread is inside of `lock` or `down`, and is not parked. If it is in `wait`, a notification has come since. -/
structure Coming (m : Monitor V) (k : Nat) (t : Tid) : Prop where
  phase : m.phase t = .acquire ∨ m.phase t = .testing ∨ m.phase t = .waiting
  awake : Awake m.threads t
  notified : ∀ n, t = .thread n → m.phase t = .waiting →
    (m.threads.tcb (.thread n)).captured < (m.threads.cond k).notes

/-- No thread whose `post_switch` is still to come has missed `2 ^ 64` notifications. -/
def FewMissed (s : Threads) : Prop := ∀ c, FewNotes s (c, .post)

theorem WaitersOk.notified (h : WaitersOk K k m) (hok : MonitorOk K k m) (hpos : 0 < K.avail m.value)
    (hp : m.phase (.thread n) = .waiting) : (m.threads.tcb (.thread n)).captured < (m.threads.cond k).notes := by
  have hseen := (h.notes.seen n k ((hok.waiting _).1 hp)).2
  refine Nat.lt_of_le_of_ne hseen fun heq => ?_
  rw [h.stale n hp heq] at hpos
  exact Nat.lt_irrefl _ hpos

theorem WaitersOk.pending (h : WaitersOk K k m) (hok : MonitorOk K k m) (hfew : FewMissed m.threads)
    (hpos : 0 < K.avail m.value) (hp : m.phase (.thread n) ≠ .none) {c : Nat} (hn : n ∈ m.threads.cell (.pending c)) :
    Awake m.threads (.thread n) := by
  have hstage := (hok.threads.core c).stage
  cases hg : m.threads.stage c with
  | post prev =>
    rw [(Threads.cell_stage hg).2.2, Stage.pending, Tid.mem_threads] at hn
    subst hn
    rw [show (m.threads.core c).stage = .post (.thread n) from hg] at hstage
    obtain ⟨⟨hnone, hwait, -⟩, -⟩ := hstage
    refine .pending hg ?_
    cases ha : (m.threads.tcb (.thread n)).action with
    | ready => exact Or.inl rfl
    | stop => exact absurd ha (hok.leaves n hp ⟨c, Or.inr hg⟩)
    | none => cases hnone.1 ha
    | wait =>
      have hin := hwait ha
      have hcond := hok.inside _ _ hp hin
      rw [hcond] at hin ⊢
      have hlt := hfew c n hg ha
      rw [hcond] at hlt
      exact Or.inr ⟨rfl, h.notes.missed hin (h.notified hok hpos ((hok.waiting _).2 hin)) hlt⟩
  | requeue p =>
    rw [(Threads.cell_stage hg).2.2, Stage.pending, List.mem_singleton] at hn
    subst hn
    exact .requeue hg
  | _ =>
    rw [(Threads.cell_stage hg).2.2] at hn
    cases hn

theorem Monitor.Eager.coming (he : m.Eager k t) (h : WaitersOk K k m) (hok : MonitorOk K k m)
    (hfew : FewMissed m.threads) (hpos : 0 < K.avail m.value) : Coming m k t := by
  have hp : m.phase t ≠ .none := by
    intro hnone
    have hphase := he.phase
    simp [hnone] at hphase
  refine ⟨he.phase, ?_, ?_⟩
  · cases t with
    | idle d => exact .running (hok.idle d hp).1
    | thread n =>
      obtain ⟨halive, hreaper, hcreator, hreaping⟩ := hok.held n hp
      obtain ⟨p, hn⟩ := (hok.threads.placed.held n).mp halive
      cases p with
      | ready => exact .ready hn
      | waiting j =>
        have hin := hok.threads.waiting n j hn
        obtain rfl := hok.inside _ _ hp hin
        exact absurd rfl (he.unparked n hn)
      | reaper => exact absurd hn hreaper
      | creator w => exact absurd hn (hcreator w)
      | reaping w => exact absurd hn (hreaping w)
      | next c => exact .removed (Or.inl hn)
      | notified c => exact .removed (Or.inr hn)
      | running c => exact .running (Tid.mem_threads.mp hn)
      | pending c => exact h.pending hok hfew hpos hp hn
  · rintro n rfl hw
    exact h.notified hok hpos hw

theorem WaitersOk.coming (h : WaitersOk K k m) (hok : MonitorOk K k m) (hfew : FewMissed m.threads)
    (hparked : (m.threads.cond k).waiting ≠ []) :
    ∃ F : Finset Tid, (∀ t ∈ F, Coming m k t) ∧ K.avail m.value ≤ F.card := by
  rcases Nat.eq_zero_or_pos (K.avail m.value) with hzero | hpos
  · exact ⟨∅, by simp, by omega⟩
  · obtain ⟨F, hF, hcard⟩ := h.eager hparked
    exact ⟨F, fun t ht => (hF t ht).coming h hok hfew hpos, hcard⟩

end Kernel.Blocking
