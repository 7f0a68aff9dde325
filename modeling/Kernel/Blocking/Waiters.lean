import Kernel.Blocking.Runs
import Mathlib.Data.Finset.Card

/-!
# Threads that wait for a lock or a semaphore

A notification wakes one thread, which may find that another has come first.
While the queue is not empty there are as many threads on their way as the
value is to be had.
-/

namespace Kernel.Blocking

open Lib Kernel.Thread

variable {V : Type} {K : Kind V} {k : Nat} {m m' : Monitor V} {c n : Nat} {o : MonitorOp} {t w : Tid}

/-- The thread is on its way to take, and not in the queue. -/
structure Monitor.Eager (m : Monitor V) (k : Nat) (t : Tid) : Prop where
  phase : m.phase t = .acquire ∨ m.phase t = .testing ∨ m.phase t = .waiting
  unparked : ∀ n ∈ (m.threads.cond k).waiting, t ≠ .thread n

/-- There are `v` such threads. -/
def Monitor.EagerFor (m : Monitor V) (k v : Nat) : Prop := ∃ F : Finset Tid, (∀ t ∈ F, m.Eager k t) ∧ v ≤ F.card

structure WaitersOk (K : Kind V) (k : Nat) (m : Monitor V) : Prop where
  notes : NotesOk m.threads
  /-- A thread that has missed no notification has nothing to take. -/
  stale : ∀ n, m.phase (.thread n) = .waiting →
    (m.threads.tcb (.thread n)).captured = (m.threads.cond k).notes → K.avail m.value = 0
  eager : (m.threads.cond k).waiting ≠ [] → m.EagerFor k (K.avail m.value)

theorem WaitersOk.notes_next (h : WaitersOk K k m) (hok : MonitorOk K k m) (hs : MonitorStep K k m (c, o) m') :
    NotesOk m'.threads := by
  rcases threads_step hs with ⟨heq, -⟩ | ⟨o', hstep, -⟩
  · rw [heq]
    exact h.notes
  · exact h.notes.step hok.threads hstep

theorem captured_next (hok : MonitorOk K k m) (hs : MonitorStep K k m (c, o) m')
    (hp : m.phase (.thread n) = .waiting) :
    (m'.threads.tcb (.thread n)).captured = (m.threads.tcb (.thread n)).captured := by
  rcases threads_step hs with ⟨heq, -⟩ | ⟨o', hstep, -⟩
  · rw [heq]
  · rcases hok.threads.call_step hstep n with ⟨-, -, hcap, -⟩ | ⟨hnone, -⟩
    · exact hcap
    · rw [(hok.waiting _).1 hp] at hnone
      cases hnone

theorem queue_next (hs : MonitorStep K k m (c, o) m') (ho : o ≠ .give) :
    (m'.threads.cond k).notes = (m.threads.cond k).notes ∧
      ((m'.threads.cond k).waiting = (m.threads.cond k).waiting ∨ ∃ p, m.threads.stage c = .post (.thread p) ∧
        (m.threads.tcb (.thread p)).action = .wait ∧ (m.threads.tcb (.thread p)).cond = k ∧
        (m.threads.cond k).epoch = (m.threads.tcb (.thread p)).cond_epoch ∧ o = .other .post) := by
  rcases threads_step hs with ⟨heq, -⟩ | ⟨o', hstep, -, -, hall, hone, hpost, -⟩
  · rw [heq]
    exact ⟨rfl, Or.inl rfl⟩
  · obtain ⟨hnotes, hw | ⟨p, hg, ha, hc, he, hpo, -⟩⟩ := cond_step hstep (fun h => ho (hone h)) hall
    · exact ⟨hnotes, Or.inl hw⟩
    · exact ⟨hnotes, Or.inr ⟨p, hg, ha, hc, he, hpost hpo⟩⟩

theorem give_cond (hs : MonitorStep K k m (c, .give) m') :
    m'.threads.cond k = (m.threads.cond k).notify (m.threads.cond k).waiting.tail := by
  cases hs with
  | give hp hs =>
    cases hs with
    | notify_one => exact if_pos rfl

theorem WaitersOk.stale_next (h : WaitersOk K k m) (hok : MonitorOk K k m) (hs : MonitorStep K k m (c, o) m') (n : Nat)
    (hp : m'.phase (.thread n) = .waiting)
    (hc : (m'.threads.tcb (.thread n)).captured = (m'.threads.cond k).notes) : K.avail m'.value = 0 := by
  -- The thread was in `wait` before, and no notification has come since.
  have hold : o ≠ .give → m.phase (.thread n) = .waiting → K.avail m.value = 0 := by
    intro ho hp
    rw [captured_next hok hs hp, (queue_next hs ho).1] at hc
    exact h.stale n hp hc
  have hother : ∀ p, p ≠ .waiting → Function.update m.phase (m.current c) p (.thread n) = .waiting →
      m.phase (.thread n) = .waiting := by
    intro p hpw hw
    by_cases hcur : Tid.thread n = m.current c
    · rw [hcur, Function.update_self] at hw
      exact absurd hw hpw
    · rwa [Function.update_of_ne hcur] at hw
  cases hs with
  | call hr | call_give hr =>
    obtain rfl : m.current c = _ := hr.current
    exact hold (by simp) (hother _ (by simp) hp)
  | acquire | retry | relock | release => exact hold (by simp) (hother _ (by simp) hp)
  | other => exact hold (by simp) hp
  | wait _ hb => exact (K.blocked_iff _).1 hb
  | take _ hb =>
    have hzero := hold (by simp) (hother _ (by simp) hp)
    rw [← K.blocked_iff, hb] at hzero
    cases hzero
  | give hg hs =>
    have hw := hother _ (by simp) hp
    have hseen := (h.notes.seen n k ((hok.waiting _).1 hw)).2
    have hstep : MonitorStep K k m (c, .give) _ := .give hg hs
    rw [captured_next hok hstep hw, give_cond hstep] at hc
    exact absurd hc (Nat.ne_of_lt (Nat.lt_succ_of_le hseen))

theorem Monitor.EagerFor.mono {v v' : Nat} (h : m.EagerFor k v) (hm : ∀ t, m.Eager k t → m'.Eager k t) (hv : v' ≤ v) :
    m'.EagerFor k v' := by
  obtain ⟨F, hF, hcard⟩ := h
  exact ⟨F, fun t ht => hm t (hF t ht), Nat.le_trans hv hcard⟩

theorem Monitor.EagerFor.zero : m.EagerFor k 0 := ⟨∅, by simp, Nat.zero_le _⟩

theorem WaitersOk.parks (h : WaitersOk K k m) (hok : MonitorOk K k m) {p : Nat}
    (hg : m.threads.stage c = .post (.thread p))
    (ha : (m.threads.tcb (.thread p)).action = .wait) (hc : (m.threads.tcb (.thread p)).cond = k)
    (he : (m.threads.cond k).epoch = (m.threads.tcb (.thread p)).cond_epoch) (hfew : FewGives m (c, .other .post)) :
    K.avail m.value = 0 := by
  have hstage := (hok.threads.core c).stage
  rw [show (m.threads.core c).stage = .post (.thread p) from hg] at hstage
  have hin : m.threads.inside (.thread p) = some k := by
    rw [← hc]
    exact hstage.1.2.1 ha
  have hlt := hfew p hg ha
  rw [hc] at hlt
  refine h.stale p ((hok.waiting _).2 hin) (Nat.le_antisymm (h.notes.seen p k hin).2
    (Nat.le_of_not_lt fun hmissed => ?_))
  exact h.notes.missed hin hmissed hlt he

theorem Monitor.Eager.next (h : m.Eager k t) (hs : MonitorStep K k m (c, o) m') (ht : t ≠ m.current c)
    (hw : (m'.threads.cond k).waiting ⊆ (m.threads.cond k).waiting) : m'.Eager k t := by
  refine ⟨?_, fun n hn => h.unparked n (hw hn)⟩
  rw [(phase_step hs ht).1]
  exact h.phase

theorem Monitor.Eager.keep (hs : MonitorStep K k m (c, o) m')
    (hw : (m'.threads.cond k).waiting = (m.threads.cond k).waiting)
    (hown : m.Eager k (m.current c) → m'.phase (m.current c) = .acquire ∨ m'.phase (m.current c) = .testing ∨
      m'.phase (m.current c) = .waiting) (h : m.Eager k t) : m'.Eager k t := by
  by_cases ht : t = m.current c
  · subst ht
    refine ⟨hown h, ?_⟩
    rw [hw]
    exact h.unparked
  · exact h.next hs ht (by rw [hw]; exact List.Subset.refl _)

theorem Monitor.EagerFor.take {v : Nat} (h : m.EagerFor k (v + 1)) (hs : MonitorStep K k m (c, .take) m')
    (hw : (m'.threads.cond k).waiting = (m.threads.cond k).waiting) : m'.EagerFor k v := by
  obtain ⟨F, hF, hcard⟩ := h
  refine ⟨F.erase (m.current c), fun t ht => ?_, ?_⟩
  · obtain ⟨hne, hmem⟩ := Finset.mem_erase.1 ht
    exact (hF t hmem).next hs hne (by rw [hw]; exact List.Subset.refl _)
  · have hle := Finset.pred_card_le_card_erase (s := F) (a := m.current c)
    omega

theorem WaitersOk.eager_give (h : WaitersOk K k m) (hok : MonitorOk K k m) (hs : MonitorStep K k m (c, .give) m')
    (hne : (m'.threads.cond k).waiting ≠ []) : m'.EagerFor k (K.avail m'.value) := by
  have hcond := give_cond hs
  have hwaiting : (m'.threads.cond k).waiting = (m.threads.cond k).waiting.tail := by
    rw [hcond]
    rfl
  obtain ⟨n, rest, hw⟩ : ∃ n rest, (m.threads.cond k).waiting = n :: rest := by
    cases hq : (m.threads.cond k).waiting with
    | nil =>
      rw [hwaiting, hq] at hne
      exact absurd rfl hne
    | cons n rest => exact ⟨n, rest, rfl⟩
  rw [hw, List.tail_cons] at hwaiting
  have hmem : n ∈ (m.threads.cond k).waiting := by
    rw [hw]
    exact List.mem_cons_self
  have hnodup : (n :: rest).Nodup := by
    rw [← hw]
    exact hok.threads.placed.nodup (.waiting k)
  have hnphase : m.phase (.thread n) = .waiting := (hok.waiting _).2 (hok.threads.waiting n k hmem)
  obtain ⟨hgiving, hvalue⟩ : m.phase (m.current c) = .giving ∧ m'.value = K.give m.value := by
    cases hs with
    | give hp hs => exact ⟨hp, rfl⟩
  have hncur : Tid.thread n ≠ m.current c := by
    intro heq
    rw [heq, hgiving] at hnphase
    cases hnphase
  obtain ⟨F, hF, hcard⟩ := h.eager (by rw [hw]; simp)
  have hnot : Tid.thread n ∉ F := fun hn => (hF _ hn).unparked n hmem rfl
  have hsub : (m'.threads.cond k).waiting ⊆ (m.threads.cond k).waiting := by
    rw [hwaiting, hw]
    exact List.subset_cons_self ..
  refine ⟨insert (.thread n) F, fun t ht => ?_, ?_⟩
  · rcases Finset.mem_insert.1 ht with rfl | ht
    · refine ⟨Or.inr (Or.inr ?_), fun j hj heq => ?_⟩
      · rw [(phase_step hs hncur).1, hnphase]
      · obtain rfl := Tid.thread.inj heq
        rw [hwaiting] at hj
        exact (List.nodup_cons.1 hnodup).1 hj
    · refine (hF t ht).next hs ?_ hsub
      rintro rfl
      have hphase := (hF _ ht).phase
      rw [hgiving] at hphase
      simp at hphase
  · rw [Finset.card_insert_of_notMem hnot, hvalue]
    exact Nat.le_trans (K.avail_give _) (Nat.succ_le_succ hcard)

theorem WaitersOk.eager_next (h : WaitersOk K k m) (hok : MonitorOk K k m) (hs : MonitorStep K k m (c, o) m')
    (hfew : FewGives m (c, o)) (hne : (m'.threads.cond k).waiting ≠ []) : m'.EagerFor k (K.avail m'.value) := by
  by_cases ho : o = .give
  · subst ho
    exact h.eager_give hok hs hne
  rcases (queue_next hs ho).2 with hw | ⟨p, hg, ha, hc, he, rfl⟩
  · rw [hw] at hne
    have heager := h.eager hne
    have hkeep := fun hown => heager.mono (fun t => Monitor.Eager.keep (t := t) hs hw hown) (Nat.le_refl _)
    cases hs with
    | call hr hp | call_give hr hp =>
      obtain rfl : m.current c = _ := hr.current
      refine hkeep fun hcur => ?_
      have hphase := hcur.phase
      rw [hp] at hphase
      simp at hphase
    | acquire | wait | retry | relock => exact hkeep fun _ => by simp
    | release hp =>
      refine hkeep fun hcur => ?_
      have hphase := hcur.phase
      rw [hp] at hphase
      simp at hphase
    | other => exact hkeep fun hcur => hcur.phase
    | give => exact absurd rfl ho
    | take hp hb hs =>
      have hstep : MonitorStep K k m (c, .take) _ := .take hp hb hs
      refine Monitor.EagerFor.take (v := K.avail (K.take m.value)) ?_ hstep hw
      rw [K.avail_take _ hb]
      exact heager
  · have hzero := h.parks hok hg ha hc he hfew
    have hvalue : m'.value = m.value := by
      cases hs with
      | other => rfl
    rw [hvalue, hzero]
    exact .zero

theorem WaitersOk.step (h : WaitersOk K k m) (hok : MonitorOk K k m) {a : Nat × MonitorOp} (hfew : FewGives m a)
    (hs : MonitorStep K k m a m') : WaitersOk K k m' :=
  ⟨h.notes_next hok hs, h.stale_next hok hs, h.eager_next hok hs hfew⟩

theorem New.waiters {v : V} (h : New v m) : WaitersOk K k m where
  notes := notesOk_booted h.threads
  stale n hn := by
    rw [h.phase] at hn
    cases hn
  eager hne := by
    rw [h.threads.cond] at hne
    exact absurd rfl hne

theorem waitersOk_of_guarded {v : V} (h : (monitorSystem K k v).GuardedReachable FewGives m) :
    MonitorOk K k m ∧ WaitersOk K k m := by
  obtain ⟨m₀, l, hnew, hrun⟩ := h
  exact hrun.preserves (I := fun m => MonitorOk K k m ∧ WaitersOk K k m)
    (fun _ _ _ h hfew hs => ⟨h.1.step hs, h.2.step h.1 hfew hs⟩) ⟨New.ok hnew, New.waiters hnew⟩

end Kernel.Blocking
