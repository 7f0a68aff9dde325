import Kernel.Blocking.Gate
import Kernel.Blocking.Missed

/-!
# Nobody is left at an open gate

Who has seen every notification has seen the gate closed. So the queue is empty
when the gate is open, and whoever is in `wait` is about to run.
-/

namespace Kernel.Blocking

open Lib Kernel.Thread

variable {V C : Type} {K : Gate V C} {k : Nat} {m m' : GateState V C} {c n : Nat} {o : GateOp V C} {v : V} {t : Tid}
  {x : After} {l : List (Tid × C)}

structure GateOk (K : Gate V C) (k : Nat) (m : GateState V C) : Prop where
  threads : ThreadsOk m.threads
  notes : NotesOk m.threads
  /-- A thread that has missed no notification has nothing to go on for. -/
  stale : ∀ n, m.threads.inside (.thread n) = some k →
    (m.threads.tcb (.thread n)).captured = (m.threads.cond k).notes → K.is_open m.value = false
  parked : (m.threads.cond k).waiting ≠ [] → K.is_open m.value = false

/-! ## What a step does -/

theorem Decides.opens (h : Decides K m c x v l)
    (hwraps : ∀ call, m.phase (m.current c) = .entered call → K.wraps call m.value = false)
    (hx : x ≠ .notify) (hv : K.is_open v = true) : K.is_open m.value = true := by
  cases h with
  | update hp hupdate hafter =>
    by_contra hclosed
    rw [Bool.not_eq_true] at hclosed
    exact hx (hafter ▸ K.opens _ _ _ hupdate (hwraps _ hp) hclosed hv)
  | test => exact hv

/-- A step is a notification, or it opens nothing and the only one that starts a `wait` finds the gate closed. -/
theorem gate_step (hfew : FewCalls K m (c, o)) (hs : GateStep K k m (c, o) m') :
    (m'.threads = m.threads ∧ m'.value = m.value) ∨ ∃ o', ThreadStep m.threads (c, o') m'.threads ∧
      (FewNotes m.threads (c, o')) ∧ (o' = .notify_all k ∨ o' ≠ .notify_all k ∧ o' ≠ .notify_one k ∧
        (K.is_open m'.value = true → K.is_open m.value = true) ∧ (o' = .wait k → K.is_open m'.value = false)) := by
  cases hs with
  | call | ret => exact Or.inl ⟨rfl, rfl⟩
  | acquire _ hs | relock _ hs | lock_again _ hs =>
      exact Or.inr ⟨_, hs, trivial, Or.inr ⟨by simp, by simp, id, by simp⟩⟩
  | notify _ hs => exact Or.inr ⟨_, hs, trivial, Or.inl rfl⟩
  | unlock hd hs => exact Or.inr ⟨_, hs, trivial, Or.inr ⟨by simp, by simp, hd.opens hfew (by simp), by simp⟩⟩
  | pass hd _ hs | retry hd _ _ hs =>
      exact Or.inr ⟨_, hs, trivial, Or.inr ⟨by simp, by simp, hd.opens hfew (by simp), by simp⟩⟩
  | wait hd hv hs => exact Or.inr ⟨_, hs, trivial, Or.inr ⟨by simp, by simp, hd.opens hfew (by simp), fun _ => hv⟩⟩
  | other hf _ hs => exact Or.inr ⟨_, hs, hfew, Or.inr ⟨hf.notify_all, hf.notify_one, id, fun h => absurd h hf.wait⟩⟩

theorem notify_all_cond {s u : Threads} (hs : ThreadStep s (c, .notify_all k) u) :
    u.tcb = s.tcb ∧ u.cond k = (s.cond k).notify [] := by
  cases hs with
  | notify_all => exact ⟨rfl, if_pos rfl⟩

/-! ## The invariant -/

theorem GateOk.stale_next (h : GateOk K k m) {s : Threads} {v : V} {o : Op} (hs : ThreadStep m.threads (c, o) s)
    (hone : o ≠ .notify_one k) (hall : o ≠ .notify_all k) (hopen : K.is_open v = true → K.is_open m.value = true)
    (hwait : o = .wait k → K.is_open v = false) (hin : s.inside (.thread n) = some k)
    (hseen : (s.tcb (.thread n)).captured = (s.cond k).notes) : K.is_open v = false := by
  rcases h.threads.wait_step hs (.thread n) with hsame | ⟨-, ⟨-, hnone⟩ | ⟨j, ho, -, hj⟩⟩
  · have hold : m.threads.inside (.thread n) = some k := hsame ▸ hin
    obtain ⟨hnotes, -⟩ := cond_step hs hone hall
    rcases h.threads.call_step hs n with ⟨-, -, hcap, -⟩ | ⟨hnone, -⟩
    · rw [hcap, hnotes] at hseen
      by_contra hv
      rw [Bool.not_eq_false] at hv
      have hclosed := h.stale n hold hseen
      rw [hopen hv] at hclosed
      cases hclosed
    · rw [hold] at hnone
      cases hnone
  · rw [hin] at hnone
    cases hnone
  · rw [hj] at hin
    obtain rfl := Option.some.inj hin
    exact hwait ho

theorem GateOk.parks (h : GateOk K k m) {p : Nat} (hg : m.threads.stage c = .post (.thread p))
    (ha : (m.threads.tcb (.thread p)).action = .wait) (hc : (m.threads.tcb (.thread p)).cond = k)
    (he : (m.threads.cond k).epoch = (m.threads.tcb (.thread p)).cond_epoch) (hfew : FewNotes m.threads (c, .post)) :
    K.is_open m.value = false := by
  have hstage := (h.threads.core c).stage
  rw [show (m.threads.core c).stage = .post (.thread p) from hg] at hstage
  have hin : m.threads.inside (.thread p) = some k := by
    rw [← hc]
    exact hstage.1.2.1 ha
  have hlt := hfew p hg ha
  rw [hc] at hlt
  refine h.stale p hin (Nat.le_antisymm (h.notes.seen p k hin).2 (Nat.le_of_not_lt fun hmissed => ?_))
  exact h.notes.missed hin hmissed hlt he

theorem GateOk.step (h : GateOk K k m) {a : Nat × GateOp V C} (hfew : FewCalls K m a) (hs : GateStep K k m a m') :
    GateOk K k m' := by
  obtain ⟨c, o⟩ := a
  rcases gate_step hfew hs with ⟨hthreads, hvalue⟩ | ⟨o', hstep, hnotes, ho⟩
  · exact ⟨by rw [hthreads]; exact h.threads, by rw [hthreads]; exact h.notes, by rw [hthreads, hvalue]; exact h.stale,
      by rw [hthreads, hvalue]; exact h.parked⟩
  refine ⟨h.threads.step hstep, h.notes.step h.threads hstep, fun n hin hseen => ?_, fun hparked => ?_⟩
  · rcases ho with rfl | ⟨hall, hone, hopen, hwait⟩
    · obtain ⟨htcb, hcond⟩ := notify_all_cond hstep
      rw [Threads.inside, htcb] at hin
      rw [htcb, hcond] at hseen
      exact absurd (h.notes.seen n k hin).2 (Nat.not_le_of_lt (hseen ▸ Nat.lt_succ_self _))
    · exact h.stale_next hstep hone hall hopen hwait hin hseen
  · rcases ho with rfl | ⟨hall, hone, hopen, -⟩
    · rw [(notify_all_cond hstep).2] at hparked
      exact absurd rfl hparked
    · have hclosed : K.is_open m.value = false := by
        rcases (cond_step hstep hone hall).2 with hw | ⟨p, hg, ha, hc, he, rfl, -⟩
        · exact h.parked (hw ▸ hparked)
        · exact h.parks hg ha hc he hnotes
      by_contra hv
      rw [Bool.not_eq_false] at hv
      rw [hopen hv] at hclosed
      cases hclosed

theorem NewGate.ok (h : NewGate v m) : GateOk K k m where
  threads := threadsOk_booted h.threads
  notes := notesOk_booted h.threads
  stale n hin := by
    rw [show m.threads.inside (.thread n) = none from (h.threads.tcb _).1] at hin
    cases hin
  parked hne := by
    rw [h.threads.cond] at hne
    exact absurd rfl hne

theorem gateOk_of_guarded (h : (gateSystem K k v).GuardedReachable (FewCalls K) m) : GateOk K k m := by
  obtain ⟨m₀, l, hnew, hrun⟩ := h
  exact hrun.preserves (fun _ _ _ h hfew hs => h.step hfew hs) (NewGate.ok hnew)

/-! ## Open gates -/

/-- **Nobody is left.** At an open barrier, latch or future no thread is parked, and some core makes every thread that
is in its `wait` runnable. -/
theorem open_gate_wakes (h : (gateSystem K k v).GuardedReachable (FewCalls K) m) (hopen : K.is_open m.value = true) :
    (m.threads.cond k).waiting = [] ∧ ∀ n, m.threads.inside (.thread n) = some k → m.threads.MadeRunnable n k := by
  have hok := gateOk_of_guarded h
  have hempty : (m.threads.cond k).waiting = [] := by
    by_contra hne
    rw [hok.parked hne] at hopen
    cases hopen
  refine ⟨hempty, fun n hin => woken_made_runnable hok.threads hok.notes ⟨hin, rfl, ?_, ?_⟩⟩
  · rw [hempty]
    exact List.not_mem_nil
  · refine Nat.lt_of_le_of_ne (hok.notes.seen n k hin).2 fun heq => ?_
    rw [hok.stale n hin heq] at hopen
    cases hopen

theorem few_gate_step {a : Nat × GateOp V C} (h : (gateSystem K k v).GuardedReachable (FewCalls K) m)
    (hs : GateStep K k m a m') (ha : FewCalls K m a) : (gateSystem K k v).GuardedReachable (FewCalls K) m' :=
  h.step ha hs

theorem gate_start_reachable {s : Threads} (h : threadSystem.GuardedReachable NoCondition s) :
    (gateSystem K k v).GuardedReachable (FewCalls K)
    { threads := s, value := v, phase := fun _ => .none, calls := [] } := by
  obtain ⟨s₀, l, hb, hrun⟩ := h
  have hall : (∀ j, (s.cond j).notes = 0) ∧ (gateSystem K k v).GuardedReachable (FewCalls K)
      { threads := s, value := v, phase := fun _ => .none, calls := [] } := by
    induction hrun with
    | nil => exact ⟨fun j => by rw [hb.cond], ⟨s₀, v, fun _ => .none, []⟩, [], ⟨hb, rfl, fun _ => rfl, rfl⟩, .nil _⟩
    | @snoc _ u _ a _ ha hs ih =>
      obtain ⟨c, o⟩ := a
      have hf : ∀ j, Foreign j _ c o := fun j => NoCondition.foreign ha
      refine ⟨fun j => ?_, few_gate_step ih.2 (.other (hf k) (Or.inl rfl) hs) (fewNotes_zero ih.1 (c, o))⟩
      rw [(cond_step hs (hf j).notify_one (hf j).notify_all).1, ih.1]
  exact hall.2

/-- Thread 0 is in `get` when the idle thread of core 1 sets the value. -/
theorem open_future_wakes : ∃ m : GateState (Bool × Nat) (FutureCall Nat), m.threads.inside (.thread 0) = some 0 ∧
    (m.threads.cond 0).waiting = [] ∧ ∀ n, m.threads.inside (.thread n) = some 0 → m.threads.MadeRunnable n 0 := by
  have h := gate_start_reachable (K := Future Nat) (k := 0) (v := (false, 0)) oneRuns_apart
  have h := few_gate_step h (.call (c := 0) (x := .get) ⟨rfl, rfl, rfl, rfl⟩ rfl) fun _ _ => rfl
  have h := few_gate_step h (.acquire (c := 0) rfl (.lock ⟨rfl, rfl, rfl, rfl⟩ rfl)) fun _ _ => rfl
  have h := few_gate_step h (.wait (c := 0) (v := (false, 0)) (.update rfl rfl rfl) rfl
    (.wait ⟨rfl, rfl, rfl, rfl⟩ rfl))
    fun _ _ => rfl
  have h := few_gate_step h (.call (c := 1) (x := .set 7) ⟨rfl, rfl, rfl, rfl⟩ rfl) fun _ _ => rfl
  have h := few_gate_step h (.acquire (c := 1) rfl (.lock ⟨rfl, rfl, rfl, rfl⟩ rfl)) fun _ _ => rfl
  have h := few_gate_step h (.notify (c := 1) (.update rfl rfl rfl) (.notify_all ⟨rfl, rfl, rfl, rfl⟩ rfl))
    fun _ _ => rfl
  exact ⟨_, rfl, open_gate_wakes h rfl⟩

end Kernel.Blocking
