import Kernel.Blocking.Code
import Kernel.Thread.InCall

/-!
# Threads at a lock or a semaphore

What every run keeps: who is in which call, and who has the value.
-/

namespace Kernel.Blocking

open Lib Kernel.Thread

variable {V : Type} {K : Kind V} {k : Nat} {m m' : Monitor V} {c n : Nat} {o : MonitorOp} {t w : Tid}

namespace Monitor

@[simp] theorem setPhase_threads (m : Monitor V) (t : Tid) (p : Phase) : (m.setPhase t p).threads = m.threads := rfl
@[simp] theorem setPhase_value (m : Monitor V) (t : Tid) (p : Phase) : (m.setPhase t p).value = m.value := rfl
@[simp] theorem setPhase_holds (m : Monitor V) (t : Tid) (p : Phase) : (m.setPhase t p).holds = m.holds := rfl
@[simp] theorem setHolds_threads (m : Monitor V) (t : Tid) (b : Bool) : (m.setHolds t b).threads = m.threads := rfl
@[simp] theorem setHolds_value (m : Monitor V) (t : Tid) (b : Bool) : (m.setHolds t b).value = m.value := rfl
@[simp] theorem setHolds_phase (m : Monitor V) (t : Tid) (b : Bool) : (m.setHolds t b).phase = m.phase := rfl
@[simp] theorem setPhase_phase (m : Monitor V) (t : Tid) (p : Phase) :
    (m.setPhase t p).phase = Function.update m.phase t p := rfl
@[simp] theorem setHolds_holds (m : Monitor V) (t : Tid) (b : Bool) :
    (m.setHolds t b).holds = Function.update m.holds t b := rfl

end Monitor

/-! ## What a step does -/

theorem phase_step (hs : MonitorStep K k m (c, o) m') (ht : t ≠ m.current c) :
    m'.phase t = m.phase t ∧ m'.holds t = m.holds t := by
  cases hs with
  | call hr | call_give hr =>
    rw [Monitor.current, hr.current] at ht
    simp [ht]
  | _ => simp [ht]

theorem calling_step (hs : MonitorStep K k m (c, o) m')
    (hnone : m.phase (m.current c) = .none → m'.phase (m.current c) = .none) (hp : m'.phase t ≠ .none) :
    m.phase t ≠ .none := by
  by_cases ht : t = m.current c
  · subst ht
    exact fun hn => hp (hnone hn)
  · rwa [(phase_step hs ht).1] at hp

theorem threads_step (hs : MonitorStep K k m (c, o) m') :
    m'.threads = m.threads ∧ m.phase (m.current c) = .none ∧ m.threads.Runs c (m.current c) ∨
    ∃ o', ThreadStep m.threads (c, o') m'.threads ∧ (o' = .stop → m.phase (m.current c) = .none) ∧
      (m.phase (m.current c) = .none → m'.phase (m.current c) = .none) ∧
      o' ≠ .notify_all k ∧ (o' = .notify_one k → o = .give) ∧ (o' = .post → o = .other .post) ∧
      (o' = .loop → m.phase (m.current c) = .none) ∧ ∀ j, o' = .wait j → m.phase (m.current c) ≠ .none → j = k := by
  cases hs with
  | call hr hp | call_give hr hp =>
    obtain rfl : m.current c = _ := hr.current
    exact Or.inl ⟨rfl, hp, hr⟩
  | other hf hp hs =>
    refine Or.inr ⟨_, hs, fun h => ?_, id, hf.notify_all, fun h => absurd h hf.notify_one, fun h => h ▸ rfl,
      fun h => ?_, fun j h hne => ?_⟩
    · subst h
      exact hp.resolve_right id
    · subst h
      exact hp.resolve_right id
    · subst h
      exact absurd (hp.resolve_right id) hne
  | acquire hp hs | wait hp _ hs | retry hp _ _ hs | relock hp hs | release hp hs | take hp _ hs | give hp hs =>
    exact Or.inr ⟨_, hs, by simp, by simp [hp], by simp, by simp, by simp, by simp, by simp [eq_comm]⟩

/-! ## The invariant -/

structure MonitorOk (K : Kind V) (k : Nat) (m : Monitor V) : Prop where
  threads : ThreadsOk m.threads
  waiting : ∀ t, m.phase t = .waiting ↔ m.threads.inside t = some k
  /-- A thread in a call is in no `wait` of another condition. -/
  inside : ∀ t j, m.phase t ≠ .none → m.threads.inside t = some j → j = k
  /-- An idle thread stays on its core until it returns. -/
  idle : ∀ d, m.phase (.idle d) ≠ .none → m.threads.current d = .idle d ∧ ∀ next, m.threads.stage d ≠ .picked next
  held : ∀ n, m.phase (.thread n) ≠ .none → m.threads.Alive n ∧ n ∉ m.threads.cell .reaper ∧
    (∀ t, n ∉ m.threads.cell (.creator t)) ∧ ∀ t, n ∉ m.threads.cell (.reaping t)
  leaves : ∀ n, m.phase (.thread n) ≠ .none → m.threads.Leaves n → (m.threads.tcb (.thread n)).action ≠ .stop
  taken : K.owned = true → ∀ t, m.holds t = true → K.blocked m.value = true
  one : K.owned = true → ∀ t w, m.holds t = true → m.holds w = true → t = w
  giving : K.owned = true → ∀ t, m.phase t = .release ∨ m.phase t = .giving → m.holds t = true

theorem MonitorOk.threads_next (h : MonitorOk K k m) (hs : MonitorStep K k m (c, o) m') : ThreadsOk m'.threads := by
  rcases threads_step hs with ⟨heq, -⟩ | ⟨o', hstep, -⟩
  · rw [heq]
    exact h.threads
  · exact h.threads.step hstep

theorem MonitorOk.waiting_next (h : MonitorOk K k m) (hs : MonitorStep K k m (c, o) m') (t : Tid) :
    m'.phase t = .waiting ↔ m'.threads.inside t = some k := by
  by_cases ht : t = m.current c
  · subst ht
    -- Outside of `wait` before and after.
    have hout : ∀ {o' u} {p : Phase}, ThreadStep m.threads (c, o') u → m.phase (m.current c) ≠ .waiting → o' ≠ .relock →
        (∀ j, o' ≠ .wait j) → p ≠ .waiting → (p = .waiting ↔ u.inside (m.current c) = some k) := by
      intro o' u p hstep hp hrelock hwait hp'
      rw [Ne, h.waiting] at hp
      rcases h.threads.wait_step hstep (m.current c) with hin | ⟨-, ⟨ho, -⟩ | ⟨j, ho, -⟩⟩
      · rw [hin]
        exact iff_of_false hp' hp
      · exact absurd ho hrelock
      · exact absurd ho (hwait j)
    cases hs with
    | call hr hp | call_give hr hp =>
      obtain rfl : m.current c = _ := hr.current
      have hin : m.threads.inside (m.current c) ≠ some k := by
        rw [hr.inside]
        simp
      simpa using hin
    | acquire hp hs => exact hout hs (by simp [hp]) (by simp) (by simp) (by simp)
    | take hp _ hs => exact hout hs (by simp [hp]) (by simp) (by simp) (by simp)
    | retry hp _ _ hs => exact hout hs (by simp [hp]) (by simp) (by simp) (by simp)
    | release hp hs => exact hout hs (by simp [hp]) (by simp) (by simp) (by simp)
    | give hp hs => exact hout hs (by simp [hp]) (by simp) (by simp) (by simp)
    | wait hp _ hs =>
      cases hs with
      | wait hr =>
        have hcur : m.current c = _ := hr.current
        simp [hcur, Threads.inside]
    | relock hp hs =>
      cases hs with
      | relock => simp [Threads.inside, Monitor.current]
    | other hf hp hs =>
      rcases h.threads.wait_step hs (m.current c) with hin | ⟨-, ⟨ho, hin⟩ | ⟨j, ho, hin, hin'⟩⟩
      · change m.phase _ = _ ↔ _
        rw [hin, h.waiting]
      · refine iff_of_false (fun hw => hf.relock ho ((h.waiting _).1 hw)) ?_
        rw [hin]
        simp
      · refine iff_of_false (fun hw => ?_) ?_
        · have hin'' := (h.waiting _).1 hw
          rw [hin] at hin''
          cases hin''
        · rw [hin']
          intro hj
          obtain rfl := Option.some.inj hj
          exact hf.wait ho
  · rw [(phase_step hs ht).1, h.waiting]
    rcases threads_step hs with ⟨heq, -⟩ | ⟨o', hstep, -⟩
    · rw [heq]
    · rw [(h.threads.wait_step hstep t).resolve_right fun hc => ht hc.1]

theorem MonitorOk.inside_next (h : MonitorOk K k m) (hs : MonitorStep K k m (c, o) m') (t : Tid) (j : Nat)
    (hp : m'.phase t ≠ .none) (hj : m'.threads.inside t = some j) : j = k := by
  rcases threads_step hs with ⟨heq, hnone, hr⟩ | ⟨o', hstep, -, hnone, -, -, -, -, hwait⟩
  · rw [heq] at hj
    by_cases ht : t = m.current c
    · rw [ht, hr.inside] at hj
      cases hj
    · rw [(phase_step hs ht).1] at hp
      exact h.inside t j hp hj
  · have hold := calling_step hs hnone hp
    rcases h.threads.wait_step hstep t with hin | ⟨ht, ⟨-, hin⟩ | ⟨i, ho, -, hin⟩⟩
    · rw [hin] at hj
      exact h.inside t j hold hj
    · rw [hin] at hj
      cases hj
    · rw [hin] at hj
      obtain rfl := Option.some.inj hj
      subst ht
      exact hwait _ ho hold

theorem MonitorOk.idle_next (h : MonitorOk K k m) (hs : MonitorStep K k m (c, o) m') (d : Nat)
    (hp : m'.phase (.idle d) ≠ .none) :
    m'.threads.current d = .idle d ∧ ∀ next, m'.threads.stage d ≠ .picked next := by
  rcases threads_step hs with ⟨heq, hnone, hr⟩ | ⟨o', hstep, -, hnone, -, -, -, hloop, -⟩
  · rw [heq]
    by_cases ht : .idle d = m.current c
    · rw [← ht] at hr
      obtain rfl := (h.threads.core c).own d hr.current
      refine ⟨hr.current, fun next hg => ?_⟩
      rw [hr.stage] at hg
      cases hg
    · rw [(phase_step hs ht).1] at hp
      exact h.idle d hp
  · have hold := calling_step hs hnone hp
    obtain ⟨hcur, hpicked⟩ := h.idle d hold
    refine h.threads.idle_stays hstep hcur hpicked ?_
    rintro rfl ho
    rw [← hcur] at hold
    exact hold (hloop ho)

theorem Runs_not_leaves (h : ThreadsOk m.threads) (hr : m.threads.Runs c (.thread n)) : ¬ m.threads.Leaves n := by
  have hrun : n ∈ m.threads.cell (.running c) := Tid.mem_threads.mpr hr.current
  rintro ⟨d, ⟨hcur, next, hg⟩ | hg⟩
  · obtain rfl := Place.running.inj (h.placed.apart _ (.running d) n hrun (Tid.mem_threads.mpr hcur))
    rw [hr.stage] at hg
    cases hg
  · have hpend : n ∈ m.threads.cell (.pending d) := by
      rw [(Threads.cell_stage hg).2.2]
      exact List.mem_cons_self
    exact Place.noConfusion (h.placed.apart _ _ n hrun hpend)

theorem MonitorOk.held_next (h : MonitorOk K k m) (hs : MonitorStep K k m (c, o) m') (n : Nat)
    (hn : m'.phase (.thread n) ≠ .none) :
    (m'.threads.Alive n ∧ n ∉ m'.threads.cell .reaper ∧ (∀ t, n ∉ m'.threads.cell (.creator t)) ∧
      ∀ t, n ∉ m'.threads.cell (.reaping t)) ∧
    (m'.threads.Leaves n → (m'.threads.tcb (.thread n)).action ≠ .stop) := by
  rcases threads_step hs with ⟨heq, hp, hr⟩ | ⟨o', hstep, hstop, hnone, -⟩
  · rw [heq]
    by_cases hcur : m.current c = .thread n
    · rw [hcur] at hr
      exact ⟨h.threads.runs_held hr.current, fun hl => absurd hl (Runs_not_leaves h.threads hr)⟩
    · rw [(phase_step hs (Ne.symm hcur)).1] at hn
      exact ⟨h.held n hn, h.leaves n hn⟩
  · have hold := calling_step hs hnone hn
    refine ⟨stays_step hstep (fun d hg => h.leaves n hold ⟨d, Or.inr hg⟩) (h.held n hold),
      h.threads.leaves_step hstep (fun hcur ho => hold ?_) (h.leaves n hold)⟩
    rw [← hcur]
    exact hstop ho

theorem MonitorOk.holds_next (h : MonitorOk K k m) (hs : MonitorStep K k m (c, o) m') (hown : K.owned = true) :
    (∀ t, m'.holds t = true → K.blocked m'.value = true) ∧ (∀ t w, m'.holds t = true → m'.holds w = true → t = w) ∧
      ∀ t, m'.phase t = .release ∨ m'.phase t = .giving → m'.holds t = true := by
  have htaken := h.taken hown
  have hone := h.one hown
  have hgiving := h.giving hown
  -- Nothing is taken or given, and the phase of one thread changes.
  have hsame : ∀ t p, ((p = .release ∨ p = .giving) → m.holds t = true) → ∀ w,
      Function.update m.phase t p w = .release ∨ Function.update m.phase t p w = .giving → m.holds w = true := by
    intro t p hp w hw
    by_cases hwt : w = t
    · subst hwt
      rw [Function.update_self] at hw
      exact hp hw
    · rw [Function.update_of_ne hwt] at hw
      exact hgiving w hw
  cases hs with
  | call hr hp => exact ⟨htaken, hone, hsame _ _ (by simp)⟩
  | call_give hr hp hh => exact ⟨htaken, hone, hsame _ _ fun _ => hh hown⟩
  | acquire hp hs => exact ⟨htaken, hone, hsame _ _ (by simp)⟩
  | wait hp hb hs => exact ⟨htaken, hone, hsame _ _ (by simp)⟩
  | retry hp hb hi hs => exact ⟨htaken, hone, hsame _ _ (by simp)⟩
  | relock hp hs => exact ⟨htaken, hone, hsame _ _ (by simp)⟩
  | release hp hs => exact ⟨htaken, hone, hsame _ _ fun _ => hgiving _ (Or.inl hp)⟩
  | other hf hp hs => exact ⟨htaken, hone, hgiving⟩
  | take hp hb hs =>
    have hnone : ∀ t, m.holds t ≠ true := by
      intro t ht
      rw [htaken t ht] at hb
      cases hb
    have honly : ∀ t, Function.update m.holds (m.current c) true t = true → t = m.current c := by
      intro t ht
      by_contra hne
      rw [Function.update_of_ne hne] at ht
      exact hnone t ht
    refine ⟨fun t _ => K.blocked_take hown _, fun t w ht hw => (honly t ht).trans (honly w hw).symm, fun t ht => ?_⟩
    by_cases htc : t = m.current c
    · rw [htc] at ht
      simp at ht
    · simp only [Monitor.setPhase_phase, Monitor.setHolds_phase, Function.update_of_ne htc] at ht
      exact absurd (hgiving t ht) (hnone t)
  | give hp hs =>
    have hmine := hgiving _ (Or.inr hp)
    have hnone : ∀ t, Function.update m.holds (m.current c) false t ≠ true := by
      intro t ht
      by_cases htc : t = m.current c
      · rw [htc, Function.update_self] at ht
        cases ht
      · rw [Function.update_of_ne htc] at ht
        exact htc (hone _ _ ht hmine)
    refine ⟨fun t ht => absurd ht (hnone t), fun t _ ht => absurd ht (hnone t), fun t ht => ?_⟩
    by_cases htc : t = m.current c
    · rw [htc] at ht
      simp at ht
    · simp only [Monitor.setPhase_phase, Monitor.setHolds_phase, Function.update_of_ne htc] at ht
      exact absurd (hone _ _ (hgiving t ht) hmine) htc

theorem MonitorOk.step (h : MonitorOk K k m) {a : Nat × MonitorOp} (hs : MonitorStep K k m a m') : MonitorOk K k m' :=
  ⟨h.threads_next hs, h.waiting_next hs, h.inside_next hs, h.idle_next hs, fun n hn => (h.held_next hs n hn).1,
    fun n hn => (h.held_next hs n hn).2, fun hown => (h.holds_next hs hown).1, fun hown => (h.holds_next hs hown).2.1,
    fun hown => (h.holds_next hs hown).2.2⟩

theorem New.ok {v : V} (h : New v m) : MonitorOk K k m where
  threads := threadsOk_booted h.threads
  waiting t := by
    have hin : m.threads.inside t = none := (h.threads.tcb t).1
    rw [h.phase, hin]
    simp
  inside t j hp := absurd (h.phase _) hp
  idle d hp := absurd (h.phase _) hp
  held n hn := absurd (h.phase _) hn
  leaves n hn := absurd (h.phase _) hn
  taken _ t ht := by
    rw [h.holds] at ht
    cases ht
  one _ t _ ht := by
    rw [h.holds] at ht
    cases ht
  giving _ t ht := by
    rw [h.phase] at ht
    rcases ht with ht | ht <;> cases ht

theorem monitorOk_inductive {v : V} : System.Inductive (monitorSystem K k v) (MonitorOk K k) where
  init _ h := New.ok h
  step _ _ _ h hs := MonitorOk.step h hs

/-- The `ASSERT` of `unlock`. -/
theorem unlock_locked {m : Monitor Bool} (h : MonitorOk BlockingLock k m) (hp : m.phase t = .giving) : m.value = true :=
  h.taken rfl t (h.giving rfl t (Or.inr hp))

end Kernel.Blocking
