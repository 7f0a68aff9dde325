import Kernel.Blocking.Awake

/-!
# A thread that misses `2 ^ 64` notifications

The epoch is again the one that the thread has seen, and its `post_switch`
parks it.
-/

namespace Kernel.Blocking

open Lib Kernel.Thread

variable {V : Type} {K : Kind V} {k c : Nat} {v : V} {m : Monitor V} {s : Threads} {t : Tid}

def Monitor.start (v : V) (s : Threads) : Monitor V :=
  { threads := s, value := v, phase := fun _ => .none, holds := fun _ => false, takes := 0, gives := 0 }

theorem NoCondition.foreign {o : Op} (h : NoCondition s (c, o)) : Foreign k s c o := by
  constructor <;> (rintro rfl; exact h.elim)

theorem few_step {m' : Monitor V} {a : Nat × MonitorOp} (h : (monitorSystem K k v).GuardedReachable FewGives m)
    (hs : MonitorStep K k m a m') (ha : FewGives m a) : (monitorSystem K k v).GuardedReachable FewGives m' :=
  h.step ha hs

theorem fewNotes_zero (h : ∀ j, (s.cond j).notes = 0) (a : Nat × Op) : FewNotes s a := by
  obtain ⟨c, o⟩ := a
  cases o with
  | post =>
    intro p _ _
    rw [h, Nat.zero_sub]
    exact Nat.two_pow_pos 64
  | _ => trivial

theorem start_reachable (h : threadSystem.GuardedReachable NoCondition s) :
    (monitorSystem K k v).GuardedReachable FewGives (Monitor.start v s) := by
  obtain ⟨s₀, l, hb, hrun⟩ := h
  have hall : (∀ j, (s.cond j).notes = 0) ∧ (monitorSystem K k v).GuardedReachable FewGives (Monitor.start v s) := by
    induction hrun with
    | nil =>
      exact ⟨fun j => by rw [hb.cond], Monitor.start v s₀, [], ⟨hb, rfl, fun _ => rfl, fun _ => rfl, rfl, rfl⟩, .nil _⟩
    | @snoc _ u _ a _ ha hs ih =>
      obtain ⟨c, o⟩ := a
      have hf : ∀ j, Foreign j _ c o := fun j => NoCondition.foreign ha
      have hstep : MonitorStep K k (Monitor.start v _) (c, .other o) (Monitor.start v u) :=
        .other (hf k) (Or.inl rfl) hs
      refine ⟨fun j => ?_, few_step ih.2 hstep ?_⟩
      · rw [(cond_step hs (hf j).notify_one (hf j).notify_all).1, ih.1]
      · exact fewNotes_zero ih.1 _
  exact hall.2

/-! ## Calls that do not wait -/

section

variable (s) (c k)

theorem setHolder_current (h : Option Tid) : (s.setHolder k h).current c = s.current c := rfl

theorem notify_current (l rest : List Nat) : (s.notify c k l rest).current c = s.current c := by
  simp [Threads.current]

end

theorem setHolder_none (hh : (s.cond k).holder = none) : (s.setHolder k (some t)).setHolder k none = s := by
  have hcond : ((s.setHolder k (some t)).setHolder k none).cond = s.cond := by
    funext j
    rw [Threads.setHolder_cond, Threads.setHolder_cond]
    split_ifs with hj
    · rw [hj, ← hh]
    · rfl
  calc (s.setHolder k (some t)).setHolder k none
      = { s with cond := ((s.setHolder k (some t)).setHolder k none).cond } := rfl
    _ = s := by rw [hcond]

theorem update_back {f : Tid → Phase} {p : Phase} (hp : f t = .none) :
    Function.update (Function.update f t p) t .none = f := by
  rw [Function.update_idem, ← hp, Function.update_eq_self]

theorem take_reachable (h : (monitorSystem K k v).GuardedReachable FewGives m) (hr : m.threads.Runs c t)
    (hp : m.phase t = .none) (hh : (m.threads.cond k).holder = none) (hb : K.blocked m.value = false) :
    (monitorSystem K k v).GuardedReachable FewGives
      { m with value := K.take m.value, takes := m.takes + 1, holds := Function.update m.holds t true } := by
  have hcur : m.threads.current c = t := hr.current
  have h1 := few_step h (.call hr hp) trivial
  have h2 := few_step h1 (.acquire (c := c) (by simp [Monitor.current, hcur]) (.lock hr hh)) trivial
  have h3 := few_step h2 (.take (c := c) (by simp [Monitor.current, Threads.current]) hb
    (.unlock ⟨hr.current, hr.user, hr.stage, hr.inside⟩ (by simp [Threads.setHolder_cond]))) trivial
  simpa [Monitor.setPhase, Monitor.setHolds, Monitor.current, setHolder_current, hcur, setHolder_none hh,
    update_back hp] using h3

theorem notify_none (hw : (s.cond k).waiting = []) (hg : s.stage c = .run) :
    let s' := s.setHolder k (some t)
    (s'.notify c k (s'.cond k).waiting.head?.toList (s'.cond k).waiting.tail).setStage c .run =
      s.modCond k fun x => x.notify [] := by
  intro s'
  have hw' : (s'.cond k).waiting = [] := by
    rw [Threads.setHolder_cond, if_pos rfl]
    exact hw
  rw [hw']
  have hcond : ((s'.notify c k [] []).setStage c .run).cond = (s.modCond k fun x => x.notify []).cond := by
    funext j
    change (s'.notify c k [] []).cond j = if j = k then _ else _
    rw [Threads.notify_cond, Threads.setHolder_cond]
    split_ifs with hj <;> rfl
  have hcore : ((s'.notify c k [] []).setStage c .run).core = s.core := by
    funext d
    rw [Threads.setStage_core, Threads.notify_core, Threads.setHolder_core]
    split_ifs with hd
    · subst hd
      rw [← hg]
      rfl
    · rfl
  calc (s'.notify c k [] []).setStage c .run
      = { s with cond := ((s'.notify c k [] []).setStage c .run).cond
                 core := ((s'.notify c k [] []).setStage c .run).core } := rfl
    _ = s.modCond k fun x => x.notify [] := by
      rw [hcond, hcore]
      rfl

theorem give_reachable (h : (monitorSystem K k v).GuardedReachable FewGives m) (hr : m.threads.Runs c t)
    (hp : m.phase t = .none) (hh : (m.threads.cond k).holder = none) (hw : (m.threads.cond k).waiting = [])
    (hown : K.owned = true → m.holds t = true) :
    (monitorSystem K k v).GuardedReachable FewGives
      { m with threads := m.threads.modCond k fun x => x.notify [], value := K.give m.value, gives := m.gives + 1,
               holds := Function.update m.holds t false } := by
  have hcur : m.threads.current c = t := hr.current
  have h1 := few_step h (.call_give hr hp hown) trivial
  have h2 := few_step h1 (.release (c := c) (by simp [Monitor.current, hcur]) (.lock hr hh)) trivial
  have h3 := few_step h2 (.give (c := c) (by simp [Monitor.current, Threads.current])
    (.notify_one (k := k) ⟨hr.current, hr.user, hr.stage, hr.inside⟩ (by simp [Threads.setHolder_cond]))) trivial
  have h4 := few_step h3 (.other (c := c) (o := .added) (by constructor <;> simp) (Or.inr trivial)
    (.added (by simp [Threads.stage, Threads.setHolder_cond, hw]))) trivial
  simpa [Monitor.setPhase, Monitor.setHolds, Monitor.current, setHolder_current, notify_current, hcur,
    update_back hp, notify_none hw hr.stage] using h4

/-- `lock` or `down`, of a value that is not to be had, up to the switch to the next thread. -/
theorem wait_reachable {n p : Nat} {rest : List Nat} (h : (monitorSystem K k v).GuardedReachable FewGives m)
    (hr : m.threads.Runs c (.thread n)) (hp : m.phase (.thread n) = .none) (hh : (m.threads.cond k).holder = none)
    (hb : K.blocked m.value = true) (hq : m.threads.readyQueue = p :: rest) :
    (monitorSystem K k v).GuardedReachable FewGives
      { m with threads := (((m.threads.setHolder k (some (.thread n))).release c k (.thread n)).wait_remove c k p
                 rest).context_switch c (.thread p)
               phase := Function.update m.phase (.thread n) .waiting } := by
  have hcur : m.threads.current c = .thread n := hr.current
  have h1 := few_step h (.call hr hp) trivial
  have h2 := few_step h1 (.acquire (c := c) (by simp [Monitor.current, hcur]) (.lock hr hh)) trivial
  have h3 := few_step h2 (.wait (c := c) (by simp [Monitor.current, Threads.current]) hb
    (.wait ⟨hr.current, hr.user, hr.stage, hr.inside⟩ (by simp [Threads.setHolder_cond]))) trivial
  have hrel : ((m.threads.setHolder k (some (.thread n))).release c k (.thread n)).current c = .thread n := by
    simpa [Threads.current] using hcur
  have h4 := few_step h3 (.other (c := c) (o := .wait_remove) (by constructor <;> simp) (Or.inr trivial)
    (.wait_remove (k := k) (by simp [Threads.stage]) (by simp [Threads.inside, hrel]) hq)) trivial
  have h5 := few_step h4 (.other (c := c) (o := .switch) (by constructor <;> simp) (Or.inr trivial)
    (.switch (show _ = Stage.picked (.thread p) by simp [Threads.stage]))) trivial
  simpa only [Monitor.setPhase, Monitor.current, setHolder_current, hcur, Function.update_idem] using h5

/-! ## Many notifications -/

/-- The states differ in the condition, which has had `j` notifications more and has an empty queue. -/
structure Passed (k : Nat) (s u : Threads) (j : Nat) : Prop where
  core : u.core = s.core
  tcb : u.tcb = s.tcb
  cond : u.cond k =
    { waiting := [], epoch := ((s.cond k).epoch + j) % 2 ^ 64, holder := none, notes := (s.cond k).notes + j }

theorem Passed.runs {u : Threads} {j : Nat} (h : Passed k s u j) (hr : s.Runs c t) : u.Runs c t := by
  obtain ⟨hcur, huser, hstage, hinside⟩ := hr
  rw [Threads.current, ← h.core] at hcur
  rw [← h.core] at huser
  rw [Threads.stage, ← h.core] at hstage
  rw [Threads.inside, ← h.tcb] at hinside
  exact ⟨hcur, huser, hstage, hinside⟩

theorem Passed.notify {u : Threads} {j : Nat} (h : Passed k s u j) :
    Passed k s (u.modCond k fun x => x.notify []) (j + 1) := by
  refine ⟨h.core, h.tcb, ?_⟩
  rw [Threads.modCond_cond, if_pos rfl, h.cond]
  simp only [Condition.notify, Nat.mod_add_mod]
  rfl

theorem rounds_reachable (h : (monitorSystem K k v).GuardedReachable FewGives m) (hr : m.threads.Runs c t)
    (hp : m.phase t = .none) (hz : Passed k m.threads m.threads 0) (hb : K.blocked m.value = false)
    (hg : K.give (K.take m.value) = m.value) (j : Nat) :
    ∃ m', (monitorSystem K k v).GuardedReachable FewGives m' ∧ Passed k m.threads m'.threads j ∧ m'.phase = m.phase ∧
      m'.value = m.value := by
  induction j with
  | zero => exact ⟨m, h, hz, rfl, rfl⟩
  | succ j ih =>
    obtain ⟨m', h', hpassed, hphase, hvalue⟩ := ih
    rw [← hphase] at hp
    rw [← hvalue] at hb hg
    have hcond := hpassed.cond
    have htaken := take_reachable h' (hpassed.runs hr) hp (by rw [hcond]) hb
    have hgiven := give_reachable htaken (hpassed.runs hr) hp (by rw [hcond]) (by rw [hcond])
      fun _ => Function.update_self ..
    exact ⟨_, hgiven, hpassed.notify, hphase, hg.trans hvalue⟩

/-- Thread 0 is in `wait` and switched out, and its `post_switch` is still to come. Core 0 runs thread 1. -/
def switchedOut : Threads :=
  (((oneRuns.setHolder 0 (some (.thread 0))).release 0 0 (.thread 0)).wait_remove 0 0 1 []).context_switch 0 (.thread 1)

/-- The idle thread of core 1 has taken the value. -/
theorem switchedOut_reachable (hb : K.blocked v = false) (ht : K.blocked (K.take v) = true) :
    (monitorSystem K 0 v).GuardedReachable FewGives
      { threads := switchedOut, value := K.take v, phase := Function.update (fun _ => .none) (.thread 0) .waiting,
        holds := Function.update (fun _ => false) (.idle 1) true, takes := 1, gives := 0 } := by
  have h := start_reachable (K := K) (k := 0) (v := v) oneRuns_apart
  have h := take_reachable (c := 1) (t := .idle 1) h ⟨rfl, rfl, rfl, rfl⟩ rfl rfl hb
  have h := wait_reachable (c := 0) (n := 0) h ⟨rfl, rfl, rfl, rfl⟩ rfl rfl ht rfl
  exact h

theorem missed_parks (hb : K.blocked v = false) (ht : K.blocked (K.take v) = true) (hg : K.give (K.take v) = v) :
    ∃ m, (monitorSystem K 0 v).Reachable m ∧ m.value = v ∧ (m.threads.cond 0).waiting ≠ [] ∧ ∀ t, ¬ m.Eager 0 t := by
  have h := give_reachable (c := 1) (t := .idle 1) (switchedOut_reachable hb ht) ⟨rfl, rfl, rfl, rfl⟩ rfl rfl rfl
    fun _ => rfl
  have hzero : Passed 0 (switchedOut.modCond 0 fun x => x.notify []) (switchedOut.modCond 0 fun x => x.notify []) 0 :=
    ⟨rfl, rfl, rfl⟩
  obtain ⟨m, h, hpassed, hphase, hvalue⟩ := rounds_reachable (c := 1) (t := .idle 1) h ⟨rfl, rfl, rfl, rfl⟩ rfl hzero
    (by rw [hg]; exact hb) (by rw [hg]; exact hg) (2 ^ 64 - 1)
  have hcore : m.threads.core = switchedOut.core := hpassed.core
  have htcb : m.threads.tcb = switchedOut.tcb := hpassed.tcb
  have hepoch : (m.threads.cond 0).epoch = 0 := by
    have hall : (m.threads.cond 0).epoch = (1 + (2 ^ 64 - 1)) % 2 ^ 64 := by
      rw [hpassed.cond]
      rfl
    omega
  have hpost : ThreadStep m.threads (0, .post) ((m.threads.park 0 0).switched 0) := by
    refine .post_wait ?_ ?_ ?_ ?_ ?_ ?_
    · rw [Threads.stage, hcore]
      rfl
    · rw [htcb]
      rfl
    · rw [htcb]
      rfl
    · rw [hpassed.cond]
    · rw [hepoch, htcb]
      rfl
    · rw [Threads.count, Threads.current, hcore, htcb]
      decide
  have hwaiting : (((m.threads.park 0 0).switched 0).cond 0).waiting = [0] := by
    rw [Threads.switched_cond, Threads.park_cond, if_pos rfl, hpassed.cond]
    rfl
  refine ⟨_, h.reachable.step (a := (0, .other .post)) (.other (by constructor <;> simp) (Or.inr trivial) hpost),
    hvalue.trans hg, ?_,
    fun t ht => ?_⟩
  · rw [hwaiting]
    simp
  · by_cases hzero : t = .thread 0
    · refine ht.unparked 0 ?_ hzero
      rw [hwaiting]
      exact List.mem_cons_self
    · have hnone : m.phase t = .none := by simp [hphase, hzero]
      have hin := ht.phase
      simp [hnone] at hin

/-- Thread 0 is parked, and core 0 runs thread 1. The idle thread of core 1 has made thread 2. -/
def threeThreads : Threads :=
  let s := (((switchedOut.park 0 0).switched 0).setMaking (.idle 1) .counted).setActive 3
  ((s.alloc (.idle 1) 2 true).make_stack 2 (1 + 2 * Threads.STACK_BYTES)).publish (.idle 1) 2

/-- Thread 1 is parked too, and core 0 runs thread 2. -/
def twoParked : Threads :=
  let s := ((threeThreads.setHolder 0 (some (.thread 1))).release 0 0 (.thread 1)).wait_remove 0 0 2 []
  ((s.context_switch 0 (.thread 2)).park 0 1).switched 0

theorem fewGives_post {n : Nat} (hg : m.threads.stage c = .post (.thread n))
    (hz : (m.threads.cond (m.threads.tcb (.thread n)).cond).notes = 0) : FewGives m (c, .other .post) := by
  intro p hp _
  obtain rfl := Tid.thread.inj (Stage.post.inj (hg.symm.trans hp))
  rw [hz, Nat.zero_sub]
  exact Nat.two_pow_pos 64

theorem threeThreads_reachable (hb : K.blocked v = false) (ht : K.blocked (K.take v) = true) :
    (monitorSystem K 0 v).GuardedReachable FewGives
      { threads := threeThreads, value := K.take v, phase := Function.update (fun _ => .none) (.thread 0) .waiting,
        holds := Function.update (fun _ => false) (.idle 1) true, takes := 1, gives := 0 } := by
  have hfresh : ∀ n b, (if n = 1 then some (1 + Threads.STACK_BYTES) else if n = 0 then some 1 else none) = some b →
      1 + 2 * Threads.STACK_BYTES + Threads.STACK_BYTES ≤ b ∨
        b + Threads.STACK_BYTES ≤ 1 + 2 * Threads.STACK_BYTES := by
    intro n b hb
    split_ifs at hb
    all_goals
      cases hb
      exact Or.inr (by decide)
  have h := switchedOut_reachable hb ht
  have h := few_step h (.other (c := 0) (o := .post) (by constructor <;> simp) (Or.inr trivial)
    (.post_wait (p := 0) (k := 0) rfl rfl rfl rfl rfl (Nat.zero_lt_succ 0))) (fewGives_post rfl rfl)
  have h := few_step h (.other (c := 1) (o := .make_thread) (by constructor <;> simp) (Or.inl rfl)
    (.make_thread (t := .idle 1) ⟨⟨rfl, rfl, rfl, rfl⟩, rfl, rfl⟩)) trivial
  have h := few_step h (.other (c := 1) (o := .make_alloc 2) (by constructor <;> simp) (Or.inl rfl)
    (.make_alloc (t := .idle 1) ⟨rfl, rfl, rfl, rfl⟩ rfl rfl rfl)) trivial
  have h := few_step h (.other (c := 1) (o := .make_stack (1 + 2 * Threads.STACK_BYTES)) (by constructor <;> simp)
    (Or.inl rfl) (.make_stack (n := 2) (t := .idle 1) ⟨rfl, rfl, rfl, rfl⟩ rfl rfl ⟨by decide, hfresh⟩)) trivial
  exact few_step h (.other (c := 1) (o := .publish) (by constructor <;> simp) (Or.inl rfl)
    (.publish (n := 2) (t := .idle 1) ⟨rfl, rfl, rfl, rfl⟩ rfl (Nat.succ_ne_zero _))) trivial

/-- The idle thread of core 1 has given, and is about to make thread 0 ready. -/
def oneParked (K : Kind V) (v : V) : Monitor V :=
  { threads := (twoParked.setHolder 0 (some (.idle 1))).notify 1 0 [0] [1], value := K.give (K.take v)
    phase := Function.update (Function.update (fun _ => .none) (.thread 0) .waiting) (.thread 1) .waiting
    holds := Function.update (fun _ => false) (.idle 1) false, takes := 1, gives := 1 }

theorem oneParked_reachable (hb : K.blocked v = false) (ht : K.blocked (K.take v) = true) :
    (monitorSystem K 0 v).GuardedReachable FewGives (oneParked K v) := by
  have h := wait_reachable (c := 0) (n := 1) (threeThreads_reachable hb ht) ⟨rfl, rfl, rfl, rfl⟩ rfl rfl ht rfl
  have h := few_step h (.other (c := 0) (o := .post) (by constructor <;> simp) (Or.inr trivial)
    (.post_wait (p := 1) (k := 0) rfl rfl rfl rfl rfl (Nat.zero_lt_succ 0))) (fewGives_post rfl rfl)
  have h := few_step h (.call_give (c := 1) (t := .idle 1) ⟨rfl, rfl, rfl, rfl⟩ rfl fun _ => rfl) trivial
  have h := few_step h (.release (c := 1) rfl (.lock (t := .idle 1) ⟨rfl, rfl, rfl, rfl⟩ rfl)) trivial
  have h := few_step h (.give (c := 1) rfl (.notify_one (t := .idle 1) ⟨rfl, rfl, rfl, rfl⟩ rfl)) trivial
  have hcur : twoParked.current 1 = .idle 1 := rfl
  change (monitorSystem K 0 v).GuardedReachable FewGives
    { oneParked K v with
      phase := Function.update (Function.update (Function.update (oneParked K v).phase (.idle 1) .release) (.idle 1)
        .giving) (.idle 1) .none
      holds := Function.update (Function.update (fun _ => false) (.idle 1) true) (.idle 1) false } at h
  rw [Function.update_idem, update_back rfl, Function.update_idem] at h
  exact h

theorem oneParked_fewMissed : FewMissed (oneParked K v).threads := by
  -- No `post_switch` is to come.
  intro c p hg
  by_cases h0 : c = 0
  · subst h0
    cases hg
  · by_cases h1 : c = 1
    · subst h1
      cases hg
    · simp [Threads.stage, oneParked, twoParked, threeThreads, switchedOut, oneRuns, twoThreads, boot, h0, h1] at hg

theorem gives_reachable (hown : K.owned = false) (j : Nat) :
    ∃ m, (monitorSystem K k v).GuardedReachable FewGives m ∧ m.takes = 0 ∧ m.gives = j ∧ Passed k boot m.threads j ∧
      ∀ t, m.phase t = .none := by
  induction j with
  | zero => exact ⟨_, start_reachable boot_apart, rfl, rfl, ⟨rfl, rfl, rfl⟩, fun _ => rfl⟩
  | succ j ih =>
    obtain ⟨m, h, htakes, hgives, hpassed, hphase⟩ := ih
    have hruns : boot.Runs 0 (.idle 0) := ⟨rfl, rfl, rfl, rfl⟩
    have hgiven := give_reachable h (hpassed.runs hruns) (hphase _) (by rw [hpassed.cond]) (by rw [hpassed.cond])
      fun h => by simp [hown] at h
    exact ⟨_, hgiven, htakes, congrArg Nat.succ hgives, hpassed.notify, hphase⟩

end Kernel.Blocking
