import Kernel.Thread.Owner

/-!
# Lost wakeups (`condition.h`)

A thread is in a waiting queue only after it is switched out, so a
notification may fall between the release of the lock and that. Then the
epoch makes its `post_switch` put it back in the ready queue.
-/

namespace Kernel.Thread

open Lib

variable {s u v : Threads} {c d k n : Nat} {o : Op} {l : List (Nat × Op)}

namespace Threads

variable (s : Threads) (j : Nat) (t : Tid)

@[grind =] theorem setHolder_cond (h : Option Tid) :
    (s.setHolder k h).cond j = if j = k then { s.cond j with holder := h } else s.cond j := rfl
@[grind =] theorem release_cond :
    (s.release c k t).cond j = if j = k then { s.cond j with holder := none } else s.cond j := rfl
@[grind =] theorem setInside_cond (x : Option Nat) : (s.setInside t x).cond j = s.cond j := rfl
@[grind =] theorem park_cond :
    (s.park k n).cond j = if j = k then { s.cond j with waiting := (s.cond j).waiting ++ [n] } else s.cond j := rfl
@[grind =] theorem switched_cond : (s.switched c).cond j = s.cond j := rfl
@[grind =] theorem notify_cond (l rest : List Nat) :
    (s.notify c k l rest).cond j = if j = k then (s.cond j).notify rest else s.cond j := rfl

end Threads

/-! ## Epochs -/

/-- Fewer than `2 ^ 64` notifications came between a thread's `wait` and its `post_switch`. -/
def FewNotes (s : Threads) : Nat × Op → Prop
  | (c, .post) => ∀ p, s.stage c = .post (.thread p) → (s.tcb (.thread p)).action = .wait →
      (s.cond (s.tcb (.thread p)).cond).notes - (s.tcb (.thread p)).captured < 2 ^ 64
  | _ => True

structure NotesOk (s : Threads) : Prop where
  epoch : ∀ k, (s.cond k).epoch = (s.cond k).notes % 2 ^ 64
  seen : ∀ n k, s.inside (.thread n) = some k →
    (s.tcb (.thread n)).cond_epoch = (s.tcb (.thread n)).captured % 2 ^ 64 ∧
      (s.tcb (.thread n)).captured ≤ (s.cond k).notes

theorem step_cond (hs : ThreadStep s (c, o) u) (k : Nat) :
    ((u.cond k).epoch = (s.cond k).epoch ∧ (u.cond k).notes = (s.cond k).notes ∧
      ((u.cond k).waiting = (s.cond k).waiting ∨ ∃ p, s.stage c = .post (.thread p) ∧
        (s.tcb (.thread p)).action = .wait ∧ (s.tcb (.thread p)).cond = k ∧
        (s.cond k).epoch = (s.tcb (.thread p)).cond_epoch ∧ o = .post ∧
        (u.cond k).waiting = (s.cond k).waiting ++ [p])) ∨
    ∃ rest, u.cond k = (s.cond k).notify rest ∧ rest <:+ (s.cond k).waiting := by
  cases hs with
  | lock | unlock | wait | relock => grind -linarith
  | @post_wait c p j hg ha hc hh he =>
    by_cases hk : k = j
    · subst hk
      have hpark := (s.park k p).switched_cond (c := c) k
      rw [Threads.park_cond, if_pos rfl] at hpark
      rw [hpark]
      exact Or.inl ⟨rfl, rfl, Or.inr ⟨p, hg, ha, hc, he, rfl, rfl⟩⟩
    · grind -linarith
  | @notify_one c j =>
    by_cases hk : k = j
    · subst hk
      exact Or.inr ⟨_, if_pos rfl, List.tail_suffix _⟩
    · grind -linarith
  | @notify_all c j =>
    by_cases hk : k = j
    · subst hk
      exact Or.inr ⟨_, if_pos rfl, List.nil_suffix⟩
    · grind -linarith
  | _ => exact Or.inl ⟨rfl, rfl, Or.inl rfl⟩

theorem ThreadsOk.call_step (h : ThreadsOk s) (hs : ThreadStep s (c, o) u) (n : Nat) :
    (u.inside (.thread n) = s.inside (.thread n) ∨ u.inside (.thread n) = none) ∧
      (u.tcb (.thread n)).waits = (s.tcb (.thread n)).waits ∧
      (u.tcb (.thread n)).captured = (s.tcb (.thread n)).captured ∧
      (u.tcb (.thread n)).cond_epoch = (s.tcb (.thread n)).cond_epoch ∨
    s.inside (.thread n) = none ∧ ∃ k, u = s.release c k (.thread n) := by
  cases hs with
  | @wait c k m hr =>
    by_cases hn : n = m
    · subst hn
      exact Or.inr ⟨hr.inside, k, rfl⟩
    · have htcb : (s.release c k (.thread m)).tcb (.thread n) = s.tcb (.thread n) :=
      if_neg (fun e => hn (Tid.thread.inj e))
      rw [Threads.inside, htcb]
      exact Or.inl ⟨Or.inl rfl, rfl, rfl, rfl⟩
  | switch =>
    simp only [Threads.context_switch, Threads.inside, Threads.modCore_tcb, Threads.modTcb_tcb]
    grind -linarith
  | make_alloc hr hm hre hdead =>
    have htcb := h.alloc_tcb hr.current hdead true
    grind -linarith [Threads.inside, TCB.alloc]
  | fork_alloc hr hdead =>
    have htcb := h.alloc_tcb hr.current hdead false
    grind -linarith [Threads.inside, TCB.alloc]
  | publish hr hm =>
    have htcb := h.publish_tcb hr.current hm
    grind -linarith [Threads.inside]
  | _ => exact Or.inl (by grind -linarith [Threads.inside, TCB.disable_preemption, TCB.enable_preemption])

theorem step_notes (hs : ThreadStep s (c, o) u) (k : Nat) : (s.cond k).notes ≤ (u.cond k).notes := by
  rcases step_cond hs k with ⟨-, hnotes, -⟩ | ⟨rest, hu, -⟩
  · exact Nat.le_of_eq hnotes.symm
  · rw [hu]
    exact Nat.le_succ _

theorem NotesOk.step (hok : ThreadsOk s) (h : NotesOk s) (hs : ThreadStep s (c, o) u) : NotesOk u := by
  constructor
  · intro k
    have hk := h.epoch k
    rcases step_cond hs k with ⟨hepoch, hnotes, -⟩ | ⟨rest, hu, -⟩
    · rw [hepoch, hnotes, hk]
    · rw [hu]
      simp only [Condition.notify]
      omega
  · intro n k hin
    have hnotes := step_notes hs k
    rcases hok.call_step hs n with ⟨hsame | hnone, -, hcap, hepoch⟩ | ⟨-, j, rfl⟩
    · obtain ⟨he, hle⟩ := h.seen n k (hsame ▸ hin)
      rw [hcap, hepoch]
      exact ⟨he, Nat.le_trans hle hnotes⟩
    · rw [hnone] at hin
      cases hin
    · have htcb := Threads.release_tcb s c j (.thread n) (.thread n)
      rw [if_pos rfl] at htcb
      rw [Threads.inside, htcb] at hin
      cases hin
      rw [htcb]
      exact ⟨h.epoch k, hnotes⟩

theorem notesOk_booted (h : Booted s) : NotesOk s where
  epoch k := by
    rw [h.cond k]
    rfl
  seen n k hin := by
    rw [(h.tcb _).1] at hin
    cases hin

/-- No notification is missed: the epoch is another one than the thread saw. -/
theorem NotesOk.missed (h : NotesOk s) (hin : s.inside (.thread n) = some k)
    (hlt : (s.tcb (.thread n)).captured < (s.cond k).notes)
    (hfew : (s.cond k).notes - (s.tcb (.thread n)).captured < 2 ^ 64) :
    (s.cond k).epoch ≠ (s.tcb (.thread n)).cond_epoch := by
  rw [h.epoch, (h.seen n k hin).1]
  omega

/-! ## Where a waiter is -/

/-- The steps that a core takes before it makes thread `n` runnable, or 0 if it is not up to it. -/
def Stage.due (current : Tid) (n : Nat) : Stage → Nat
  | run => 0
  | released => if current = .thread n then 4 else 0
  | picked _ => if current = .thread n then 3 else 0
  | post prev => if prev = .thread n then 2 else 0
  | requeue p => if p = n then 1 else 0
  | adding l => if n ∈ l then l.idxOf n + 1 else 0

namespace Threads

def due (s : Threads) (c n : Nat) : Nat := (s.stage c).due (s.current c) n

/-- The thread is in the ready queue, or was taken from it. Or it runs, and is not about to be switched out. -/
def Runnable (s : Threads) (n : Nat) : Prop :=
  n ∈ s.readyQueue ∨ ∃ c, n ∈ s.cell (.next c) ∨ s.current c = .thread n ∧ s.due c n = 0

/-- The thread is in the `waits`th `wait` of its own, and a notification has come that it need not wait for. -/
structure Woken (s : Threads) (n k waits : Nat) : Prop where
  inside : s.inside (.thread n) = some k
  waits : (s.tcb (.thread n)).waits = waits
  waiting : n ∉ (s.cond k).waiting
  notified : (s.tcb (.thread n)).captured < (s.cond k).notes

/-- The thread has returned from its `waits`th `wait`. -/
def Returned (s : Threads) (n waits : Nat) : Prop :=
  waits < (s.tcb (.thread n)).waits ∨ (s.tcb (.thread n)).waits = waits ∧ s.inside (.thread n) = none

end Threads

theorem ThreadsOk.returned_step (h : ThreadsOk s) (hs : ThreadStep s (c, o) u) {w : Nat} (hret : s.Returned n w) :
    u.Returned n w := by
  rcases h.call_step hs n with ⟨hin, hwaits, -⟩ | ⟨-, j, rfl⟩
  · rcases hret with hlt | ⟨heq, hnone⟩
    · exact Or.inl (hwaits ▸ hlt)
    · refine Or.inr ⟨hwaits.trans heq, ?_⟩
      rcases hin with hin | hin
      · exact hin.trans hnone
      · exact hin
  · have htcb := Threads.release_tcb s c j (.thread n) (.thread n)
    rw [if_pos rfl] at htcb
    refine Or.inl ?_
    rw [htcb]
    rcases hret with hlt | ⟨heq, -⟩
    · exact Nat.lt_succ_of_lt hlt
    · exact Nat.lt_succ_of_le (Nat.le_of_eq heq.symm)

theorem woken_step (hok : ThreadsOk s) (hn : NotesOk s) (hs : ThreadStep s (c, o) u) (hfew : FewNotes s (c, o))
    {w : Nat} (h : s.Woken n k w) : u.Woken n k w ∨ u.Returned n w := by
  rcases hok.call_step hs n with ⟨hin, hwaits, hcap, -⟩ | ⟨hnone, -⟩
  · rcases hin with hin | hin
    · refine Or.inl ⟨hin.trans h.inside, hwaits.trans h.waits, fun hmem => ?_, ?_⟩
      · rcases step_cond hs k with ⟨-, -, hsame | ⟨p, hg, ha, hc, he, rfl, hadd⟩⟩ | ⟨rest, hu, hsub⟩
        · exact h.waiting (hsame ▸ hmem)
        · rw [hadd, List.mem_append, List.mem_singleton] at hmem
          rcases hmem with hmem | rfl
          · exact h.waiting hmem
          · have hlt := hfew n hg ha
            rw [hc] at hlt
            exact hn.missed h.inside h.notified hlt he
        · rw [hu] at hmem
          exact h.waiting (hsub.subset hmem)
      · rw [hcap]
        exact Nat.lt_of_lt_of_le h.notified (step_notes hs k)
    · exact Or.inr (Or.inr ⟨hwaits.trans h.waits, hin⟩)
  · rw [h.inside] at hnone
    cases hnone

theorem ThreadsOk.woken_place (h : ThreadsOk s) {w : Nat} (hw : s.Woken n k w) :
    s.Runnable n ∨ ∃ c, 0 < s.due c n := by
  have hbusy := h.busy n fun he => by
    have hin := hw.inside
    rw [Threads.inside, he.inside] at hin
    cases hin
  obtain ⟨p, hp⟩ := (h.placed.held n).mp hbusy.1
  have hdue : ∀ c g, s.stage c = g → s.due c n = g.due (s.current c) n := fun c g hg => by rw [Threads.due, hg]
  cases p with
  | ready => exact Or.inl (Or.inl hp)
  | waiting j =>
    have hin := h.waiting n j hp
    rw [hw.inside] at hin
    cases hin
    exact absurd hp hw.waiting
  | reaper => exact absurd hp hbusy.2.1
  | creator t => exact absurd hp (hbusy.2.2.1 t)
  | reaping t => exact absurd hp (hbusy.2.2.2 t)
  | next c => exact Or.inl (Or.inr ⟨c, Or.inl hp⟩)
  | running c =>
    have hcur := Tid.mem_threads.mp hp
    by_cases hzero : s.due c n = 0
    · exact Or.inl (Or.inr ⟨c, Or.inr ⟨hcur, hzero⟩⟩)
    · exact Or.inr ⟨c, Nat.pos_of_ne_zero hzero⟩
  | notified c =>
    refine Or.inr ⟨c, ?_⟩
    cases hg : s.stage c with
    | adding l =>
      have hmem : n ∈ l := by rwa [(Threads.cell_stage hg).2.1] at hp
      rw [hdue c _ hg, Stage.due, if_pos hmem]
      exact Nat.succ_pos _
    | _ => simp [Threads.cell, hg, Stage.notified] at hp
  | pending c =>
    refine Or.inr ⟨c, ?_⟩
    cases hg : s.stage c with
    | post prev =>
      rw [(Threads.cell_stage hg).2.2] at hp
      rw [hdue c _ hg, Stage.due, if_pos (Tid.mem_threads.mp hp)]
      exact Nat.two_pos
    | requeue m =>
      rw [(Threads.cell_stage hg).2.2, Stage.pending, List.mem_singleton] at hp
      rw [hdue c _ hg, Stage.due, if_pos hp.symm]
      exact Nat.one_pos
    | _ => simp [Threads.cell, hg, Stage.pending] at hp

/-! ## What the cores do -/

theorem due_other (hs : ThreadStep s (c, o) u) (hd : d ≠ c) (n : Nat) : u.due d n = s.due d n := by
  simp only [Threads.due, Threads.stage, Threads.current, step_core hs hd]

attribute [local grind =] Threads.current Threads.stage Threads.count Threads.inside Threads.due Stage.due StageOk

theorem ThreadsOk.running_step (h : ThreadsOk s) (hs : ThreadStep s (c, o) u) (hin : s.inside (.thread n) = some k)
    (hcur : s.current c = .thread n) (hdue : s.due c n = 0) :
    u.current c = .thread n ∧ u.due c n = 0 ∨ u.inside (.thread n) = none := by
  have hstage := (h.core c).stage
  have huser := (h.core c).user
  cases hs with
  | switch hg => grind -linarith
  | _ => grind -linarith [Threads.Runs, Threads.Clear]

theorem due_step (hok : ThreadsOk s) (hn : NotesOk s) (hs : ThreadStep s (c, o) u) (hfew : FewNotes s (c, o))
    {w : Nat} (h : s.Woken n k w) (hdue : 0 < s.due c n) :
    u.due c n < s.due c n ∧ (u.due c n = 0 → u.Runnable n) := by
  have hstage := (hok.core c).stage
  have huser := (hok.core c).user
  have hin := h.inside
  -- A `post_switch` is that of a `wait`, and finds another epoch.
  have hpost : ∀ {p}, s.stage c = .post (.thread p) → p = n := fun hg => by grind -linarith
  cases hs with
  | wait_none hg hq =>
    have hzero : (s.wait_none c).due c n = 0 := by grind -linarith
    exact ⟨hzero ▸ hdue, fun _ => Or.inr ⟨c, Or.inr ⟨by grind -linarith, hzero⟩⟩⟩
  | wait_remove hg => grind -linarith
  | @switch c next hg =>
    have hprev : s.current c = .thread n := by grind -linarith
    have htwo : (s.context_switch c next).due c n = 2 := by grind -linarith
    have hthree : s.due c n = 3 := by grind -linarith
    omega
  | post_ready hg ha => grind -linarith [Leaving]
  | post_stop hg ha => grind -linarith [Leaving]
  | post_none hg ha => grind -linarith [Leaving, Tid.is_idle]
  | @post_wait c p j hg ha hc hh he =>
    obtain rfl := hpost hg
    have hj : j = k := by grind -linarith [Leaving]
    subst hj
    have hlt := hfew p hg ha
    rw [hc] at hlt
    exact absurd he (hn.missed h.inside h.notified hlt)
  | post_again hg => grind -linarith
  | @requeue c p hg =>
    have hp : p = n := by grind -linarith
    refine ⟨by grind -linarith, fun _ => Or.inl (List.mem_append_right _ ?_)⟩
    rw [hp]
    exact List.mem_cons_self
  | @add c m l hg =>
    have hnodup := hok.placed.nodup (.notified c)
    rw [(Threads.cell_stage hg).2.1] at hnodup
    have hnot : m ∉ l := (List.nodup_cons.mp hnodup).1
    by_cases hm : m = n
    · subst hm
      have hzero : ((s.ready m).setStage c (.adding l)).due c m = 0 := by grind -linarith
      rw [hzero]
      exact ⟨hdue, fun _ => Or.inl (List.mem_append_right _ List.mem_cons_self)⟩
    · have hmem : n ∈ l := by grind -linarith
      have hnew : ((s.ready m).setStage c (.adding l)).due c n = l.idxOf n + 1 := by grind -linarith
      have hold : s.due c n = (l.idxOf n + 1) + 1 := by
        have hidx := List.idxOf_cons_ne l hm
        grind -linarith
      omega
  | _ => grind -linarith [Threads.Runs, Threads.Clear]

theorem ThreadsOk.runnable_step (h : ThreadsOk s) (hs : ThreadStep s (c, o) u) (hin : s.inside (.thread n) = some k)
    (hrun : s.Runnable n) : u.Runnable n ∨ u.inside (.thread n) = none := by
  rcases hrun with hq | ⟨d, hnext | ⟨hcur, hdue⟩⟩
  · -- `readyQueue.remove()` may take it.
    have htake : ∀ {m rest}, s.readyQueue = m :: rest → u.readyQueue = rest → u.stage c = .picked (.thread m) →
        u.Runnable n := fun {m rest} hs hu hg => by
      rw [hs] at hq
      rcases List.mem_cons.mp hq with rfl | hq
      · refine Or.inr ⟨c, Or.inl ?_⟩
        rw [(Threads.cell_stage hg).1]
        exact List.mem_cons_self
      · exact Or.inl (hu ▸ hq)
    refine Or.inl ?_
    cases hs with
    | wait_remove hg hk hr => exact htake hr rfl (congrArg Core.stage (if_pos rfl))
    | yield hcl hr => exact htake hr rfl (congrArg Core.stage (if_pos rfl))
    | stop hcl hr => exact htake hr rfl (congrArg Core.stage (if_pos rfl))
    | loop hcl hl hr => exact htake hr rfl (congrArg Core.stage (if_pos rfl))
    | stop_idle hcl hr =>
      rw [hr] at hq
      cases hq
    | post_ready | requeue | add | publish => exact Or.inl (List.mem_append_left _ hq)
    | _ => exact Or.inl hq
  · by_cases hd : d = c
    · subst hd
      cases hg : s.stage d with
      | picked next =>
        rw [(Threads.cell_stage hg).1] at hnext
        have hcur : s.current d ≠ .thread n := fun hcur => by
          have hin : n ∈ s.cell (.next d) := by rwa [(Threads.cell_stage hg).1]
          exact Place.noConfusion (h.placed.apart _ (.running d) n hin (Tid.mem_threads.mpr hcur))
        obtain rfl := Tid.mem_threads.mp hnext
        have ho := step_picked (h.core d) hs hg
        refine Or.inl (Or.inr ⟨d, Or.inr ?_⟩)
        cases hs <;> grind -linarith
      | _ => simp [Threads.cell, hg, Stage.next] at hnext
    · refine Or.inl (Or.inr ⟨d, Or.inl ?_⟩)
      have hcore : u.core d = s.core d := step_core hs hd
      rw [Threads.cell, Threads.stage, hcore]
      exact hnext
  · by_cases hd : d = c
    · subst hd
      exact (h.running_step hs hin hcur hdue).imp_left fun hu => Or.inr ⟨d, Or.inr hu⟩
    · refine Or.inl (Or.inr ⟨d, Or.inr ⟨?_, (due_other hs hd n).trans hdue⟩⟩)
      rw [Threads.current, step_core hs hd]
      exact hcur

theorem ThreadsOk.count_pos (h : ThreadsOk s) (hd : 0 < (s.stage c).disabled) : 0 < s.count (s.current c) := by
  have hcount := (h.core c).count
  have hidle := (h.core c).idle
  by_cases hcur : (s.core c).current = .idle c
  · have := hidle hcur
    grind -linarith
  · have := hcount hcur
    grind -linarith

/-- Only the spin lock holds up a core that is about to make a thread runnable. -/
theorem due_enabled (h : ThreadsOk s) {w : Nat} (hw : s.Woken n k w) (hdue : 0 < s.due c n)
    (hfree : (s.cond k).holder = none) : ∃ o u, ThreadStep s (c, o) u := by
  have hstage := (h.core c).stage
  have hin := hw.inside
  cases hg : s.stage c with
  | run => grind -linarith
  | released =>
    have hcur : s.current c = .thread n := by grind -linarith
    cases hq : s.readyQueue with
    | nil => exact ⟨_, _, .wait_none hg hq (h.count_pos (by rw [hg]; exact Nat.one_pos))⟩
    | cons m rest => exact ⟨_, _, .wait_remove hg (hcur ▸ hin) hq⟩
  | picked next => exact ⟨_, _, .switch hg⟩
  | post prev =>
    obtain rfl : prev = .thread n := by grind -linarith
    have hcount := h.count_pos (c := c) (by rw [hg]; exact Nat.one_pos)
    have hact : (s.tcb (.thread n)).action = .wait ∧ (s.tcb (.thread n)).cond = k := by
      cases ha : (s.tcb (.thread n)).action <;> grind -linarith [Leaving, Tid.is_idle]
    by_cases he : (s.cond k).epoch = (s.tcb (.thread n)).cond_epoch
    · exact ⟨_, _, .post_wait hg hact.1 hact.2 hfree he hcount⟩
    · exact ⟨_, _, .post_again hg hact.1 hact.2 hfree he⟩
  | requeue p => exact ⟨_, _, .requeue hg (h.count_pos (by rw [hg]; exact Nat.one_pos))⟩
  | adding l =>
    cases l with
    | nil => grind -linarith
    | cons m l => exact ⟨_, _, .add hg⟩

/-! ## Runs -/

/-- The thread is still in the `wait` that it is in in state `s`. -/
structure Threads.Still (s v : Threads) (n k : Nat) : Prop where
  inside : v.inside (.thread n) = some k
  waits : (v.tcb (.thread n)).waits = (s.tcb (.thread n)).waits

/--
Within `b` steps of core `c`, in any run, thread `n` is runnable and stays so, or its `wait` returns. Only the spin
lock holds the core up.
-/
structure Threads.RunnableBy (s : Threads) (n k c b : Nat) : Prop where
  runnable : ∀ l v, threadSystem.GuardedRun FewNotes s l v → s.Still v n k → b ≤ l.countP (fun a => a.1 = c) →
    v.Runnable n
  enabled : ∀ l v, threadSystem.GuardedRun FewNotes s l v → s.Still v n k → ¬ v.Runnable n →
    (v.cond k).holder = none → ∃ o w, ThreadStep v (c, o) w

/-- The thread is made runnable, and needs no other notification for it. -/
def Threads.MadeRunnable (s : Threads) (n k : Nat) : Prop := ∃ c b, s.RunnableBy n k c b

/-- What the run keeps: the thread has returned, or it is runnable, or core `c` will have made it so by step `b`. -/
structure WakesOk (s v : Threads) (n k c b : Nat) (l : List (Nat × Op)) : Prop where
  threads : ThreadsOk v
  notes : NotesOk v
  woken : v.Returned n (s.tcb (.thread n)).waits ∨ v.Woken n k (s.tcb (.thread n)).waits ∧
    (v.Runnable n ∨ 0 < v.due c n ∧ v.due c n + l.countP (fun a => a.1 = c) ≤ b)

theorem WakesOk.step {b : Nat} {a : Nat × Op} (h : WakesOk s v n k c b l) (hs : ThreadStep v a u)
    (hfew : FewNotes v a) : WakesOk s u n k c b (l ++ [a]) := by
  obtain ⟨d, o⟩ := a
  refine ⟨h.threads.step hs, h.notes.step h.threads hs, ?_⟩
  rcases h.woken with hret | ⟨hwoken, hrun⟩
  · exact Or.inl (h.threads.returned_step hs hret)
  rcases woken_step h.threads h.notes hs hfew hwoken with hwoken' | hret
  · rcases hrun with hrun | ⟨hpos, hle⟩
    · refine Or.inr ⟨hwoken', Or.inl ((h.threads.runnable_step hs hwoken.inside hrun).resolve_right ?_)⟩
      rw [hwoken'.inside]
      simp
    · refine Or.inr ⟨hwoken', ?_⟩
      rw [List.countP_append, List.countP_singleton]
      by_cases hd : d = c
      · subst hd
        obtain ⟨hlt, hzero⟩ := due_step h.threads h.notes hs hfew hwoken hpos
        rcases Nat.eq_zero_or_pos (u.due d n) with hu | hu
        · exact Or.inl (hzero hu)
        · refine Or.inr ⟨hu, ?_⟩
          rw [if_pos (by simp)]
          omega
      · rw [due_other hs (Ne.symm hd), if_neg (by simpa using hd)]
        exact Or.inr ⟨hpos, hle⟩
  · exact Or.inl hret

theorem woken_made_runnable (hok : ThreadsOk s) (hn : NotesOk s) (h : s.Woken n k (s.tcb (.thread n)).waits) :
    s.MadeRunnable n k := by
  obtain ⟨c, hc⟩ : ∃ c, s.Runnable n ∨ 0 < s.due c n := by
    rcases hok.woken_place h with hrun | ⟨c, hc⟩
    · exact ⟨0, Or.inl hrun⟩
    · exact ⟨c, Or.inr hc⟩
  have hall : ∀ {l v}, threadSystem.GuardedRun FewNotes s l v → WakesOk s v n k c (s.due c n) l := fun hrun => by
    induction hrun with
    | nil => exact ⟨hok, hn, Or.inr ⟨h, hc.imp_right fun hc => ⟨hc, Nat.le_refl _⟩⟩⟩
    | snoc hrun hfew hs ih => exact ih.step hs hfew
  have hstill : ∀ {v}, s.Still v n k → ¬ v.Returned n (s.tcb (.thread n)).waits := by
    rintro v hv (hlt | ⟨-, hnone⟩)
    · rw [hv.waits] at hlt
      exact Nat.lt_irrefl _ hlt
    · rw [hv.inside] at hnone
      cases hnone
  refine ⟨c, s.due c n, fun l v hrun hv hle => ?_, fun l v hrun hv hnot hfree => ?_⟩
  · rcases ((hall hrun).woken.resolve_left (hstill hv)).2 with hrunnable | ⟨hpos, hdue⟩
    · exact hrunnable
    · omega
  · obtain ⟨hwoken, hrunnable⟩ := (hall hrun).woken.resolve_left (hstill hv)
    exact due_enabled (hall hrun).threads hwoken (hrunnable.resolve_left hnot).1 hfree

/-! ## Notifications -/

theorem notesOk_inductive : System.Inductive threadSystem fun s => ThreadsOk s ∧ NotesOk s where
  init _ h := ⟨threadsOk_booted h, notesOk_booted h⟩
  step _ _ _ h hs := ⟨h.1.step hs, h.2.step h.1 hs⟩

variable {t : Tid}

theorem holder_step (hs : ThreadStep s (c, o) u) (hheld : (s.cond k).holder = some t) :
    (u.cond k).holder = some t ∨ (u.cond k).holder = none := by
  cases hs with
  | lock | unlock | wait | relock | post_wait => grind -linarith
  | notify_one | notify_all => grind -linarith [Condition.notify]
  | _ => exact Or.inl hheld

theorem ThreadsOk.inside_step (h : ThreadsOk s) (hs : ThreadStep s (c, o) u) (hheld : (s.cond k).holder = some t)
    (hkept : (u.cond k).holder = some t) (n : Nat) :
    u.inside (.thread n) = some k ↔ s.inside (.thread n) = some k := by
  cases hs with
  | switch =>
    simp only [Threads.context_switch, Threads.inside, Threads.modCore_tcb, Threads.modTcb_tcb]
    grind -linarith
  | make_alloc hr hm hre hdead =>
    have htcb := h.alloc_tcb hr.current hdead true
    have hbusy := h.busy n
    grind -linarith [TCB.alloc, Threads.Alive]
  | fork_alloc hr hdead =>
    have htcb := h.alloc_tcb hr.current hdead false
    have hbusy := h.busy n
    grind -linarith [TCB.alloc, Threads.Alive]
  | publish hr hm =>
    have htcb := h.publish_tcb hr.current hm
    grind -linarith
  | _ => grind -linarith [Threads.Runs, TCB.disable_preemption, TCB.enable_preemption]

/-- `t` has the lock in `s`, as it has when it has just acquired it, and keeps it until its notification. -/
theorem no_lost_wakeup (h : threadSystem.Reachable s) (hheld : (s.cond k).holder = some t)
    (hrun : threadSystem.GuardedRun (fun w _ => (w.cond k).holder = some t) s l v) :
    (∀ u, ThreadStep v (c, .notify_all k) u → ∀ n, s.inside (.thread n) = some k → u.MadeRunnable n k) ∧
    ∀ u, ThreadStep v (c, .notify_one k) u → (∃ n, s.inside (.thread n) = some k) →
      ∃ n, s.inside (.thread n) = some k ∧ u.MadeRunnable n k := by
  have hok := notesOk_inductive.reachable h
  -- Whoever is in `wait` when the lock is taken still is when the notification comes.
  have hsame : (ThreadsOk v ∧ NotesOk v) ∧ ((v.cond k).holder = none ∨ (v.cond k).holder = some t ∧
      ∀ n, v.inside (.thread n) = some k ↔ s.inside (.thread n) = some k) := by
    induction hrun with
    | nil => exact ⟨hok, Or.inr ⟨hheld, fun n => Iff.rfl⟩⟩
    | snoc hrun hhas hs ih =>
      refine ⟨notesOk_inductive.step _ _ _ ih.1 hs, ?_⟩
      obtain ⟨-, hin⟩ := ih.2.resolve_left (by rw [hhas]; simp)
      rcases holder_step hs hhas with hkept | hnone
      · exact Or.inr ⟨hkept, fun n => (ih.1.1.inside_step hs hhas hkept n).trans (hin n)⟩
      · exact Or.inl hnone
  obtain ⟨⟨hv, hnotes⟩, hin⟩ := hsame
  have hwoken : ∀ {u o rest n}, ThreadStep v (c, o) u → u.tcb = v.tcb → u.cond k = (v.cond k).notify rest →
      v.inside (.thread n) = some k → n ∉ rest → u.MadeRunnable n k := by
    intro u o rest n hs htcb hcond hin hn
    refine woken_made_runnable (hv.step hs) (hnotes.step hv hs) ⟨?_, rfl, ?_, ?_⟩
    · rw [Threads.inside, htcb]
      exact hin
    · rw [hcond]
      exact hn
    · rw [hcond, htcb]
      exact Nat.lt_succ_of_le (hnotes.seen n k hin).2
  refine ⟨fun u hs n hn => ?_, fun u hs ⟨n, hn⟩ => ?_⟩
  · cases hs with
    | notify_all hr hh =>
      have hiff := (hin.resolve_left (by rw [hh]; simp)).2 n
      exact hwoken (.notify_all hr hh) rfl (if_pos rfl) (hiff.mpr hn) List.not_mem_nil
  · cases hs with
    | notify_one hr hh =>
      have hiff := (hin.resolve_left (by rw [hh]; simp)).2
      have hwaiting : (v.cond k).waiting = [] ∨ ∃ m rest, (v.cond k).waiting = m :: rest := by
        cases (v.cond k).waiting <;> simp
      rcases hwaiting with hq | ⟨m, rest, hq⟩
      · refine ⟨n, hn, hwoken (.notify_one hr hh) rfl (if_pos rfl) ((hiff n).mpr hn) ?_⟩
        rw [hq]
        exact List.not_mem_nil
      · have hnodup : (m :: rest).Nodup := hq ▸ hv.placed.nodup (.waiting k)
        have hmem : m ∈ (v.cond k).waiting := hq ▸ List.mem_cons_self
        have hm := hv.waiting m k hmem
        refine ⟨m, (hiff m).mp hm, hwoken (.notify_one hr hh) rfl (if_pos rfl) hm ?_⟩
        rw [hq]
        exact (List.nodup_cons.mp hnodup).1

theorem blockedCreator_notified :
    ((blockedCreator.setHolder 0 (some (.thread 1))).notify 0 0 [0] []).MadeRunnable 0 0 := by
  have hruns : blockedCreator.Runs 0 (.thread 1) := ⟨rfl, rfl, rfl, rfl⟩
  have h := reachable_step blockedCreator_reachable (.lock (k := 0) hruns rfl)
  exact (no_lost_wakeup (c := 0) (k := 0) h rfl (.nil _)).1 _ (.notify_all ⟨rfl, rfl, rfl, rfl⟩ rfl) 0 rfl

end Kernel.Thread
