import Kernel.Thread.Places

/-!
# Threads in every run

What a core and a thread keep to, whatever the other cores do.
-/

namespace Kernel.Thread

open Lib

/-! ## What each call writes -/

namespace Threads

variable (s : Threads) (c d k n m : Nat) (t w : Tid)

attribute [local simp] current stage count setStage setHolder setInside setMaking setReaping

@[simp, grind =] theorem setStage_tcb (g : Stage) : (s.setStage c g).tcb w = s.tcb w := rfl
@[simp, grind =] theorem setStage_core (g : Stage) :
    (s.setStage c g).core d = if d = c then { s.core d with stage := g } else s.core d := rfl
@[simp, grind =] theorem setHolder_tcb (h : Option Tid) : (s.setHolder k h).tcb w = s.tcb w := rfl
@[simp, grind =] theorem setHolder_core (h : Option Tid) : (s.setHolder k h).core d = s.core d := rfl
@[simp, grind =] theorem setInside_tcb (x : Option Nat) :
    (s.setInside t x).tcb w = if w = t then { s.tcb w with inside := x } else s.tcb w := rfl
@[simp, grind =] theorem setInside_core (x : Option Nat) : (s.setInside t x).core d = s.core d := rfl
@[simp, grind =] theorem setMaking_tcb (x : Making) :
    (s.setMaking t x).tcb w = if w = t then { s.tcb w with making := x } else s.tcb w := rfl
@[simp, grind =] theorem setMaking_core (x : Making) : (s.setMaking t x).core d = s.core d := rfl
@[simp, grind =] theorem setReaping_tcb (x : Reaping) :
    (s.setReaping t x).tcb w = if w = t then { s.tcb w with reaping := x } else s.tcb w := rfl
@[simp, grind =] theorem setReaping_core (x : Reaping) : (s.setReaping t x).core d = s.core d := rfl
@[simp, grind =] theorem ready_tcb : (s.ready n).tcb w = s.tcb w := rfl
@[simp, grind =] theorem ready_core : (s.ready n).core d = s.core d := rfl
@[simp, grind =] theorem park_tcb : (s.park k n).tcb w = s.tcb w := rfl
@[simp, grind =] theorem park_core : (s.park k n).core d = s.core d := rfl
@[simp, grind =] theorem notify_tcb (l rest : List Nat) : (s.notify c k l rest).tcb w = s.tcb w := rfl
@[simp, grind =] theorem notify_core (l rest : List Nat) :
    (s.notify c k l rest).core d = if d = c then { s.core d with stage := .adding l } else s.core d := rfl

@[simp, grind =] theorem pick_tcb (x : Action) (next : Tid) (rest : List Nat) :
    (s.pick c t x next rest).tcb w = if w = t then { (s.tcb w).disable_preemption with action := x } else s.tcb w := rfl
@[simp, grind =] theorem pick_core (x : Action) (next : Tid) (rest : List Nat) :
    (s.pick c t x next rest).core d = if d = c then { s.core d with stage := .picked next } else s.core d := rfl

@[simp, grind =] theorem switched_tcb :
    (s.switched c).tcb w = if w = s.current c then (s.tcb w).enable_preemption else s.tcb w := rfl
@[simp, grind =] theorem switched_core :
    (s.switched c).core d = if d = c then { s.core d with stage := .run, rsp0 := s.tss_rsp0 c } else s.core d := rfl

@[simp, grind =] theorem release_tcb : (s.release c k t).tcb w =
    if w = t then { (s.tcb w).disable_preemption with
      cond_epoch := (s.cond k).epoch, inside := some k, captured := (s.cond k).notes, waits := (s.tcb w).waits + 1 }
    else s.tcb w := rfl
@[simp, grind =] theorem release_core :
    (s.release c k t).core d = if d = c then { s.core d with stage := .released } else s.core d := rfl

@[simp, grind =] theorem wait_none_tcb :
    (s.wait_none c).tcb w = if w = s.current c then (s.tcb w).enable_preemption else s.tcb w := rfl
@[simp, grind =] theorem wait_none_core :
    (s.wait_none c).core d = if d = c then { s.core d with stage := .run } else s.core d := rfl
@[simp, grind =] theorem wait_remove_tcb (rest : List Nat) : (s.wait_remove c k n rest).tcb w =
    if w = s.current c then { s.tcb w with action := .wait, cond := k } else s.tcb w := rfl
@[simp, grind =] theorem wait_remove_core (rest : List Nat) : (s.wait_remove c k n rest).core d =
    if d = c then { s.core d with stage := .picked (.thread n) } else s.core d := rfl

@[simp, grind =] theorem start_loop_tcb :
    (s.start_loop c).tcb w = if w = .idle c then (s.tcb w).disable_preemption else s.tcb w := rfl
@[simp, grind =] theorem start_loop_core :
    (s.start_loop c).core d = if d = c then { s.core d with looping := true } else s.core d := rfl

theorem context_switch_tcb (h : s.current c ≠ t) : (s.context_switch c t).tcb w =
    if w = t then { s.tcb w with saved := false } else if w = s.current c then { s.tcb w with saved := true }
    else s.tcb w := by
  unfold context_switch
  simp only [modCore_tcb, modTcb_tcb]
  split_ifs with h1 h2
  · exact absurd (h2.symm.trans h1) h
  · rfl
  · rfl
  · rfl
@[simp, grind =] theorem context_switch_core : (s.context_switch c t).core d =
    if d = c then { s.core d with current := t, stage := .post (s.core d).current } else s.core d := rfl

@[simp, grind =] theorem make_stack_tcb (a : Nat) : (s.make_stack n a).tcb w =
    if w = .thread n then { s.tcb w with the_stack := a, stack_bottom := a + STACK_BYTES } else s.tcb w := rfl
@[simp, grind =] theorem make_stack_core (a : Nat) : (s.make_stack n a).core d = s.core d := rfl

@[simp, grind =] theorem sysret_tcb (rsp : Nat) :
    (s.sysret c n rsp).tcb w = if w = .thread n then { s.tcb w with entered := none } else s.tcb w := rfl
@[simp, grind =] theorem sysret_core (rsp : Nat) :
    (s.sysret c n rsp).core d = if d = c then { s.core d with user := true, rsp0 := rsp } else s.core d := rfl
@[simp, grind =] theorem syscall_tcb : (s.syscall c n).tcb w =
    if w = .thread n then { s.tcb w with entered := some (s.core c).rsp0 } else s.tcb w := rfl
@[simp, grind =] theorem syscall_core :
    (s.syscall c n).core d = if d = c then { s.core d with user := false } else s.core d := rfl

@[simp, grind =] theorem alloc_core (b : Bool) : (s.alloc t n b).core d = s.core d := rfl
@[simp, grind =] theorem publish_core : (s.publish t n).core d = s.core d := rfl

theorem alloc_tcb (b : Bool) (h : t ≠ .thread n) : (s.alloc t n b).tcb w =
    if w = .thread n then (s.tcb w).alloc else if w = t then { s.tcb w with making := .made n b } else s.tcb w := by
  unfold alloc
  simp only [setMaking_tcb, setAlive_tcb, modTcb_tcb]
  split_ifs with h1 h2
  · exact absurd (h1.symm.trans h2) h
  · rfl
  · rfl
  · rfl

theorem publish_tcb (h : t ≠ .thread n) : (s.publish t n).tcb w =
    if w = .thread n then { s.tcb w with saved := true } else if w = t then { s.tcb w with making := .none }
    else s.tcb w := by
  unfold publish
  simp only [setMaking_tcb, ready_tcb, modTcb_tcb]
  split_ifs with h1 h2
  · exact absurd (h1.symm.trans h2) h
  · rfl
  · rfl
  · rfl

end Threads

/-! ## The invariant -/

/-- How often the current thread has called `disable_preemption` for a switch. -/
def Stage.disabled : Stage → Nat
  | run | adding _ => 0
  | released | picked _ | post _ | requeue _ => 1

/-- The thread is in no `wait`, in no `make_thread` or `fork`, and in no `reap`. -/
structure TCB.Empty (x : TCB) : Prop where
  inside : x.inside = none
  making : x.making = .none
  reaping : x.reaping = .none

@[grind =] theorem TCB.empty_iff {x : TCB} :
    x.Empty ↔ x.inside = none ∧ x.making = .none ∧ x.reaping = .none :=
  ⟨fun h => ⟨h.inside, h.making, h.reaping⟩, fun h => ⟨h.1, h.2.1, h.2.2⟩⟩

/-- What `post_switch` is to do with `t` fits where `t` was switched out. -/
def Leaving (t : Tid) (x : TCB) : Prop :=
  (x.action = .none ↔ t.is_idle = true) ∧ (x.action = .wait → x.inside = some x.cond) ∧
    (x.action = .ready ∨ x.action = .stop → x.Empty)

/-- What core `c` is in the middle of. -/
def StageOk (tcb : Tid → TCB) (c : Nat) (current : Tid) : Stage → Prop
  | .run => True
  | .released => current ≠ .idle c ∧ (tcb current).inside ≠ none
  | .picked next => Leaving current (tcb current) ∧ ∀ d, next = .idle d → d = c ∧ current ≠ .idle c
  | .post prev => Leaving prev (tcb prev) ∧ ∀ d, prev = .idle d → d = c ∧ current ≠ .idle c
  | .requeue p => (tcb (.thread p)).inside = some (tcb (.thread p)).cond
  | .adding _ => (tcb current).inside = none

structure CoreOk (tcb : Tid → TCB) (c : Nat) (x : Core) : Prop where
  own : ∀ d, x.current = .idle d → d = c
  count : x.current ≠ .idle c → (tcb x.current).disable_preemption_count = x.stage.disabled
  idle : x.current = .idle c →
    (tcb (.idle c)).disable_preemption_count = (if x.looping then 2 else 1) + x.stage.disabled
  idle_out : x.current ≠ .idle c →
    (tcb (.idle c)).saved = true ∧ (tcb (.idle c)).disable_preemption_count = 3 ∧ x.looping = true
  boot : x.looping = false → x.stage.disabled = 0
  stage : StageOk tcb c x.current x.stage
  user : x.user = true → x.stage = .run ∧ x.current ≠ .idle c ∧ (tcb x.current).Empty

structure ThreadsOk (s : Threads) : Prop where
  placed : Placed s.Alive s.cell
  core : ∀ c, CoreOk s.tcb c (s.core c)
  out : ∀ n, s.Alive n → (∀ c, s.current c ≠ .thread n) → (∀ t, n ∉ s.cell (.creator t)) →
    (s.tcb (.thread n)).saved = true ∧ s.count (.thread n) = 1
  made : ∀ n t, n ∈ s.cell (.creator t) → s.count (.thread n) = 1
  waiting : ∀ n k, n ∈ s.cell (.waiting k) → s.inside (.thread n) = some k
  busy : ∀ n, ¬ (s.tcb (.thread n)).Empty → s.Alive n ∧ n ∉ s.cell .reaper ∧ (∀ t, n ∉ s.cell (.creator t)) ∧
    ∀ t, n ∉ s.cell (.reaping t)
  idle_inside : ∀ c, s.inside (.idle c) = none

variable {s u : Threads} {a : Nat × Op} {c d : Nat} {o : Op}

/-! ## Other cores -/

/-- The threads that the invariant of a core is about. -/
def Core.Touches (x : Core) (c : Nat) (t : Tid) : Prop :=
  t = x.current ∨ t = .idle c ∨ x.stage = .post t ∨ ∃ p, x.stage = .requeue p ∧ t = .thread p

theorem CoreOk.congr {tcb tcb' : Tid → TCB} {x : Core} (h : CoreOk tcb c x)
    (heq : ∀ t, x.Touches c t → tcb' t = tcb t) : CoreOk tcb' c x := by
  have hcur := heq x.current (Or.inl rfl)
  have hidle := heq (.idle c) (Or.inr (Or.inl rfl))
  constructor
  · exact h.own
  · rw [hcur]
    exact h.count
  · rw [hidle]
    exact h.idle
  · rw [hidle]
    exact h.idle_out
  · exact h.boot
  · have hstage := h.stage
    cases hg : x.stage with
    | run => trivial
    | released => simpa only [hg, StageOk, hcur] using hstage
    | picked next => simpa only [hg, StageOk, hcur] using hstage
    | post prev =>
      have hprev := heq prev (Or.inr (Or.inr (Or.inl hg)))
      simpa only [hg, StageOk, hprev] using hstage
    | requeue p =>
      have hprev := heq (.thread p) (Or.inr (Or.inr (Or.inr ⟨p, hg, rfl⟩)))
      simpa only [hg, StageOk, hprev] using hstage
    | adding l => simpa only [hg, StageOk, hcur] using hstage
  · rw [hcur]
    exact h.user

/-- The threads that a step of core `c` may change. -/
def Threads.Modifies (s : Threads) (c : Nat) (t : Tid) : Prop :=
  t = s.current c ∨ t = .idle c ∨ ∃ n, t = .thread n ∧
    (n ∈ s.cell (.next c) ∨ n ∈ s.cell (.creator (s.current c)) ∨ ¬ s.Alive n)

theorem step_core (hs : ThreadStep s (c, o) u) (hd : d ≠ c) : u.core d = s.core d := by
  cases hs <;> simp [hd, Threads.context_switch]

theorem step_tcb (h : CoreOk s.tcb c (s.core c)) (hs : ThreadStep s (c, o) u) {t : Tid} (ht : ¬ s.Modifies c t) :
    u.tcb t = s.tcb t := by
  have hcur : t ≠ s.current c := fun e => ht (Or.inl e)
  have hidle : t ≠ .idle c := fun e => ht (Or.inr (Or.inl e))
  have hnext : ∀ n ∈ s.cell (.next c), t ≠ .thread n := fun n hn e => ht (Or.inr (Or.inr ⟨n, e, Or.inl hn⟩))
  have hmade : ∀ n ∈ s.cell (.creator (s.current c)), t ≠ .thread n :=
    fun n hn e => ht (Or.inr (Or.inr ⟨n, e, Or.inr (Or.inl hn)⟩))
  have hdead : ∀ n, s.alive n = false → t ≠ .thread n :=
    fun n hn e => ht (Or.inr (Or.inr ⟨n, e, Or.inr (Or.inr (by simp [Threads.Alive, hn]))⟩))
  have hown : ∀ {w n b}, s.Runs c w → s.making w = .made n b → n ∈ s.cell (.creator (s.current c)) := by
    intro w n b hr hm
    rw [hr.current]
    simp [Threads.cell, hm, Making.threads]
  have hrun : ∀ w, s.Runs c w → t ≠ w := fun w hr e => hcur (e.trans hr.current.symm)
  cases hs with
  | @switch c next hg =>
    have hne : t ≠ next := by
      rintro rfl
      cases t with
      | thread n => exact hnext n (by rw [(Threads.cell_stage hg).1]; exact List.mem_cons_self) rfl
      | idle d =>
        have hstage := h.stage
        rw [show (s.core c).stage = .picked (.idle d) from hg] at hstage
        exact hidle (congrArg Tid.idle (hstage.2 d rfl).1)
    unfold Threads.context_switch
    simp only [Threads.modCore_tcb, Threads.modTcb_tcb]
    rw [if_neg hne, if_neg hcur]
  | lock hr => rfl
  | unlock hr => rfl
  | yield_none => rfl
  | post_again => rfl
  | notify_one => rfl
  | notify_all => rfl
  | add => rfl
  | added => rfl
  | event_loop => exact if_neg hidle
  | wait hr => exact if_neg (hrun _ hr)
  | wait_none | wait_remove | relock => exact if_neg hcur
  | yield hcl => exact if_neg (hrun _ hcl.toRuns)
  | stop hcl => exact if_neg (hrun _ hcl.toRuns)
  | stop_idle hcl => exact if_neg (hrun _ hcl.toRuns)
  | loop hcl => exact if_neg (hrun _ hcl.toRuns)
  | post_ready | post_stop | post_none | post_wait | requeue => exact if_neg hcur
  | make_thread hcl => exact if_neg (hrun _ hcl.toRuns)
  | make_alloc hr hm _ hn => exact (if_neg (hrun _ hr)).trans (if_neg (hdead _ hn))
  | fork_alloc hcl hn => exact (if_neg (hrun _ hcl.toRuns)).trans (if_neg (hdead _ hn))
  | make_stack hr hm => exact if_neg (hmade _ (hown hr hm))
  | publish hr hm => exact (if_neg (hrun _ hr)).trans (if_neg (hmade _ (hown hr hm)))
  | fork_count hr => exact if_neg (hrun _ hr)
  | take hr => exact if_neg (hrun _ hr)
  | free_stack hr => exact if_neg (hrun _ hr)
  | dealloc hr => exact if_neg (hrun _ hr)
  | reaped hr => exact if_neg (hrun _ hr)
  | sysret hcl => exact if_neg (hrun _ hcl.toRuns)
  | fork_return hcl => exact if_neg (hrun _ hcl.toRuns)
  | syscall hr => exact if_neg (hr ▸ hcur)

theorem touches_place (h : CoreOk s.tcb d (s.core d)) {t : Tid} (ht : (s.core d).Touches d t) :
    t = .idle d ∨ ∃ n, t = .thread n ∧ (n ∈ s.cell (.running d) ∨ n ∈ s.cell (.pending d)) := by
  rcases ht with rfl | rfl | hg | ⟨p, hg, rfl⟩
  · cases hcur : (s.core d).current with
    | idle e => exact Or.inl (congrArg Tid.idle (h.own e hcur))
    | thread n => exact Or.inr ⟨n, rfl, Or.inl (Tid.mem_threads.mpr hcur)⟩
  · exact Or.inl rfl
  · cases t with
    | idle e =>
      have hstage := h.stage
      rw [hg] at hstage
      exact Or.inl (congrArg Tid.idle (hstage.2 e rfl).1)
    | thread n =>
      refine Or.inr ⟨n, rfl, Or.inr ?_⟩
      rw [(Threads.cell_stage hg).2.2]
      exact List.mem_cons_self
  · refine Or.inr ⟨p, rfl, Or.inr ?_⟩
    rw [(Threads.cell_stage hg).2.2]
    exact List.mem_cons_self

theorem ThreadsOk.other_tcb (h : ThreadsOk s) (hs : ThreadStep s (c, o) u) (hd : d ≠ c) {t : Tid}
    (ht : (s.core d).Touches d t) : u.tcb t = s.tcb t := by
  refine step_tcb (h.core c) hs ?_
  have hplace := touches_place (h.core d) ht
  rintro (hm | hm | ⟨n, hn, hm⟩)
  · rcases hplace with rfl | ⟨n, rfl, hn⟩
    · exact hd ((h.core c).own d hm.symm)
    · have hc : n ∈ s.cell (.running c) := Tid.mem_threads.mpr hm.symm
      rcases hn with hn | hn
      · exact hd (Place.running.inj (h.placed.apart _ _ n hn hc))
      · exact Place.noConfusion (h.placed.apart _ _ n hn hc)
  · rcases hplace with rfl | ⟨n, rfl, hn⟩
    · exact hd (Tid.idle.inj hm)
    · cases hm
  · rcases hplace with rfl | ⟨m, rfl, hm'⟩
    · cases hn
    · obtain rfl := Tid.thread.inj hn
      rcases hm with hm | hm | hm
      · rcases hm' with hm' | hm' <;> exact Place.noConfusion (h.placed.apart _ _ _ hm hm')
      · rcases hm' with hm' | hm' <;> exact Place.noConfusion (h.placed.apart _ _ _ hm hm')
      · exact hm ((h.placed.held m).mpr (hm'.elim (fun h => ⟨_, h⟩) fun h => ⟨_, h⟩))

theorem ThreadsOk.other (h : ThreadsOk s) (hs : ThreadStep s (c, o) u) (hd : d ≠ c) :
    CoreOk u.tcb d (u.core d) := by
  rw [step_core hs hd]
  exact (h.core d).congr fun t ht => h.other_tcb hs hd ht

attribute [grind =] Threads.setActive_tcb Threads.setActive_core Threads.setReaper_tcb Threads.setReaper_core
  Threads.setStack_tcb Threads.setStack_core Threads.setAlive_tcb Threads.setAlive_core

attribute [local grind =] Threads.current Threads.stage Threads.count Threads.inside StageOk Leaving Stage.disabled
  TCB.disable_preemption TCB.enable_preemption Tid.is_idle

theorem Threads.Clear.empty {s : Threads} {t : Tid} (h : s.Clear c t) : (s.tcb t).Empty :=
  ⟨h.inside, h.making, h.reaping⟩

theorem ThreadsOk.alive (h : ThreadsOk s) {p : Place} {n : Nat} (hn : n ∈ s.cell p) : s.Alive n :=
  (h.placed.held n).mpr ⟨p, hn⟩

theorem ThreadsOk.switched_out (h : ThreadsOk s) {p : Place} {n : Nat} (hn : n ∈ s.cell p)
    (hrun : ∀ c, p ≠ .running c) (hmade : ∀ t, p ≠ .creator t) :
    (s.tcb (.thread n)).saved = true ∧ s.count (.thread n) = 1 := by
  refine h.out n (h.alive hn) (fun c hc => ?_) fun t ht => ?_
  · exact hrun c (h.placed.apart _ _ n hn (Tid.mem_threads.mpr hc))
  · exact hmade t (h.placed.apart _ _ n hn ht)

theorem ThreadsOk.runs_alive (h : ThreadsOk s) {n : Nat} (hcur : s.current c = .thread n) : s.Alive n :=
  h.alive (p := .running c) (Tid.mem_threads.mpr hcur)

theorem ThreadsOk.creator_ne (h : ThreadsOk s) {t : Tid} {n : Nat} (hcur : s.current c = t)
    (hn : n ∈ s.cell (.creator t) ∨ s.alive n = false) : t ≠ .thread n := by
  rintro rfl
  rcases hn with hn | hn
  · exact Place.noConfusion (h.placed.apart _ (.running c) n hn (Tid.mem_threads.mpr hcur))
  · exact absurd (h.runs_alive hcur) (by simp [Threads.Alive, hn])

theorem Threads.Runs.creates {t : Tid} {n : Nat} {b : Bool} (hm : s.making t = .made n b) :
    n ∈ s.cell (.creator t) := by
  simp [Threads.cell, hm, Making.threads]

theorem ThreadsOk.alloc_tcb (h : ThreadsOk s) {t : Tid} {n : Nat} (hcur : s.current c = t) (hdead : s.alive n = false)
    (b : Bool) (w : Tid) : (s.alloc t n b).tcb w =
      if w = .thread n then (s.tcb w).alloc else if w = t then { s.tcb w with making := .made n b } else s.tcb w :=
  Threads.alloc_tcb s n t w b (h.creator_ne hcur (Or.inr hdead))

theorem ThreadsOk.publish_tcb (h : ThreadsOk s) {t : Tid} {n : Nat} {b : Bool} (hcur : s.current c = t)
    (hm : s.making t = .made n b) (w : Tid) : (s.publish t n).tcb w =
      if w = .thread n then { s.tcb w with saved := true } else if w = t then { s.tcb w with making := .none }
      else s.tcb w :=
  Threads.publish_tcb s n t w (h.creator_ne hcur (Or.inl (Threads.Runs.creates hm)))

theorem CoreOk.running {tcb tcb' : Tid → TCB} {x : Core} (h : CoreOk tcb c x) (hg : x.stage = .run)
    (hu : x.user = false)
    (hsame : ∀ w, w = x.current ∨ w = .idle c → (tcb' w).saved = (tcb w).saved ∧
      (tcb' w).disable_preemption_count = (tcb w).disable_preemption_count) : CoreOk tcb' c x where
  own := h.own
  count hne := (hsame _ (Or.inl rfl)).2.trans (h.count hne)
  idle heq := (hsame _ (Or.inr rfl)).2.trans (h.idle heq)
  idle_out hne :=
    have hout := h.idle_out hne
    have hidle := hsame _ (Or.inr rfl)
    ⟨hidle.1.trans hout.1, hidle.2.trans hout.2.1, hout.2.2⟩
  boot := h.boot
  stage := by
    rw [hg]
    trivial
  user huser := by
    rw [hu] at huser
    cases huser

theorem ThreadsOk.own_pick (h : ThreadsOk s) {t : Tid} {x : Action} {next : Tid} {rest : List Nat} (hr : s.Runs c t)
    (hleave : Leaving t (((s.pick c t x next rest).tcb) t))
    (hnext : ∀ d, next = .idle d → d = c ∧ t ≠ .idle c) (hloop : t = .idle c → (s.core c).looping = true) :
    CoreOk (s.pick c t x next rest).tcb c ((s.pick c t x next rest).core c) := by
  obtain ⟨hown, hcount, hidle, hidle_out, hboot, hstage, huser⟩ := h.core c
  obtain ⟨hcur, hu, hg, -⟩ := hr
  constructor <;> grind -linarith

theorem ThreadsOk.own_switched (h : ThreadsOk s) (hg : (∃ t, s.stage c = .post t) ∨ ∃ p, s.stage c = .requeue p)
    (hp : 0 < s.count (s.current c)) : CoreOk (s.switched c).tcb c ((s.switched c).core c) := by
  obtain ⟨hown, hcount, hidle, hidle_out, hboot, hstage, huser⟩ := h.core c
  constructor <;> grind -linarith

theorem ThreadsOk.own_notify (h : ThreadsOk s) {k : Nat} {t : Tid} {l rest : List Nat} (hr : s.Runs c t) :
    CoreOk (s.notify c k l rest).tcb c ((s.notify c k l rest).core c) := by
  obtain ⟨hown, hcount, hidle, hidle_out, hboot, hstage, huser⟩ := h.core c
  obtain ⟨hcur, hu, hg, hin⟩ := hr
  constructor <;> grind -linarith

theorem ThreadsOk.own_sysret (h : ThreadsOk s) {n rsp : Nat} (hcl : s.Clear c (.thread n)) :
    CoreOk (s.sysret c n rsp).tcb c ((s.sysret c n rsp).core c) := by
  obtain ⟨hown, hcount, hidle, hidle_out, hboot, hstage, huser⟩ := h.core c
  have hempty := hcl.empty
  obtain ⟨⟨hcur, hu, hg, -⟩, -, -⟩ := hcl
  constructor <;> grind -linarith

theorem ThreadsOk.own_switch (h : ThreadsOk s) {next : Tid} (hg : s.stage c = .picked next) :
    CoreOk (s.context_switch c next).tcb c ((s.context_switch c next).core c) := by
  obtain ⟨hown, hcount, hidle, hidle_out, hboot, hstage, huser⟩ := h.core c
  have hstage' := hstage
  rw [show (s.core c).stage = .picked next from hg] at hstage'
  obtain ⟨hne, hone⟩ : s.current c ≠ next ∧ (next ≠ .idle c → s.count next = 1) := by
    cases next with
    | idle d =>
      obtain ⟨rfl, hcur⟩ := hstage'.2 d rfl
      exact ⟨hcur, fun hn => absurd rfl hn⟩
    | thread n =>
      have hn : n ∈ s.cell (.next c) := by
        rw [(Threads.cell_stage hg).1]
        exact List.mem_cons_self
      refine ⟨fun hcur => ?_, fun _ => (h.switched_out hn (by simp) (by simp)).2⟩
      exact Place.noConfusion (h.placed.apart _ (.running c) n hn (Tid.mem_threads.mpr hcur))
  have htcb := fun w => Threads.context_switch_tcb s c next w hne
  constructor <;> grind -linarith

theorem ThreadsOk.own (h : ThreadsOk s) (hs : ThreadStep s (c, o) u) : CoreOk u.tcb c (u.core c) := by
  have hcore := h.core c
  obtain ⟨hown, hcount, hidle, hidle_out, hboot, hstage, huser⟩ := h.core c
  have hinside := h.idle_inside c
  cases hs with
  | lock | unlock | yield_none => exact hcore
  | yield hcl hq =>
      exact h.own_pick hcl.toRuns (by grind -linarith [hcl.empty]) (by grind -linarith) (by grind -linarith)
  | stop hcl hq =>
      exact h.own_pick hcl.toRuns (by grind -linarith [hcl.empty]) (by grind -linarith) (by grind -linarith)
  | stop_idle hcl hq =>
      exact h.own_pick hcl.toRuns (by grind -linarith [hcl.empty]) (by grind -linarith) (by grind -linarith)
  | loop hcl hl hq => exact h.own_pick hcl.toRuns (by grind -linarith) (by grind -linarith) (by grind -linarith)
  | switch hg => exact h.own_switch hg
  | post_ready hg ha hp => exact h.own_switched (Or.inl ⟨_, hg⟩) hp
  | post_stop hg ha hp => exact h.own_switched (Or.inl ⟨_, hg⟩) hp
  | post_none hg ha hp => exact h.own_switched (Or.inl ⟨_, hg⟩) hp
  | post_wait hg ha hk hh he hp => exact h.own_switched (Or.inl ⟨_, hg⟩) hp
  | requeue hg hp => exact h.own_switched (Or.inr ⟨_, hg⟩) hp
  | notify_one hr hh => exact h.own_notify hr
  | notify_all hr hh => exact h.own_notify hr
  | sysret hcl => exact h.own_sysret hcl
  | fork_return hcl => exact h.own_sysret hcl
  | make_thread hcl => exact hcore.running hcl.stage hcl.user (by grind -linarith)
  | @make_alloc c n t hr hm hre hn =>
    have hne := h.creator_ne hr.current (Or.inr hn)
    have htcb := h.alloc_tcb hr.current hn true
    have hcur := hr.current
    exact hcore.running hr.stage hr.user (by grind -linarith)
  | @fork_alloc c n m hcl hn =>
    have hne := h.creator_ne hcl.current (Or.inr hn)
    have htcb := h.alloc_tcb hcl.current hn false
    have hcur := hcl.current
    exact hcore.running hcl.stage hcl.user (by grind -linarith)
  | @make_stack c n a t b hr hm =>
    have hne := h.creator_ne hr.current (Or.inl (Threads.Runs.creates hm))
    have hcur := hr.current
    exact hcore.running hr.stage hr.user (by grind -linarith)
  | @publish c n t hr hm =>
    have hne := h.creator_ne hr.current (Or.inl (Threads.Runs.creates hm))
    have htcb := h.publish_tcb hr.current hm
    have hcur := hr.current
    exact hcore.running hr.stage hr.user (by grind -linarith)
  | fork_count hr => exact hcore.running hr.stage hr.user (by grind -linarith)
  | take hr => exact hcore.running hr.stage hr.user (by grind -linarith)
  | free_stack hr => exact hcore.running hr.stage hr.user (by grind -linarith)
  | dealloc hr => exact hcore.running hr.stage hr.user (by grind -linarith)
  | reaped hr => exact hcore.running hr.stage hr.user (by grind -linarith)
  | event_loop hr hl =>
    obtain ⟨hcur, -, hg, -⟩ := hr
    constructor <;> grind -linarith
  | wait hr hh =>
    obtain ⟨hcur, hu, hg, -⟩ := hr
    constructor <;> grind -linarith
  | wait_none hg hq hp => constructor <;> grind -linarith
  | wait_remove hg hk hq =>
    have hid : (s.core c).current.is_idle = true ↔ (s.core c).current = .idle c := by
      cases hcur : (s.core c).current with
      | idle d => simp [Tid.is_idle, hown d hcur]
      | thread n => simp [Tid.is_idle]
    constructor <;> grind -linarith
  | relock hg hk hh => constructor <;> grind -linarith
  | post_again hg ha hk hh he => constructor <;> grind -linarith
  | add hg => constructor <;> grind -linarith
  | added hg => constructor <;> grind -linarith
  | syscall hcur hu =>
    have hu := huser hu
    constructor <;> grind -linarith

/-! ## Threads -/

theorem step_picked (h : CoreOk s.tcb c (s.core c)) (hs : ThreadStep s (c, o) u) {next : Tid}
    (hg : s.stage c = .picked next) : o = .switch := by
  have huser := h.user
  cases hs <;> first | rfl | grind -linarith [Threads.Runs, Threads.Clear]

theorem step_current (hs : ThreadStep s (c, o) u) (ho : o ≠ .switch) (d : Nat) : u.current d = s.current d := by
  cases hs <;> first | exact absurd rfl ho | simp [Threads.current, apply_ite]

theorem ThreadsOk.idle_tcb (h : ThreadsOk s) (hs : ThreadStep s (c, o) u) (ho : o ≠ .switch) {n : Nat} (hn : s.Alive n)
    (hcur : ∀ d, s.current d ≠ .thread n) (hmade : ∀ t, n ∉ s.cell (.creator t)) :
    u.tcb (.thread n) = s.tcb (.thread n) := by
  refine step_tcb (h.core c) hs ?_
  rintro (hm | hm | ⟨m, hm, hm' | hm' | hm'⟩)
  · exact hcur c hm.symm
  · cases hm
  · cases hg : s.stage c with
    | picked next => exact ho (step_picked (h.core c) hs hg)
    | _ => simp [Threads.cell, hg, Stage.next] at hm'
  · exact hmade _ (Tid.thread.inj hm ▸ hm')
  · exact hm' (Tid.thread.inj hm ▸ hn)

theorem Threads.mem_creator {t : Tid} {n : Nat} : n ∈ s.cell (.creator t) ↔ ∃ b, s.making t = .made n b := by
  change n ∈ (s.making t).threads ↔ _
  cases s.making t <;> simp [Making.threads, eq_comm]

theorem leaves_creator (hs : ThreadStep s (c, o) u) {n : Nat} {t : Tid} (hn : n ∈ s.cell (.creator t))
    (hu : n ∉ u.cell (.creator t)) : s.current c = t ∧ u = s.publish t n := by
  have hmade := Threads.mem_creator.mp hn
  cases hs with
  | publish hr hm => grind -linarith [hr.current]
  | make_thread hcl => grind -linarith [hcl.making]
  | make_alloc hr hm => grind -linarith
  | fork_alloc hcl => grind -linarith [hcl.making]
  | fork_count hr hm => grind -linarith [Making.threads]
  | _ => exact absurd (by simpa using hn) hu

theorem step_alive (hs : ThreadStep s (c, o) u) {n : Nat} (hn : u.Alive n) (hmade : ∀ t, n ∉ u.cell (.creator t)) :
    s.Alive n := by
  cases hs with
  | @make_alloc c m t =>
    refine ((s.alloc_alive _ _ _ n).mp hn).resolve_left ?_
    rintro rfl
    exact hmade t (by simp)
  | @fork_alloc c m p =>
    refine ((s.alloc_alive _ _ _ n).mp hn).resolve_left ?_
    rintro rfl
    exact hmade (.thread p) (by simp)
  | dealloc => exact ((s.dealloc_alive _ n).mp hn).2
  | _ => exact hn

theorem ThreadsOk.out_step (h : ThreadsOk s) (hs : ThreadStep s (c, o) u) (n : Nat) (hn : u.Alive n)
    (hcur : ∀ d, u.current d ≠ .thread n) (hmade : ∀ t, n ∉ u.cell (.creator t)) :
    (u.tcb (.thread n)).saved = true ∧ u.count (.thread n) = 1 := by
  by_cases hcreator : ∃ t, n ∈ s.cell (.creator t)
  · -- Its creator has just added it to the ready queue.
    obtain ⟨t, ht⟩ := hcreator
    obtain ⟨hc, rfl⟩ := leaves_creator hs ht (hmade t)
    have htcb := Threads.publish_tcb s n t (.thread n) (h.creator_ne hc (Or.inl ht))
    rw [if_pos rfl] at htcb
    refine ⟨by rw [htcb], ?_⟩
    rw [Threads.count, htcb]
    exact h.made n t ht
  · rw [not_exists] at hcreator
    have halive := step_alive hs hn hmade
    by_cases ho : o = .switch
    · subst ho
      cases hs with
      | @switch c next hg =>
        have hc : (s.context_switch c next).current c = next := by simp [Threads.current]
        have hnext : next ≠ .thread n := fun e => hcur c (hc.trans e)
        have hother : ∀ d, d ≠ c → s.current d ≠ .thread n := fun d hd => by
          simpa [Threads.current, hd] using hcur d
        by_cases hprev : s.current c = .thread n
        · have hcount := (h.core c).count (by rw [show (s.core c).current = .thread n from hprev]; simp)
          rw [show (s.core c).current = .thread n from hprev, show (s.core c).stage = .picked next from hg] at hcount
          simp only [Threads.context_switch, Threads.count, Threads.modCore_tcb, Threads.modTcb_tcb, hprev]
          rw [if_neg hnext.symm, if_true]
          exact ⟨rfl, hcount⟩
        · have hout := h.out n halive (fun d => if hd : d = c then hd ▸ hprev else hother d hd) hcreator
          simp only [Threads.context_switch, Threads.count, Threads.modCore_tcb, Threads.modTcb_tcb]
          rw [if_neg hnext.symm, if_neg (Ne.symm hprev)]
          exact hout
    · have hcur' : ∀ d, s.current d ≠ .thread n := fun d => step_current hs ho d ▸ hcur d
      rw [Threads.count, h.idle_tcb hs ho halive hcur' hcreator]
      exact h.out n halive hcur' hcreator

theorem enters_creator (hs : ThreadStep s (c, o) u) {n : Nat} {t : Tid} (hn : n ∈ u.cell (.creator t)) :
    n ∈ s.cell (.creator t) ∨ s.alive n = false ∧ s.current c = t ∧ ∃ b, u = s.alloc t n b := by
  cases hs with
  | make_alloc hr hm => grind -linarith [hr.current]
  | fork_alloc hcl => grind -linarith [hcl.current]
  | make_thread hcl => grind -linarith [Making.threads]
  | fork_count hr hm => grind -linarith [Threads.mem_creator, Making.threads]
  | publish hr hm => grind -linarith
  | _ => exact Or.inl (by simpa using hn)

theorem ThreadsOk.made_step (h : ThreadsOk s) (hs : ThreadStep s (c, o) u) (n : Nat) (t : Tid)
    (hn : n ∈ u.cell (.creator t)) : u.count (.thread n) = 1 := by
  rcases enters_creator hs hn with hn | ⟨hdead, hc, b, rfl⟩
  · have hcur : ∀ d, s.current d ≠ .thread n := fun d hd =>
      Place.noConfusion (h.placed.apart _ (.running d) n hn (Tid.mem_threads.mpr hd))
    have hnext : s.stage c ≠ .picked (.thread n) := fun hg => by
      have hmem : n ∈ s.cell (.next c) := by rw [(Threads.cell_stage hg).1]; exact List.mem_cons_self
      exact Place.noConfusion (h.placed.apart _ _ n hn hmem)
    have hcount := h.made n t hn
    have halive := h.alive hn
    cases hs with
    | switch hg =>
      simp only [Threads.context_switch, Threads.count, Threads.modCore_tcb, Threads.modTcb_tcb]
      grind -linarith
    | make_alloc hr hm hre hdead =>
      have htcb := h.alloc_tcb hr.current hdead true
      grind -linarith [hr.current, Threads.Alive]
    | fork_alloc hr hdead =>
      have htcb := h.alloc_tcb hr.current hdead false
      grind -linarith [hr.current, Threads.Alive]
    | publish hr hm =>
      have htcb := h.publish_tcb hr.current hm
      grind -linarith
    | _ => grind -linarith [Threads.Runs, Threads.Clear]
  · have htcb := h.alloc_tcb hc hdead b (.thread n)
    rw [Threads.count, htcb, if_pos rfl]
    rfl

theorem ThreadsOk.waiting_step (h : ThreadsOk s) (hs : ThreadStep s (c, o) u) (n k : Nat)
    (hn : n ∈ u.cell (.waiting k)) : u.inside (.thread n) = some k := by
  have hwait : n ∈ s.cell (.waiting k) →
      s.inside (.thread n) = some k ∧ (∀ d, s.current d ≠ .thread n) ∧ s.alive n = true := fun hn =>
    ⟨h.waiting n k hn, fun d hd => Place.noConfusion (h.placed.apart _ (.running d) n hn (Tid.mem_threads.mpr hd)),
      h.alive hn⟩
  have hstage := (h.core c).stage
  cases hs with
  | switch hg =>
    simp only [Threads.context_switch, Threads.inside, Threads.modCore_tcb, Threads.modTcb_tcb]
    grind -linarith
  | make_alloc hr hm hre hdead =>
    have htcb := h.alloc_tcb hr.current hdead true
    grind -linarith
  | fork_alloc hr hdead =>
    have htcb := h.alloc_tcb hr.current hdead false
    grind -linarith
  | publish hr hm =>
    have htcb := h.publish_tcb hr.current hm
    grind -linarith
  | notify_one => grind -linarith [List.mem_of_mem_tail, Threads.cell]
  | post_wait => grind -linarith [Threads.cell]
  | _ => grind -linarith [Threads.Runs, Threads.Clear]

theorem Threads.mem_reaping {t : Tid} {n : Nat} :
    n ∈ s.cell (.reaping t) ↔ s.reaping t = .taken n ∨ s.reaping t = .unstacked n := by
  change n ∈ (s.reaping t).threads ↔ _
  cases s.reaping t <;> simp [Reaping.threads, eq_comm]

theorem ThreadsOk.gets_busy (h : ThreadsOk s) (hs : ThreadStep s (c, o) u) {t : Tid} (hu : ¬ (u.tcb t).Empty)
    (ht : (s.tcb t).Empty) : s.current c = t ∧ o ≠ .switch := by
  cases hs with
  | switch hg =>
    simp only [Threads.context_switch, Threads.modCore_tcb, Threads.modTcb_tcb] at hu
    grind -linarith
  | make_alloc hr hm hre hdead =>
    have htcb := h.alloc_tcb hr.current hdead true
    grind -linarith [TCB.alloc, hr.current]
  | fork_alloc hr hdead =>
    have htcb := h.alloc_tcb hr.current hdead false
    grind -linarith [TCB.alloc, hr.current]
  | publish hr hm =>
    have htcb := h.publish_tcb hr.current hm
    grind -linarith [hr.current]
  | _ => grind -linarith [Threads.Runs, Threads.Clear]

theorem stays_step (hs : ThreadStep s (c, o) u) {n : Nat}
    (hstop : ∀ d, s.stage d = .post (.thread n) → (s.tcb (.thread n)).action ≠ .stop)
    (hn : s.Alive n ∧ n ∉ s.cell .reaper ∧ (∀ t, n ∉ s.cell (.creator t)) ∧ ∀ t, n ∉ s.cell (.reaping t)) :
    u.Alive n ∧ n ∉ u.cell .reaper ∧ (∀ t, n ∉ u.cell (.creator t)) ∧ ∀ t, n ∉ u.cell (.reaping t) := by
  obtain ⟨halive, hreaper, hcreator, hreaping⟩ := hn
  refine ⟨?_, fun hp => ?_, fun t ht => ?_, fun t ht => ?_⟩
  · cases hs with
    | make_alloc => exact (s.alloc_alive _ _ _ n).mpr (Or.inr halive)
    | fork_alloc => exact (s.alloc_alive _ _ _ n).mpr (Or.inr halive)
    | dealloc hr hm =>
      refine (s.dealloc_alive _ n).mpr ⟨?_, halive⟩
      rintro rfl
      exact hreaping _ (Threads.mem_reaping.mpr (Or.inr hm))
    | _ => exact halive
  · cases hs with
    | post_stop hg ha => grind -linarith [Threads.cell]
    | take hr hm hq => grind -linarith [Threads.cell]
    | _ => exact hreaper (by simpa using hp)
  · rcases enters_creator hs ht with ht | ⟨hdead, -⟩
    · exact hcreator t ht
    · rw [Threads.Alive, hdead] at halive
      cases halive
  · cases hs with
    | take hr hm hq => grind -linarith [Threads.cell, Reaping.threads]
    | free_stack hr hm => grind -linarith [Threads.mem_reaping, Reaping.threads]
    | dealloc => grind -linarith [Reaping.threads]
    | reaped => grind -linarith [Reaping.threads]
    | _ => exact hreaping t (by simpa using ht)

theorem ThreadsOk.busy_step (h : ThreadsOk s) (hs : ThreadStep s (c, o) u) (hplaced : Placed u.Alive u.cell) (n : Nat)
    (hu : ¬ (u.tcb (.thread n)).Empty) : u.Alive n ∧ n ∉ u.cell .reaper ∧ (∀ t, n ∉ u.cell (.creator t)) ∧
      ∀ t, n ∉ u.cell (.reaping t) := by
  by_cases hn : (s.tcb (.thread n)).Empty
  · -- It runs, and goes on running.
    obtain ⟨hcur, ho⟩ := h.gets_busy hs hu hn
    have hrun : n ∈ u.cell (.running c) := Tid.mem_threads.mpr ((step_current hs ho c).trans hcur)
    refine ⟨(hplaced.held n).mpr ⟨_, hrun⟩, fun hp => ?_, fun t hp => ?_, fun t hp => ?_⟩ <;>
    exact Place.noConfusion (hplaced.apart _ _ n hrun hp)
  · refine stays_step hs (fun d hg ha => ?_) (h.busy n hn)
    have hstage := (h.core d).stage
    rw [show (s.core d).stage = .post (.thread n) from hg] at hstage
    exact hn (hstage.1.2.2 (Or.inr ha))

theorem ThreadsOk.idle_step (h : ThreadsOk s) (hs : ThreadStep s (c, o) u) (d : Nat) : u.inside (.idle d) = none := by
  have hinside := h.idle_inside d
  cases hs with
  | switch hg =>
    simp only [Threads.context_switch, Threads.inside, Threads.modCore_tcb, Threads.modTcb_tcb]
    grind -linarith
  | make_alloc hr hm hre hdead =>
    have htcb := h.alloc_tcb hr.current hdead true
    grind -linarith
  | fork_alloc hr hdead =>
    have htcb := h.alloc_tcb hr.current hdead false
    grind -linarith
  | publish hr hm =>
    have htcb := h.publish_tcb hr.current hm
    grind -linarith
  | _ => grind -linarith

theorem ThreadsOk.step (h : ThreadsOk s) (hs : ThreadStep s a u) : ThreadsOk u := by
  obtain ⟨c, o⟩ := a
  have hpost : ∀ d p, s.stage d = .post (.thread p) → (s.tcb (.thread p)).action ≠ .none := by
    intro d p hg hnone
    have hstage := (h.core d).stage
    rw [show (s.core d).stage = .post (.thread p) from hg] at hstage
    exact absurd (hstage.1.1.mp hnone) (by simp [Tid.is_idle])
  have hplaced := placed_step h.placed hpost hs
  refine ⟨hplaced, fun d => ?_, h.out_step hs, h.made_step hs, h.waiting_step hs, h.busy_step hs hplaced,
    h.idle_step hs⟩
  by_cases hd : d = c
  · rw [hd]
    exact h.own hs
  · exact h.other hs hd

theorem threadsOk_booted (h : Booted s) : ThreadsOk s := by
  have hempty : ∀ p n, n ∉ s.cell p := by
    intro p n
    have hcore := h.core
    have hcond := h.cond
    have htcb := h.tcb
    cases p with
    | ready => simp [Threads.cell, h.readyQueue]
    | reaper => simp [Threads.cell, h.reaperQueue]
    | waiting k => simp [Threads.cell, h.cond]
    | creator t => simp [Threads.mem_creator, (h.tcb t).2.1]
    | reaping t => simp [Threads.mem_reaping, (h.tcb t).2.2.1]
    | next c => simp [Threads.cell, Threads.stage, h.core, Stage.next]
    | notified c => simp [Threads.cell, Threads.stage, h.core, Stage.notified]
    | running c => simp [Threads.cell, Threads.current, h.core]
    | pending c => simp [Threads.cell, Threads.stage, h.core, Stage.pending]
  have hdead : ∀ n, ¬ s.Alive n := fun n hn => by
    rw [Threads.Alive, (h.alive n).1] at hn
    cases hn
  have htcb : ∀ t, (s.tcb t).Empty := fun t => ⟨(h.tcb t).1, (h.tcb t).2.1, (h.tcb t).2.2.1⟩
  refine ⟨⟨?_, ?_, ?_⟩, fun c => ?_, ?_, ?_, ?_, ?_, ?_⟩
  · exact fun n => ⟨fun hn => absurd hn (hdead n), fun hin => hin.elim fun p hp => absurd hp (hempty p n)⟩
  · exact fun p => List.eq_nil_iff_forall_not_mem.mpr (hempty p) ▸ List.nodup_nil
  · exact fun p q n hp => absurd hp (hempty p n)
  · have hcount := h.count c
    rw [h.core c]
    constructor <;> simp_all [Stage.disabled, StageOk, Threads.count]
  · exact fun n hn => absurd hn (hdead n)
  · exact fun n t hn => absurd hn (hempty _ n)
  · exact fun n k hn => absurd hn (hempty _ n)
  · exact fun n hn => absurd (htcb _) hn
  · exact fun c => (h.tcb _).1

theorem threadsOk_inductive : System.Inductive threadSystem ThreadsOk where
  init _ h := threadsOk_booted h
  step _ _ _ h hs := h.step hs

end Kernel.Thread
