import Kernel.Lib.Tally
import Kernel.Thread.Owner

/-!
# The number of threads (`n_active`)

`make_thread` counts a thread before its TCB exists, `fork` after, and `reap`
takes it off the count when the TCB is freed.
-/

namespace Kernel.Thread

open Lib

variable {s u : Threads} {c : Nat} {o : Op}

/-- A thread from its `add_fetch` to its `sub_fetch`, by who knows of it. -/
inductive Created where
  /-- `make_thread` has no TCB for it yet. -/
  | maker (t : Tid)
  | thread (n : Nat)
  /-- `reap` has freed its TCB. -/
  | freed (t : Tid)

def Threads.Counts (s : Threads) : Created → Prop
  | .maker t => s.making t = .counted
  | .thread n => s.Alive n ∧ ∀ t, s.making t ≠ .made n false
  | .freed t => s.reaping t = .freed

structure ActiveOk (s : Threads) : Prop where
  tally : Tally s.n_active s.Counts
  /-- `fork` is a system call. -/
  forks : ∀ d n, s.making (.idle d) ≠ .made n false

theorem ActiveOk.congr (h : ActiveOk s) (hn : u.n_active = s.n_active) (ha : ∀ n, u.Alive n ↔ s.Alive n)
    (hm : ∀ t, u.making t = s.making t) (hr : ∀ t, u.reaping t = .freed ↔ s.reaping t = .freed) : ActiveOk u where
  tally := by
    rw [hn]
    refine h.tally.congr fun i => ?_
    cases i with
    | maker t => simp only [Threads.Counts, hm]
    | thread n => simp only [Threads.Counts, hm, ha]
    | freed t => exact hr t
  forks d n := by
    rw [hm]
    exact h.forks d n

theorem counts_iff {P : Created → Prop} (hm : ∀ t, u.making t = .counted ↔ P (.maker t))
    (hn : ∀ n, u.Alive n ∧ (∀ t, u.making t ≠ .made n false) ↔ P (.thread n))
    (hf : ∀ t, u.reaping t = .freed ↔ P (.freed t)) (i : Created) : u.Counts i ↔ P i := by
  cases i with
  | maker t => exact hm t
  | thread n => exact hn n
  | freed t => exact hf t

attribute [local grind =] Threads.making Threads.reaping TCB.disable_preemption TCB.enable_preemption TCB.alloc

/-! ## Steps -/

section

variable {n m : Nat} {t : Tid}

theorem ActiveOk.make_thread (h : ActiveOk s) (hm : s.making t = .none) :
    ActiveOk ((s.setMaking t .counted).setActive (s.n_active + 1)) := by
  have hforks := h.forks
  have hfalse : ∀ n w, ((s.setMaking t .counted).setActive (s.n_active + 1)).making w ≠ .made n false ↔
      s.making w ≠ .made n false := by grind -linarith
  refine ⟨h.tally.add (a := .maker t) (by simp [Threads.Counts, hm])
    (counts_iff (fun w => ?_) (fun n => ?_) fun w => ?_), by grind⟩
  · simp only [Threads.Counts, Created.maker.injEq]
    grind -linarith
  · simp only [Threads.Counts, hfalse, reduceCtorEq, false_or]
    rfl
  · simp only [Threads.Counts, reduceCtorEq, false_or]
    grind -linarith

theorem ActiveOk.make_alloc (hok : ThreadsOk s) (h : ActiveOk s) (hr : s.Runs c t) (hm : s.making t = .counted)
    (hdead : s.alive n = false) : ActiveOk (s.alloc t n true) := by
  have hforks := h.forks
  have hne := hok.creator_ne hr.current (Or.inr hdead)
  have htcb := hok.alloc_tcb hr.current hdead true
  have halive := s.alloc_alive t n true
  have hfalse : ∀ m w, (s.alloc t n true).making w ≠ .made m false ↔ s.making w ≠ .made m false := by grind -linarith
  have hnew : ∀ w, s.making w ≠ .made n false := fun w hw => by
    have hn := hok.alive (Threads.mem_creator.mpr ⟨_, hw⟩)
    rw [Threads.Alive, hdead] at hn
    cases hn
  have hno : ¬ s.Counts (.thread n) := fun hc => by
    rw [Threads.Counts, Threads.Alive, hdead] at hc
    cases hc.1
  refine ⟨h.tally.swap (a := .maker t) hm hno (counts_iff (fun w => ?_) (fun m => ?_) fun w => ?_), by grind⟩
  · simp only [Threads.Counts, ne_eq, Created.maker.injEq, reduceCtorEq, false_or]
    grind -linarith
  · simp only [Threads.Counts, hfalse, halive, Created.thread.injEq, ne_eq, reduceCtorEq, not_false_eq_true, true_and]
    constructor
    · rintro ⟨rfl | hm, hw⟩
      · exact Or.inl rfl
      · exact Or.inr ⟨hm, hw⟩
    · rintro (rfl | ⟨hm, hw⟩)
      · exact ⟨Or.inl rfl, hnew⟩
      · exact ⟨Or.inr hm, hw⟩
  · simp only [Threads.Counts, ne_eq, reduceCtorEq, not_false_eq_true, true_and, false_or]
    grind -linarith

theorem ActiveOk.fork_alloc (hok : ThreadsOk s) (h : ActiveOk s) (hcl : s.Clear c (.thread m))
    (hdead : s.alive n = false) : ActiveOk (s.alloc (.thread m) n false) := by
  have hforks := h.forks
  have hne := hok.creator_ne hcl.current (Or.inr hdead)
  have htcb := hok.alloc_tcb hcl.current hdead false
  have halive := s.alloc_alive (.thread m) n false
  have hm := hcl.making
  have hfalse : ∀ p w, p ≠ n → ((s.alloc (.thread m) n false).making w ≠ .made p false ↔
    s.making w ≠ .made p false) := by
    grind -linarith
  refine ⟨h.tally.congr (counts_iff (fun w => ?_) (fun p => ?_) fun w => ?_), by grind⟩
  · simp only [Threads.Counts]
    grind -linarith
  · simp only [Threads.Counts, halive]
    by_cases hp : p = n
    · subst hp
      refine iff_of_false (fun hc => hc.2 (.thread m) (by grind -linarith)) fun hc => ?_
      rw [Threads.Alive, hdead] at hc
      cases hc.1
    · simp only [hp, hfalse p _ hp, false_or]
  · simp only [Threads.Counts]
    grind -linarith

theorem ActiveOk.fork_count (hok : ThreadsOk s) (h : ActiveOk s) (hm : s.making t = .made n false) :
    ActiveOk ((s.setMaking t (.made n true)).setActive (s.n_active + 1)) := by
  have hforks := h.forks
  have halive := hok.alive (Threads.mem_creator.mpr ⟨_, hm⟩)
  have hone : ∀ w, s.making w = .made n false → w = t := fun w hw =>
    Place.creator.inj (hok.placed.apart _ _ n (Threads.mem_creator.mpr ⟨_, hw⟩) (Threads.mem_creator.mpr ⟨_, hm⟩))
  have hfalse : ∀ p w, ((s.setMaking t (.made n true)).setActive (s.n_active + 1)).making w = .made p false ↔
      w ≠ t ∧ s.making w = .made p false := by grind -linarith
  refine ⟨h.tally.add (a := .thread n) (fun hc => hc.2 t hm)
    (counts_iff (fun w => ?_) (fun p => ?_) fun w => ?_), by grind⟩
  · simp only [Threads.Counts, reduceCtorEq, false_or]
    grind -linarith
  · simp only [Threads.Counts, ne_eq, hfalse, Created.thread.injEq, not_and]
    constructor
    · rintro ⟨hp, hw⟩
      by_cases hpn : p = n
      · exact Or.inl hpn
      · refine Or.inr ⟨hp, fun w hw' => hw w ?_ hw'⟩
        rintro rfl
        rw [hm] at hw'
        exact hpn (Making.made.inj hw').1.symm
    · rintro (rfl | ⟨hp, hw⟩)
      · exact ⟨halive, fun w hne hw => hne (hone w hw)⟩
      · exact ⟨hp, fun w _ => hw w⟩
  · simp only [Threads.Counts, reduceCtorEq, false_or]
    grind -linarith

theorem ActiveOk.publish (hok : ThreadsOk s) (h : ActiveOk s) (hr : s.Runs c t) (hm : s.making t = .made n true) :
    ActiveOk (s.publish t n) := by
  have hforks := h.forks
  have hne := hok.creator_ne hr.current (Or.inl (Threads.Runs.creates hm))
  have htcb := hok.publish_tcb hr.current hm
  have hfalse : ∀ m w, (s.publish t n).making w ≠ .made m false ↔ s.making w ≠ .made m false := by grind -linarith
  refine ⟨h.tally.congr (counts_iff (fun w => ?_) (fun p => ?_) fun w => ?_), by grind⟩
  · simp only [Threads.Counts]
    grind -linarith
  · simp only [Threads.Counts, hfalse]
    rfl
  · simp only [Threads.Counts]
    grind -linarith

theorem ActiveOk.dealloc (hok : ThreadsOk s) (h : ActiveOk s) (hm : s.reaping t = .unstacked n) :
    ActiveOk ((s.setAlive n false).setReaping t .freed) := by
  have hforks := h.forks
  have hmem : n ∈ s.cell (.reaping t) := Threads.mem_reaping.mpr (Or.inr hm)
  have hcounts : s.Counts (.thread n) := ⟨hok.alive hmem, fun w hw =>
    Place.noConfusion (hok.placed.apart _ _ n hmem (Threads.mem_creator.mpr ⟨_, hw⟩))⟩
  have hfalse : ∀ m w, ((s.setAlive n false).setReaping t .freed).making w ≠ .made m false ↔
      s.making w ≠ .made m false := by grind -linarith
  have hno : ¬ s.Counts (.freed t) := fun hc => by
    rw [Threads.Counts, hm] at hc
    cases hc
  refine ⟨h.tally.swap hcounts hno (counts_iff (fun w => ?_) (fun p => ?_) fun w => ?_), by grind⟩
  · simp only [Threads.Counts, ne_eq, reduceCtorEq, not_false_eq_true, true_and, false_or]
    grind -linarith
  · have hp : ((s.setAlive n false).setReaping t .freed).Alive p ↔ p ≠ n ∧ s.Alive p := s.dealloc_alive n p
    simp only [Threads.Counts, hfalse, hp, ne_eq, Created.thread.injEq, reduceCtorEq, false_or, and_assoc]
  · simp only [Threads.Counts, ne_eq, reduceCtorEq, not_false_eq_true, true_and, Created.freed.injEq]
    grind -linarith

theorem ActiveOk.reaped (h : ActiveOk s) (hm : s.reaping t = .freed) :
    ActiveOk ((s.setReaping t .none).setActive (s.n_active - 1)) := by
  have hforks := h.forks
  have hfalse : ∀ m w, ((s.setReaping t .none).setActive (s.n_active - 1)).making w ≠ .made m false ↔
      s.making w ≠ .made m false := by grind -linarith
  refine ⟨h.tally.sub (a := .freed t) hm (counts_iff (fun w => ?_) (fun p => ?_) fun w => ?_), by grind⟩
  · simp only [Threads.Counts, ne_eq, reduceCtorEq, not_false_eq_true, true_and]
    grind -linarith
  · simp only [Threads.Counts, hfalse, ne_eq, reduceCtorEq, not_false_eq_true, true_and]
    rfl
  · simp only [Threads.Counts, ne_eq, Created.freed.injEq]
    grind -linarith

end

theorem ActiveOk.step (hok : ThreadsOk s) (h : ActiveOk s) (hs : ThreadStep s (c, o) u) : ActiveOk u := by
  cases hs with
  | @switch c next hg =>
    refine h.congr rfl (fun n => Iff.rfl) (fun t => ?_) fun t => ?_ <;>
    · simp only [Threads.context_switch, Threads.making, Threads.reaping, Threads.modCore_tcb, Threads.modTcb_tcb]
      grind -linarith
  | make_thread hcl => exact h.make_thread hcl.making
  | make_alloc hr hm _ hdead => exact h.make_alloc hok hr hm hdead
  | fork_alloc hcl hdead => exact h.fork_alloc hok hcl hdead
  | fork_count _ hm => exact h.fork_count hok hm
  | publish hr hm => exact h.publish hok hr hm
  | dealloc _ hm => exact h.dealloc hok hm
  | reaped _ hm => exact h.reaped hm
  | _ => exact h.congr rfl (fun n => Iff.rfl) (fun t => by grind -linarith) fun t => by grind -linarith

theorem activeOk_booted (h : Booted s) : ActiveOk s where
  tally := by
    rw [h.n_active]
    refine Tally.empty fun i hi => ?_
    cases i with
    | maker t => exact Making.noConfusion ((h.tcb t).2.1.symm.trans hi)
    | thread n =>
      have hn := hi.1
      rw [Threads.Alive, (h.alive n).1] at hn
      cases hn
    | freed t => exact Reaping.noConfusion ((h.tcb t).2.2.1.symm.trans hi)
  forks d n hm := Making.noConfusion ((h.tcb _).2.1.symm.trans hm)

theorem activeOk_reachable (h : threadSystem.Reachable s) : ActiveOk s := by
  have hinv : System.Inductive threadSystem fun s => ThreadsOk s ∧ ActiveOk s :=
    ⟨fun s h => ⟨threadsOk_booted h, activeOk_booted h⟩, fun s a u h hs => ⟨h.1.step hs, h.2.step h.1 hs⟩⟩
  exact (hinv.reachable h).2

/-- No thread is being created, and none is allocated or about to be taken off the count. -/
structure Threads.Deserted (s : Threads) : Prop where
  alive : ∀ n, ¬ s.Alive n
  cell : ∀ p, s.cell p = []
  making : ∀ t, s.making t = .none
  reaping : ∀ t, s.reaping t ≠ .freed

theorem deserted (hok : ThreadsOk s) (h : ActiveOk s) (hzero : s.n_active = 0) : s.Deserted := by
  have hnone : ∀ i, ¬ s.Counts i := fun i hi => by
    have hpos := h.tally.pos_iff.mpr ⟨i, hi⟩
    omega
  have hmaking : ∀ t, s.making t = .none := by
    intro t
    cases hm : s.making t with
    | none => rfl
    | counted => exact absurd hm (hnone (.maker t))
    | made n b =>
      have hn : n ∈ s.cell (.creator t) := Threads.mem_creator.mpr ⟨b, hm⟩
      cases b with
      | true =>
        -- The new thread is counted.
        refine absurd ⟨hok.alive hn, fun w hw => ?_⟩ (hnone (.thread n))
        have hw' := Place.creator.inj (hok.placed.apart _ _ n (Threads.mem_creator.mpr ⟨_, hw⟩) hn)
        rw [hw', hm] at hw
        cases (Making.made.inj hw).2
      | false =>
        -- It is not, but the thread that calls `fork` is.
        cases t with
        | idle d => exact absurd hm (h.forks d n)
        | thread m =>
          have hbusy : ¬ (s.tcb (.thread m)).Empty := fun he => by
            rw [Threads.making, he.making] at hm
            cases hm
          obtain ⟨halive, -, hcreator, -⟩ := hok.busy m hbusy
          exact absurd ⟨halive, fun w hw => hcreator w (Threads.mem_creator.mpr ⟨_, hw⟩)⟩ (hnone (.thread m))
  have halive : ∀ n, ¬ s.Alive n := fun n hn => hnone (.thread n) ⟨hn, fun t ht => by
    rw [hmaking t] at ht
    cases ht⟩
  refine ⟨halive, fun p => ?_, hmaking, fun t ht => hnone (.freed t) ht⟩
  exact List.eq_nil_iff_forall_not_mem.mpr fun n hn => halive n (hok.alive hn)

/-- `reap` shuts the machine down when its `sub_fetch` gives 0. -/
theorem active_threads (h : threadSystem.Reachable s) :
    Tally s.n_active s.Counts ∧
    ∀ u c, ThreadStep s (c, .reaped) u → 0 < s.n_active ∧ (u.n_active = 0 → u.Deserted) := by
  have hactive := activeOk_reachable h
  refine ⟨hactive.tally, fun u c hs => ⟨?_, fun hzero => ?_⟩⟩
  · cases hs with
    | @reaped c t hr hm => exact hactive.tally.pos_iff.mpr ⟨.freed t, hm⟩
  · have hu := h.step hs
    exact deserted (threadsOk_inductive.reachable hu) (activeOk_reachable hu) hzero

theorem oneRuns_active : Tally 2 oneRuns.Counts := (active_threads oneRuns_reachable).1

end Kernel.Thread
