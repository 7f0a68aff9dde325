import Kernel.Thread.Wakeup

/-!
# Threads in a call (`condition.h`)

What a step does to `wait` and to its condition, and where a thread can be that
has not ended a call.
-/

namespace Kernel.Thread

open Lib

variable {s u : Threads} {c d k n : Nat} {o : Op}

attribute [local grind =] Threads.current Threads.stage Threads.inside TCB.disable_preemption TCB.enable_preemption

theorem ThreadsOk.wait_step (h : ThreadsOk s) (hs : ThreadStep s (c, o) u) (t : Tid) :
    u.inside t = s.inside t ∨
      t = s.current c ∧
        (o = .relock ∧ u.inside t = none ∨ ∃ j, o = .wait j ∧ s.inside t = none ∧ u.inside t = some j) := by
  have hempty : ∀ n, s.alive n = false → s.inside (.thread n) = none := by
    intro n hn
    by_contra hin
    have hal := (h.busy n fun he => hin he.inside).1
    rw [Threads.Alive, hn] at hal
    cases hal
  cases hs with
  | switch =>
    simp only [Threads.context_switch, Threads.inside, Threads.modCore_tcb, Threads.modTcb_tcb]
    grind -linarith
  | make_alloc hr hm hre hdead =>
    have htcb := h.alloc_tcb hr.current hdead true
    grind -linarith [TCB.alloc]
  | fork_alloc hr hdead =>
    have htcb := h.alloc_tcb hr.current hdead false
    grind -linarith [TCB.alloc]
  | publish hr hm =>
    have htcb := h.publish_tcb hr.current hm
    grind -linarith
  | wait hr => grind -linarith [hr.current, hr.inside]
  | relock hg => grind -linarith
  | _ => exact Or.inl (by grind -linarith)

/-- Only a notification changes a condition's epoch, and takes threads from its queue. -/
theorem cond_step (hs : ThreadStep s (c, o) u) (hone : o ≠ .notify_one k) (hall : o ≠ .notify_all k) :
    (u.cond k).notes = (s.cond k).notes ∧
      ((u.cond k).waiting = (s.cond k).waiting ∨ ∃ p, s.stage c = .post (.thread p) ∧
        (s.tcb (.thread p)).action = .wait ∧ (s.tcb (.thread p)).cond = k ∧
        (s.cond k).epoch = (s.tcb (.thread p)).cond_epoch ∧ o = .post ∧
        (u.cond k).waiting = (s.cond k).waiting ++ [p]) := by
  have hnotes : (u.cond k).notes = (s.cond k).notes := by
    cases hs with
    | lock | unlock | wait | relock | post_wait => grind -linarith
    | notify_one => grind -linarith
    | notify_all => grind -linarith
    | _ => rfl
  rcases step_cond hs k with ⟨-, -, hw⟩ | ⟨rest, hu, -⟩
  · exact ⟨hnotes, hw⟩
  · rw [hu] at hnotes
    exact absurd hnotes (Nat.succ_ne_self _)

/-- The thread is switched out, or is about to be, and its `post_switch` is still to come. -/
def Threads.Leaves (s : Threads) (n : Nat) : Prop :=
  ∃ d, (s.current d = .thread n ∧ ∃ next, s.stage d = .picked next) ∨ s.stage d = .post (.thread n)

theorem ThreadsOk.leaves_step (h : ThreadsOk s) (hs : ThreadStep s (c, o) u)
    (hstop : s.current c = .thread n → o ≠ .stop) (hold : s.Leaves n → (s.tcb (.thread n)).action ≠ .stop)
    (hn : u.Leaves n) : (u.tcb (.thread n)).action ≠ .stop := by
  obtain ⟨d, hd⟩ := hn
  by_cases hdc : d = c
  · subst hdc
    have huser := (h.core d).user
    cases hs with
    | @switch c next hg =>
      have hcur : s.current d = .thread n := by
        rcases hd with ⟨-, m, hm⟩ | hm <;> grind -linarith
      have hact := hold ⟨d, Or.inl ⟨hcur, next, hg⟩⟩
      simp only [Threads.context_switch, Threads.modCore_tcb, Threads.modTcb_tcb]
      grind -linarith
    | _ => rcases hd with ⟨hcur, m, hm⟩ | hm <;> grind -linarith [Threads.Runs, Threads.Clear]
  · have hcore := step_core hs hdc
    rw [Threads.current, Threads.stage, hcore] at hd
    have hsame : u.tcb (.thread n) = s.tcb (.thread n) := h.other_tcb hs hdc <| by
      rcases hd with ⟨hd, -⟩ | hd
      · exact Or.inl hd.symm
      · exact Or.inr (Or.inr (Or.inl hd))
    rw [hsame]
    exact hold ⟨d, hd⟩

theorem ThreadsOk.idle_stays (h : ThreadsOk s) (hs : ThreadStep s (c, o) u) (hcur : s.current d = .idle d)
    (hpicked : ∀ next, s.stage d ≠ .picked next) (ho : c = d → o ≠ .loop) :
    u.current d = .idle d ∧ ∀ next, u.stage d ≠ .picked next := by
  by_cases hd : d = c
  · subst hd
    have hstage := (h.core d).stage
    cases hs with
    | loop => exact absurd rfl (ho rfl)
    | wait_remove hg => grind -linarith [StageOk]
    | _ => grind -linarith [Threads.Runs, Threads.Clear]
  · simp only [Threads.current, Threads.stage, step_core hs hd]
    exact ⟨hcur, hpicked⟩

theorem ThreadsOk.runs_held (h : ThreadsOk s) (hcur : s.current c = .thread n) :
    s.Alive n ∧ n ∉ s.cell .reaper ∧ (∀ t, n ∉ s.cell (.creator t)) ∧ ∀ t, n ∉ s.cell (.reaping t) := by
  have hrun : n ∈ s.cell (.running c) := Tid.mem_threads.mpr hcur
  exact ⟨h.alive hrun, fun hp => Place.noConfusion (h.placed.apart _ _ n hp hrun),
    fun t hp => Place.noConfusion (h.placed.apart _ _ n hp hrun),
    fun t hp => Place.noConfusion (h.placed.apart _ _ n hp hrun)⟩

end Kernel.Thread
