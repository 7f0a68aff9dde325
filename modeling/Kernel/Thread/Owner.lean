import Kernel.Thread.Runs

/-!
# Who has a thread

Every thread that is allocated has one owner, in any run of any number of
cores. The owner may itself be switched out.
-/

namespace Kernel.Thread

open Lib

variable {s : Threads}

theorem thread_owner (h : threadSystem.Reachable s) :
    (∀ n, s.Alive n → ∃! p, n ∈ s.cell p) ∧ (∀ n p, n ∈ s.cell p → s.Alive n) ∧ (∀ p, (s.cell p).Nodup) ∧
    (∀ n m, n ∈ s.cell (.creator (.thread m)) ∨ n ∈ s.cell (.reaping (.thread m)) → s.Alive m ∧ m ∉ s.cell .reaper) ∧
    (∀ n, (n ∈ s.cell .ready ∨ ∃ k, n ∈ s.cell (.waiting k)) →
      (s.tcb (.thread n)).saved = true ∧ 1 ≤ s.count (.thread n)) ∧
    (∀ c d, s.current c = .idle d → d = c) ∧
    ∀ c n, s.current c = .thread n → (s.tcb (.idle c)).saved = true ∧ 1 ≤ s.count (.idle c) := by
  have hok := threadsOk_inductive.reachable h
  refine ⟨fun n hn => hok.placed.existsUnique hn, fun n p hn => hok.alive hn, hok.placed.nodup, fun n m hn => ?_,
    fun n hn => ?_, fun c => (hok.core c).own, fun c n hc => ?_⟩
  · have hbusy : ¬ (s.tcb (.thread m)).Empty := fun he => by
      rcases hn with hn | hn
      · obtain ⟨b, hb⟩ := Threads.mem_creator.mp hn
        rw [Threads.making, he.making] at hb
        cases hb
      · rw [Threads.mem_reaping, Threads.reaping, he.reaping] at hn
        rcases hn with hn | hn <;> cases hn
    exact ⟨(hok.busy m hbusy).1, (hok.busy m hbusy).2.1⟩
  · have hout : (s.tcb (.thread n)).saved = true ∧ s.count (.thread n) = 1 := by
      rcases hn with hn | ⟨k, hn⟩ <;> exact hok.switched_out hn (by simp) (by simp)
    exact ⟨hout.1, Nat.le_of_eq hout.2.symm⟩
  · have hne : (s.core c).current ≠ .idle c := by
      rw [show (s.core c).current = .thread n from hc]
      simp
    obtain ⟨hsaved, hcount, -⟩ := (hok.core c).idle_out hne
    exact ⟨hsaved, by rw [Threads.count, hcount]; omega⟩

/-! ## A creator that waits for the heap -/

def boot : Threads where
  tcb _ :=
    { saved := false, disable_preemption_count := 1, the_stack := 0, stack_bottom := 0, action := .none, cond := 0
      cond_epoch := 0, inside := none, making := .none, reaping := .none, captured := 0, waits := 0, entered := none }
  core c := { current := .idle c, stage := .run, rsp0 := 0, user := false, looping := false }
  cond _ := { waiting := [], epoch := 0, holder := none, notes := 0 }
  readyQueue := []
  reaperQueue := []
  n_active := 0
  alive _ := false
  stack _ := none

/-- The step is of no call that uses a condition or its lock. -/
def NoCondition (_ : Threads) : Nat × Op → Prop
  | (_, .lock _) | (_, .unlock _) | (_, .wait _) | (_, .relock) | (_, .notify_one _) | (_, .notify_all _) => False
  | _ => True

theorem boot_apart : threadSystem.GuardedReachable NoCondition boot :=
  ⟨boot, [], ⟨fun _ => rfl, fun _ => rfl, fun _ => rfl, fun _ => ⟨rfl, rfl, rfl, rfl⟩, rfl, rfl, rfl,
    fun _ => ⟨rfl, rfl⟩⟩, .nil _⟩

theorem apart_step {u : Threads} {a : Nat × Op} (h : threadSystem.GuardedReachable NoCondition s)
    (hs : ThreadStep s a u) (ha : NoCondition s a) : threadSystem.GuardedReachable NoCondition u := h.step ha hs

theorem reachable_step {u : Threads} {a : Nat × Op} (h : threadSystem.Reachable s) (hs : ThreadStep s a u) :
    threadSystem.Reachable u := h.step hs

/-- The idle thread of core 0 has made threads 0 and 1. -/
def twoThreads : Threads :=
  let s := (((boot.setMaking (.idle 0) .counted).setActive 1).alloc (.idle 0) 0 true).make_stack 0 1
  let s := ((s.publish (.idle 0) 0).setMaking (.idle 0) .counted).setActive 2
  ((s.alloc (.idle 0) 1 true).make_stack 1 (1 + Threads.STACK_BYTES)).publish (.idle 0) 1

theorem twoThreads_apart : threadSystem.GuardedReachable NoCondition twoThreads := by
  have h := apart_step boot_apart (.make_thread (c := 0) (t := .idle 0) ⟨⟨rfl, rfl, rfl, rfl⟩, rfl, rfl⟩) trivial
  have h := apart_step h (.make_alloc (c := 0) (n := 0) (t := .idle 0) ⟨rfl, rfl, rfl, rfl⟩ rfl rfl rfl) trivial
  have h := apart_step h (.make_stack (c := 0) (t := .idle 0) (n := 0) (a := 1) ⟨rfl, rfl, rfl, rfl⟩ rfl rfl
    ⟨by decide, fun n b hb => nomatch hb⟩) trivial
  have h := apart_step h (.publish (c := 0) (t := .idle 0) (n := 0) ⟨rfl, rfl, rfl, rfl⟩ rfl (by decide)) trivial
  have h := apart_step h (.make_thread (c := 0) (t := .idle 0) ⟨⟨rfl, rfl, rfl, rfl⟩, rfl, rfl⟩) trivial
  have h := apart_step h (.make_alloc (c := 0) (n := 1) (t := .idle 0) ⟨rfl, rfl, rfl, rfl⟩ rfl rfl rfl) trivial
  have hfresh : ∀ n b, (if n = 0 then some 1 else none) = some b →
      1 + Threads.STACK_BYTES + Threads.STACK_BYTES ≤ b ∨ b + Threads.STACK_BYTES ≤ 1 + Threads.STACK_BYTES := by
    intro n b hb
    split_ifs at hb
    cases hb
    exact Or.inr (Nat.le_refl _)
  have h := apart_step h (.make_stack (c := 0) (t := .idle 0) (n := 1) (a := 1 + Threads.STACK_BYTES)
    ⟨rfl, rfl, rfl, rfl⟩ rfl rfl ⟨by decide, hfresh⟩) trivial
  exact apart_step h (.publish (c := 0) (t := .idle 0) (n := 1) ⟨rfl, rfl, rfl, rfl⟩ rfl (by decide)) trivial

/-- Thread 0 runs, and thread 1 is ready. -/
def oneRuns : Threads :=
  (((twoThreads.start_loop 0).pick 0 (.idle 0) .none (.thread 0) [1]).context_switch 0 (.thread 0)).switched 0

theorem oneRuns_apart : threadSystem.GuardedReachable NoCondition oneRuns := by
  have h := apart_step twoThreads_apart (.event_loop (c := 0) ⟨rfl, rfl, rfl, rfl⟩ rfl) trivial
  have h := apart_step h (.loop (c := 0) ⟨⟨rfl, rfl, rfl, rfl⟩, rfl, rfl⟩ rfl rfl) trivial
  have h := apart_step h (.switch (c := 0) rfl) trivial
  exact apart_step h (.post_none (c := 0) rfl rfl (by decide)) trivial

theorem oneRuns_reachable : threadSystem.Reachable oneRuns := oneRuns_apart.reachable

/-- Thread 0 has allocated TCB 2 in `fork`, and waits for the heap's lock in `new`. Core 0 runs thread 1. -/
def blockedCreator : Threads :=
  let s := ((oneRuns.alloc (.thread 0) 2 false).setHolder 0 (some (.thread 0))).release 0 0 (.thread 0)
  (((s.wait_remove 0 0 1 []).context_switch 0 (.thread 1)).park 0 0).switched 0

theorem blockedCreator_reachable : threadSystem.Reachable blockedCreator := by
  have h := reachable_step oneRuns_reachable (.fork_alloc (c := 0) (n := 2) (m := 0)
    ⟨⟨rfl, rfl, rfl, rfl⟩, rfl, rfl⟩ rfl)
  have h := reachable_step h (.lock (c := 0) (k := 0) (t := .thread 0) ⟨rfl, rfl, rfl, rfl⟩ rfl)
  have h := reachable_step h (.wait (c := 0) (k := 0) (n := 0) ⟨rfl, rfl, rfl, rfl⟩ rfl)
  have h := reachable_step h (.wait_remove (c := 0) (k := 0) rfl rfl rfl)
  have h := reachable_step h (.switch (c := 0) rfl)
  exact reachable_step h (.post_wait (c := 0) (p := 0) (k := 0) rfl rfl rfl rfl rfl (by decide))

theorem blockedCreator_owner : (∃! p, 2 ∈ blockedCreator.cell p) ∧ blockedCreator.Alive 0 :=
  ⟨(thread_owner blockedCreator_reachable).1 2 rfl,
    ((thread_owner blockedCreator_reachable).2.2.2.1 2 0 (Or.inl List.mem_cons_self)).1⟩

/-- Core `c` is about to switch to `n` or to make it ready, or runs the thread that makes it or reaps it. -/
def Threads.InHands (s : Threads) (c n : Nat) : Prop :=
  n ∈ s.cell (.next c) ∨ n ∈ s.cell (.notified c) ∨ n ∈ s.cell (.creator (s.current c)) ∨
    n ∈ s.cell (.reaping (s.current c))

theorem blockedCreator_in_no_hands :
    threadSystem.Reachable blockedCreator ∧ blockedCreator.Alive 2 ∧ 2 ∉ blockedCreator.cell .ready ∧
    (∀ k, 2 ∉ blockedCreator.cell (.waiting k)) ∧ 2 ∉ blockedCreator.cell .reaper ∧
    (∀ c, ¬ blockedCreator.InHands c 2) ∧ (∀ c, 2 ∉ blockedCreator.cell (.running c)) ∧
    ∀ c, 2 ∉ blockedCreator.cell (.pending c) := by
  have hplaced := (threadsOk_inductive.reachable blockedCreator_reachable).placed
  have hcreator : 2 ∈ blockedCreator.cell (.creator (.thread 0)) := List.mem_cons_self
  have hwaiting : 0 ∈ blockedCreator.cell (.waiting 0) := List.mem_cons_self
  have honly : ∀ p, 2 ∈ blockedCreator.cell p → p = .creator (.thread 0) := fun p hp => hplaced.apart _ _ 2 hp hcreator
  refine ⟨blockedCreator_reachable, rfl, fun h => ?_, fun k h => ?_, fun h => ?_, fun c h => ?_, fun c h => ?_,
    fun c h => ?_⟩
  · cases honly _ h
  · cases honly _ h
  · cases honly _ h
  · -- The creator itself would have to run.
    rcases h with h | h | h | h
    · cases honly _ h
    · cases honly _ h
    · have hrun : 0 ∈ blockedCreator.cell (.running c) := Tid.mem_threads.mpr (Place.creator.inj (honly _ h))
      cases hplaced.apart _ _ 0 hrun hwaiting
    · cases honly _ h
  · cases honly _ h
  · cases honly _ h

end Kernel.Thread
