import Kernel.Lib.Places
import Kernel.Thread.Code

/-!
# Where threads are

Each thread but the idle ones is in one place, and a step hands it on from
place to place.
-/

namespace Kernel.Thread

open Lib

/-! ## Places -/

inductive Place where
  | ready
  | waiting (k : Nat)
  | reaper
  /-- With its creator, before `readyQueue.add`. -/
  | creator (t : Tid)
  /-- With the thread that is in `reap`, before `TCB::dealloc`. -/
  | reaping (t : Tid)
  /-- Removed from the ready queue, for core `c` to switch to. -/
  | next (c : Nat)
  /-- Removed from a waiting queue, for core `c` to make ready. -/
  | notified (c : Nat)
  | running (c : Nat)
  /-- Switched out on core `c`, before the end of its `post_switch`. -/
  | pending (c : Nat)
deriving DecidableEq

def Tid.threads : Tid → List Nat
  | idle _ => []
  | thread n => [n]

def Stage.next : Stage → List Nat
  | picked t => t.threads
  | _ => []

def Stage.notified : Stage → List Nat
  | adding l => l
  | _ => []

def Stage.pending : Stage → List Nat
  | post t => t.threads
  | requeue p => [p]
  | _ => []

def Making.threads : Making → List Nat
  | made n _ => [n]
  | _ => []

def Reaping.threads : Reaping → List Nat
  | taken n | unstacked n => [n]
  | _ => []

/-- The threads that are in a place. -/
def Threads.cell (s : Threads) : Place → List Nat
  | .ready => s.readyQueue
  | .waiting k => (s.cond k).waiting
  | .reaper => s.reaperQueue
  | .creator t => (s.making t).threads
  | .reaping t => (s.reaping t).threads
  | .next c => (s.stage c).next
  | .notified c => (s.stage c).notified
  | .running c => (s.current c).threads
  | .pending c => (s.stage c).pending

def Threads.Alive (s : Threads) (n : Nat) : Prop := s.alive n = true

@[simp] theorem Tid.mem_threads {t : Tid} {n : Nat} : n ∈ t.threads ↔ t = .thread n := by
  cases t <;> simp [Tid.threads, eq_comm]

/-! ## What each write moves -/

namespace Threads

variable (s : Threads)

theorem modTcb_cell (t : Tid) (f : TCB → TCB) (p : Place) :
    (s.modTcb t f).cell p =
      if p = .creator t then (f (s.tcb t)).making.threads else if p = .reaping t then (f (s.tcb t)).reaping.threads
      else s.cell p := by
  cases p <;> simp only [cell, making, reaping, modTcb, Place.creator.injEq, Place.reaping.injEq,
    reduceCtorEq, if_false]
  all_goals first | rfl | (split_ifs with h <;> simp [h])

theorem modTcb_cell_same {t : Tid} {f : TCB → TCB} (hm : (f (s.tcb t)).making = s.making t)
    (hr : (f (s.tcb t)).reaping = s.reaping t) : (s.modTcb t f).cell = s.cell := by
  funext p
  rw [modTcb_cell, hm, hr]
  split_ifs with h1 h2
  · rw [h1]; rfl
  · rw [h2]; rfl
  · rfl

theorem modCore_cell (c : Nat) (f : Core → Core) (p : Place) :
    (s.modCore c f).cell p =
      if p = .next c then (f (s.core c)).stage.next else if p = .notified c then (f (s.core c)).stage.notified
      else if p = .pending c then (f (s.core c)).stage.pending
      else if p = .running c then (f (s.core c)).current.threads else s.cell p := by
  cases p <;> simp only [cell, stage, current, modCore, Place.next.injEq, Place.notified.injEq, Place.pending.injEq,
    Place.running.injEq, reduceCtorEq, if_false]
  all_goals first | rfl | (split_ifs with h <;> simp [h])

theorem modCond_cell (k : Nat) (f : Condition → Condition) (p : Place) :
    (s.modCond k f).cell p = if p = .waiting k then (f (s.cond k)).waiting else s.cell p := by
  cases p <;> simp only [cell, modCond, Place.waiting.injEq, reduceCtorEq, if_false]
  all_goals first | rfl | (split_ifs with h <;> simp [h])

@[simp, grind =] theorem setReady_cell (l : List Nat) (p : Place) :
    (s.setReady l).cell p = if p = .ready then l else s.cell p := by
  cases p <;> rfl

@[simp, grind =] theorem setReaper_cell (l : List Nat) (p : Place) :
    (s.setReaper l).cell p = if p = .reaper then l else s.cell p := by
  cases p <;> rfl

@[simp, grind =] theorem ready_cell (n : Nat) (p : Place) :
    (s.ready n).cell p = if p = .ready then s.readyQueue ++ [n] else s.cell p := setReady_cell ..

@[simp, grind =] theorem setStage_cell (c : Nat) (g : Stage) (p : Place) :
    (s.setStage c g).cell p =
      if p = .next c then g.next else if p = .notified c then g.notified else if p = .pending c then g.pending
      else s.cell p := by
  rw [setStage, modCore_cell]
  split_ifs with _ _ _ h <;> simp_all [cell, current]

@[simp, grind =] theorem setMaking_cell (t : Tid) (m : Making) (p : Place) :
    (s.setMaking t m).cell p = if p = .creator t then m.threads else s.cell p := by
  rw [setMaking, modTcb_cell]
  split_ifs with _ h <;> simp_all [cell, reaping]

@[simp, grind =] theorem setReaping_cell (t : Tid) (r : Reaping) (p : Place) :
    (s.setReaping t r).cell p = if p = .reaping t then r.threads else s.cell p := by
  rw [setReaping, modTcb_cell]
  split_ifs <;> simp_all [cell, making]

@[simp, grind =] theorem setHolder_cell (k : Nat) (h : Option Tid) (p : Place) :
    (s.setHolder k h).cell p = s.cell p := by
  rw [setHolder, modCond_cell]
  split_ifs with h <;> simp_all [cell]

@[simp, grind =] theorem setInside_cell (t : Tid) (k : Option Nat) (p : Place) :
    (s.setInside t k).cell p = s.cell p := by
  rw [setInside, modTcb_cell_same _ rfl rfl]

@[simp, grind =] theorem setAlive_cell (n : Nat) (b : Bool) (p : Place) : (s.setAlive n b).cell p = s.cell p := rfl
@[simp, grind =] theorem setActive_cell (n : Nat) (p : Place) : (s.setActive n).cell p = s.cell p := rfl
@[simp, grind =] theorem setStack_cell (n : Nat) (x : Option Nat) (p : Place) :
    (s.setStack n x).cell p = s.cell p := rfl

@[simp, grind =] theorem make_stack_cell (n x : Nat) (p : Place) : (s.make_stack n x).cell p = s.cell p := by
  rw [make_stack, setStack_cell, modTcb_cell_same _ rfl rfl]

@[simp, grind =] theorem pick_cell (c : Nat) (t : Tid) (x : Action) (next : Tid) (rest : List Nat) (p : Place) :
    (s.pick c t x next rest).cell p =
      if p = .next c then next.threads else if p = .notified c then [] else if p = .pending c then []
      else if p = .ready then rest else s.cell p := by
  rw [pick, setStage_cell, modTcb_cell_same _ rfl rfl, setReady_cell]
  rfl

@[simp, grind =] theorem wait_none_cell (c : Nat) (p : Place) :
    (s.wait_none c).cell p =
      if p = .next c then [] else if p = .notified c then [] else if p = .pending c then [] else s.cell p := by
  rw [wait_none, setStage_cell, modTcb_cell_same _ rfl rfl]
  rfl

@[simp, grind =] theorem wait_remove_cell (c k n : Nat) (rest : List Nat) (p : Place) :
    (s.wait_remove c k n rest).cell p =
      if p = .next c then [n] else if p = .notified c then [] else if p = .pending c then []
      else if p = .ready then rest else s.cell p := by
  rw [wait_remove, setStage_cell, modTcb_cell_same _ rfl rfl, setReady_cell]
  rfl

@[simp, grind =] theorem park_cell (k n : Nat) (p : Place) :
    (s.park k n).cell p = if p = .waiting k then (s.cond k).waiting ++ [n] else s.cell p := s.modCond_cell ..

@[simp, grind =] theorem start_loop_cell (c : Nat) (p : Place) : (s.start_loop c).cell p = s.cell p := by
  rw [start_loop, modCore_cell, modTcb_cell_same _ rfl rfl]
  split_ifs with h h h h <;> first | rfl | (rw [h]; rfl)

@[simp, grind =] theorem switched_cell (c : Nat) (p : Place) :
    (s.switched c).cell p =
      if p = .next c then [] else if p = .notified c then [] else if p = .pending c then [] else s.cell p := by
  rw [switched, modCore_cell, modTcb_cell_same _ rfl rfl]
  split_ifs with _ _ _ h
  · rfl
  · rfl
  · rfl
  · rw [h]; rfl
  · rfl

@[simp, grind =] theorem release_cell (c k : Nat) (t : Tid) (p : Place) :
    (s.release c k t).cell p =
      if p = .next c then [] else if p = .notified c then [] else if p = .pending c then [] else s.cell p := by
  rw [release, setStage_cell, setHolder_cell, modTcb_cell_same _ rfl rfl]
  rfl

@[simp, grind =] theorem notify_cell (c k : Nat) (l rest : List Nat) (p : Place) :
    (s.notify c k l rest).cell p =
      if p = .next c then [] else if p = .notified c then l else if p = .pending c then []
      else if p = .waiting k then rest else s.cell p := by
  rw [notify, setStage_cell, modCond_cell]
  rfl

@[simp, grind =] theorem context_switch_cell (c : Nat) (next : Tid) (p : Place) :
    (s.context_switch c next).cell p =
      if p = .next c then [] else if p = .notified c then [] else if p = .pending c then (s.current c).threads
      else if p = .running c then next.threads else s.cell p := by
  rw [context_switch, modCore_cell, modTcb_cell_same _ rfl rfl, modTcb_cell_same _ rfl rfl]
  rfl

@[simp, grind =] theorem publish_cell (t : Tid) (n : Nat) (p : Place) :
    (s.publish t n).cell p = if p = .creator t then [] else if p = .ready then s.readyQueue ++ [n] else s.cell p := by
  rw [publish, setMaking_cell, ready_cell, modTcb_cell_same _ rfl rfl]
  rfl

@[simp, grind =] theorem alloc_cell (t : Tid) (n : Nat) (b : Bool) (p : Place) :
    (s.alloc t n b).cell p = if p = .creator t then [n] else s.cell p := by
  rw [alloc, setMaking_cell, setAlive_cell, modTcb_cell_same _ rfl rfl]
  rfl

@[simp, grind =] theorem sysret_cell (c n rsp : Nat) (p : Place) : (s.sysret c n rsp).cell p = s.cell p := by
  rw [sysret, modCore_cell, modTcb_cell_same _ rfl rfl]
  split_ifs with h h h h <;> first | rfl | (rw [h]; rfl)

@[simp, grind =] theorem syscall_cell (c n : Nat) (p : Place) : (s.syscall c n).cell p = s.cell p := by
  rw [syscall, modCore_cell, modTcb_cell_same _ rfl rfl]
  split_ifs with h h h h <;> first | rfl | (rw [h]; rfl)

theorem alloc_alive (t : Tid) (n : Nat) (b : Bool) (m : Nat) : (s.alloc t n b).Alive m ↔ m = n ∨ s.Alive m := by
  by_cases h : m = n <;> simp [Alive, alloc, setMaking, h]

theorem dealloc_alive (n m : Nat) : (s.setAlive n false).Alive m ↔ m ≠ n ∧ s.Alive m := by
  by_cases h : m = n <;> simp [Alive, h]

theorem cell_stage {s : Threads} {c : Nat} {g : Stage} (h : s.stage c = g) :
    s.cell (.next c) = g.next ∧ s.cell (.notified c) = g.notified ∧ s.cell (.pending c) = g.pending := by
  subst h
  exact ⟨rfl, rfl, rfl⟩

end Threads

/-! ## Steps -/

section

variable {s u : Threads} {a : Nat × Op}

attribute [local simp] Stage.next Stage.notified Stage.pending Tid.threads Making.threads Reaping.threads

/-- Core `c` goes on from stage `g`, and may exchange threads with the queue `q`. -/
theorem placed_stage {live : Nat → Prop} {c : Nat} {g : Stage} {l : List Nat} (h : Placed live s.cell)
    (hg : s.stage c = g) (q : Place) (hq : q ≠ .next c ∧ q ≠ .notified c ∧ q ≠ .pending c) (hl : s.cell q = l)
    (hperm : (u.cell q ++ (u.cell (.next c) ++ (u.cell (.notified c) ++ u.cell (.pending c)))).Perm
      (l ++ (g.next ++ (g.notified ++ g.pending))))
    (hframe : ∀ p, p ≠ q ∧ p ≠ .next c ∧ p ≠ .notified c ∧ p ≠ .pending c → u.cell p = s.cell p) :
    Placed live u.cell := by
  obtain ⟨hnext, hnotified, hpending⟩ := Threads.cell_stage hg
  refine h.shuffle [q, .next c, .notified c, .pending c] ?_ ?_ fun p hp => hframe p ?_
  · simp [hq]
  · simpa [hl, hnext, hnotified, hpending] using hperm
  · simpa using hp

theorem placed_kept {live : Nat → Prop} {l : List Nat} (h : Placed live s.cell) (p : Place) (hl : s.cell p = l)
    (hp : u.cell p = l) (hframe : ∀ p', p' ≠ p → u.cell p' = s.cell p') : Placed live u.cell := by
  refine h.shuffle [] List.nodup_nil (List.Perm.refl _) fun p' _ => ?_
  by_cases hp' : p' = p
  · rw [hp', hp, hl]
  · exact hframe p' hp'

/-- Each thread is handed from place to place. A `post_switch` that does nothing is of an idle thread. -/
theorem placed_step (h : Placed s.Alive s.cell)
    (hpost : ∀ c p, s.stage c = .post (.thread p) → (s.tcb (.thread p)).action ≠ .none) (hs : ThreadStep s a u) :
    Placed u.Alive u.cell := by
  cases hs with
  | event_loop | lock | unlock | relock | yield_none | make_stack | sysret | fork_return | syscall =>
    exact h.shuffle [] (by simp) (by simp) (by simp)
  | wait_none hg | post_again hg | added hg =>
    exact placed_stage h hg .ready (by simp) rfl (by simp) (by simp +contextual)
  | wait hr => exact placed_stage h hr.stage .ready (by simp) rfl (by simp) (by simp +contextual)
  | wait_remove hg _ hq => exact placed_stage h hg .ready (by simp) hq (by simp) (by simp +contextual)
  | yield hcl hq | stop hcl hq | stop_idle hcl hq | loop hcl _ hq =>
    exact placed_stage h hcl.stage .ready (by simp) hq (by simp) (by simp +contextual)
  | @switch c next hg =>
    have hc := Threads.cell_stage hg
    have hr : s.cell (.running c) = (s.current c).threads := rfl
    refine h.shuffle [.next c, .notified c, .pending c, .running c] (by simp) ?_ (by simp +contextual)
    simp [hc, hr, List.perm_append_comm]
  | post_ready hg | requeue hg | add hg =>
    exact placed_stage (l := s.readyQueue) h hg .ready (by simp) rfl (by simp) (by simp +contextual)
  | post_stop hg => exact placed_stage (l := s.reaperQueue) h hg .reaper (by simp) rfl (by simp) (by simp +contextual)
  | @post_none c prev hg ha =>
    cases prev with
    | thread p => exact absurd ha (hpost c p hg)
    | idle d => exact placed_stage h hg .ready (by simp) rfl (by simp) (by simp +contextual)
  | @post_wait c p k hg =>
    exact placed_stage (l := (s.cond k).waiting) h hg (.waiting k) (by simp) rfl (by simp) (by simp +contextual)
  | @notify_one c k t hr hh =>
    refine placed_stage (l := (s.cond k).waiting) h hr.stage (.waiting k) (by simp) rfl ?_ (by simp +contextual)
    cases (s.cond k).waiting <;> simp
  | @notify_all c k t hr hh =>
    exact placed_stage (l := (s.cond k).waiting) h hr.stage (.waiting k) (by simp) rfl (by simp) (by simp +contextual)
  | @make_thread c t hcl =>
    exact placed_kept (l := []) h (.creator t) (by simp [Threads.cell, hcl.making]) (by simp) (by simp +contextual)
  | @make_alloc c n t hr hm _ halloc =>
    have hnil : s.cell (.creator t) = [] := by simp [Threads.cell, hm]
    exact h.add (i := .creator t) (a := n) (by simp [Threads.Alive, halloc]) (s.alloc_alive t n true) (by simp [hnil])
      (by simp +contextual)
  | @fork_alloc c n m hcl halloc =>
    have hnil : s.cell (.creator (.thread m)) = [] := by simp [Threads.cell, hcl.making]
    exact h.add (i := .creator (.thread m)) (a := n) (by simp [Threads.Alive, halloc]) (s.alloc_alive _ n false)
      (by simp [hnil]) (by simp +contextual)
  | @fork_count c n t hr hm =>
    exact placed_kept (l := [n]) h (.creator t) (by simp [Threads.cell, hm]) (by simp) (by simp +contextual)
  | @publish c n t hr hm =>
    have hcell : s.cell (.creator t) = [n] := by simp [Threads.cell, hm]
    have hq : s.cell .ready = s.readyQueue := rfl
    refine h.shuffle [.ready, .creator t] (by simp) ?_ (by simp +contextual)
    simp [hcell, hq]
  | @take c n t rest hr hm hq =>
    have hcell : s.cell (.reaping t) = [] := by simp [Threads.cell, hm]
    have hq : s.cell .reaper = n :: rest := hq
    exact h.shuffle [.reaper, .reaping t] (by simp) (by simp [hcell, hq]) (by simp +contextual)
  | @free_stack c n t hr hm =>
    exact placed_kept (l := [n]) h (.reaping t) (by simp [Threads.cell, hm]) (by simp) (by simp +contextual)
  | @dealloc c n t hr hm =>
    have hcell : s.cell (.reaping t) = [n] := by simp [Threads.cell, hm]
    exact h.drop (i := .reaping t) (a := n) (by simp [hcell]) (s.dealloc_alive n) (by simp +contextual)
  | @reaped c t hr hm =>
    exact placed_kept (l := []) h (.reaping t) (by simp [Threads.cell, hm]) (by simp) (by simp +contextual)

end

end Kernel.Thread
