import Kernel.Lock.Calls

/-!
# What a thread holds

The context of a thread is what it holds. Two sections call something that may
wait for a `BlockingLock` with a spin lock held: `Exposes` names them.
-/

namespace Kernel.Lock

open Lib
open Lib.Cmd (block oneOf Flow Rules)

/-- The spin locks and the `BlockingLock`s of a thread, and the one that it has seen free under its spin lock. -/
structure Held where
  spins : List SpinLock
  blocks : List BlockingLock
  seen : Option BlockingLock

def Held.none : Held := ⟨[], [], .none⟩

/--
To wait for the lock of `l` with the locks `P` held is left to `mmap`, whose shared section calls `new`, and to `fork`,
which prints when no slot is free.
-/
def Exposes (P : SpinLock → Prop) (l : SpinLock) : Prop :=
  (P .sharedLock ∧ (l = .spin .theLock ∨ l = .spin .putch_spin)) ∨
  (P .processLock ∧ (l = .spin .say_lock ∨ l = .spin .putch_spin))

instance (s : List SpinLock) (l : SpinLock) : Decidable (Exposes (· ∈ s) l) :=
  inferInstanceAs (Decidable (_ ∨ _))

/-- The operation leaves what is held as it is. -/
@[reducible, simp]
def Op.plain : Op → Bool
  | capture _ | set_wait _ | set_action _ | bump _ | take _ | take_none | take_waiting _ | take_all _ | add_woken
  | add_prev _ | add_tcb | park _ | alloc _ | idle_thread => true
  | _ => false

/-- The operations on locks change what is held. A thread that is switched out holds no spin lock. -/
inductive Held.Does : Held → Op → Held → Prop where
  | lock {l : SpinLock} {s : List SpinLock} {B : List BlockingLock} {e : Option BlockingLock} :
      Does ⟨s, B, e⟩ (.lock l) ⟨l :: s, B, .none⟩
  | unlock {l : SpinLock} {s : List SpinLock} {B : List BlockingLock} {e : Option BlockingLock} :
      Does ⟨l :: s, B, e⟩ (.unlock l) ⟨s, B, .none⟩
  | set_locked {b : BlockingLock} {s : List SpinLock} {B : List BlockingLock} :
      Does ⟨s, B, some b⟩ (.set_locked b true) ⟨s, b :: B, .none⟩
  | clear_locked {b : BlockingLock} {s : List SpinLock} {B : List BlockingLock} {e : Option BlockingLock} :
      .spin b ∈ s → Does ⟨s, b :: B, e⟩ (.set_locked b false) ⟨s, B, .none⟩
  | switch {B : List BlockingLock} {e : Option BlockingLock} : Does ⟨[], B, e⟩ .switch ⟨[], B, e⟩
  | halt {h h' : Held} : Does h .halt h'
  | plain {o : Op} {h : Held} : o.plain = true → Does h o h

/-- The wait in an exposed section goes on without a switch. -/
def Held.learn (h : Held) : Test → Bool → Option Held
  | .always, false => .none
  | .next (some l), true => if Exposes (· ∈ h.spins) l then .none else some h
  | .locked b, false =>
      if b ∈ h.blocks then .none else some { h with seen := if .spin b ∈ h.spins then some b else .none }
  | _, _ => some h

def rules : Rules Op Test Held where
  op := Held.Does
  learn := Held.learn

/-- `c` ends with what it starts with, when the spin locks `s` are held. -/
def Quiet (s : List SpinLock) (c : Code) : Prop := ∀ B, Flow rules c ⟨s, B, none⟩ ⟨s, B, none⟩

/-- With the spin locks `s` held, the code may come to wait for `b`. -/
def MayBlock (s : List SpinLock) (b : BlockingLock) : Prop := s = [] ∨ Exposes (· ∈ s) (.spin b)

section

variable {s : List SpinLock} {c d : Code} {l : List Code} {o : Op} {m : SpinLock} {b : BlockingLock}
  {B : List BlockingLock}

/-! ## Rules -/

@[simp] theorem quiet_skip : Quiet s .skip := fun _ => rfl

@[simp] theorem quiet_block (hl : ∀ c ∈ l, Quiet s c) : Quiet s (block l) := by
  intro B
  induction l with
  | nil => exact .nil
  | cons c l ih =>
    exact .cons (hl c List.mem_cons_self B) (ih fun d hd => hl d (List.mem_cons_of_mem c hd))

@[simp] theorem quiet_either : Quiet s (either c d) ↔ Quiet s c ∧ Quiet s d := by
  refine ⟨fun h => ⟨fun B => (h B).1 _ rfl, fun B => (h B).2 _ rfl⟩, fun h B => ?_⟩
  exact .ite (fun v => by cases v <;> rfl) (h.1 B) (h.2 B)

@[simp] theorem quiet_maybe : Quiet s (maybe c) ↔ Quiet s c :=
  quiet_either.trans (and_iff_left quiet_skip)

@[simp] theorem quiet_repeated : Quiet s (repeated c) ↔ Quiet s c :=
  ⟨fun h B => (h B).1 _ rfl, fun h B => .loop (fun v => by cases v <;> rfl) (h B)⟩

theorem quiet_oneOf (hl : ∀ c ∈ l, Quiet s c) : Quiet s (oneOf .unknown l) :=
  fun B => .oneOf (fun v => by cases v <;> rfl) fun c hc => hl c hc B

theorem quiet_ite {t : Test} (ht : ∀ h v, Held.learn h t v = some h) (hc : Quiet s c) (hd : Quiet s d) :
    Quiet s (.ite t c d) := fun B => .ite (ht _) (hc B) (hd B)

theorem quiet_loop {t : Test} (ht : ∀ h v, Held.learn h t v = some h) (hc : Quiet s c) : Quiet s (.loop t c) :=
  fun B => .loop (ht _) (hc B)

theorem quiet_always (hc : Quiet s c) : Quiet s (.loop .always c) := by
  refine fun B => ⟨fun m hm => ?_, fun m hm => ?_⟩
  · cases hm
    exact hc B
  · cases hm

theorem quiet_read {r : Reg} {f : SpinLock → Code} (hf : ∀ m, Quiet s (f m)) : Quiet s (.read r f) :=
  fun B m => hf m B

@[simp] theorem quiet_op (ho : o.plain = true) : Quiet s (.op o) := fun _ => .plain ho

theorem SpinLock.lock_flow : Flow rules (.op (.lock m) : Code) ⟨s, B, none⟩ ⟨m :: s, B, none⟩ := .lock

theorem SpinLock.quiet_guard (hc : Quiet (m :: s) c) : Quiet s (m.guard c) :=
  fun B => .cons .lock (.cons (hc B) (.last .unlock))

@[simp] theorem SpinLock.quiet_section : Quiet s (m.guard .skip) := SpinLock.quiet_guard quiet_skip

/-! ## Queues and conditions -/

theorem Queue.quiet_add {q : Queue} (ho : o.plain = true) : Quiet s (q.add o) := SpinLock.quiet_guard (quiet_op ho)

theorem Queue.quiet_remove {q : Queue} : Quiet s q.remove :=
  quiet_ite (fun _ v => by cases v <;> rfl) (quiet_op rfl)
    (SpinLock.quiet_guard (quiet_ite (fun _ v => by cases v <;> rfl) (quiet_op rfl) (quiet_op rfl)))

theorem TCB.quiet_post_switch : Quiet s TCB.post_switch := by
  have hready : ∀ s, Quiet s (Queue.ready.add (.add_prev .ready)) := fun s => Queue.quiet_add rfl
  refine quiet_ite (fun _ v => by cases v <;> rfl) (hready s) ?_
  refine quiet_ite (fun _ v => by cases v <;> rfl) (Queue.quiet_add rfl) ?_
  refine quiet_ite (fun _ v => by cases v <;> rfl) (quiet_read fun l B => ?_) quiet_skip
  refine .cons .lock (.last (.ite (fun v => by cases v <;> rfl) ?_ ?_))
  · exact .cons (.plain rfl) (.last .unlock)
  · exact .cons .unlock (.last (hready s B))

theorem Condition.wait_flow (h : s = [] ∨ Exposes (· ∈ s) m) :
    Flow rules (Condition.wait m) ⟨m :: s, B, none⟩ ⟨m :: s, B, none⟩ := by
  refine .ite (fun v => by cases v <;> rfl) (.cons .unlock (.last SpinLock.lock_flow)) ?_
  refine .cons (.plain rfl) (.cons .unlock (.cons (Queue.quiet_remove B) (.last ⟨fun h' hh' => ?_, fun h' hh' => ?_⟩)))
  · have hs : s = [] ∧ ⟨s, B, none⟩ = h' := by
      simp only [rules, Held.learn] at hh'
      split at hh'
      · cases hh'
      · rename_i hx
        exact ⟨h.resolve_right hx, Option.some.inj hh'⟩
    obtain ⟨rfl, rfl⟩ := hs
    exact .cons (.plain rfl) (.cons .switch (.cons (TCB.quiet_post_switch B) (.last SpinLock.lock_flow)))
  · cases hh'
    exact SpinLock.lock_flow

theorem Condition.notify_flow {t : Op} {c : Code} (ht : t.plain = true) (hc : Quiet s c) :
    Flow rules (block [.op t, .op (.bump m), .op (.unlock m), c]) ⟨m :: s, B, none⟩ ⟨s, B, none⟩ :=
  .cons (.plain ht) (.cons (.plain rfl) (.cons .unlock (.last (hc B))))

theorem Condition.notify_one_flow : Flow rules (Condition.notify_one m) ⟨m :: s, B, none⟩ ⟨s, B, none⟩ :=
  Condition.notify_flow rfl (quiet_ite (fun _ v => by cases v <;> rfl) (Queue.quiet_add rfl) quiet_skip)

theorem Condition.notify_all_flow : Flow rules (Condition.notify_all m) ⟨m :: s, B, none⟩ ⟨s, B, none⟩ :=
  Condition.notify_flow rfl (quiet_loop (fun _ v => by cases v <;> rfl) (Queue.quiet_add rfl))

/-! ## `BlockingLock` -/

theorem BlockingLock.lock_flow (h : MayBlock s b) : Flow rules b.lock ⟨s, B, none⟩ ⟨s, b :: B, none⟩ := by
  have hmem : SpinLock.spin b ∈ SpinLock.spin b :: s := List.mem_cons_self
  refine .cons SpinLock.lock_flow ?_
  refine .cons (m := ⟨.spin b :: s, B, some b⟩) ⟨fun h' hh' => ?_, fun h' hh' => ?_⟩ ?_
  · cases hh'
    exact Condition.wait_flow h
  · simp only [rules, Held.learn] at hh'
    split at hh'
    · cases hh'
    · exact (Option.some.inj hh').symm
  · exact .cons .set_locked (.last .unlock)

theorem BlockingLock.unlock_flow : Flow rules b.unlock ⟨s, b :: B, none⟩ ⟨s, B, none⟩ := by
  have hmem : SpinLock.spin b ∈ SpinLock.spin b :: s := List.mem_cons_self
  refine .cons SpinLock.lock_flow ?_
  refine .cons (m := ⟨.spin b :: s, b :: B, none⟩) ⟨fun h' hh' => ?_, fun h' hh' => ?_⟩ ?_
  · cases hh'
    rfl
  · simp only [rules, Held.learn] at hh'
    rw [if_pos List.mem_cons_self] at hh'
    cases hh'
  · exact .cons (.clear_locked hmem) (.last Condition.notify_one_flow)

theorem BlockingLock.quiet_guard (h : MayBlock s b) (hc : Quiet s c) : Quiet s (b.guard c) :=
  fun B => .cons (BlockingLock.lock_flow h) (.cons (hc (b :: B)) (.last BlockingLock.unlock_flow))

end

end Kernel.Lock
