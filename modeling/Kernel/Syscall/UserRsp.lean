import Kernel.Lib.Transition
import Mathlib.Logic.Function.Basic
import Mathlib.Tactic.Common

/-!
# The user stack pointer across system calls (`machine.S`)

`syscallHandler_` keeps the user's `rsp` in `gs:28`, of which every core has
one. A thread that is switched out in a system call does not take it along.
-/

namespace Kernel

open Lib

/-! ## Cores and threads -/

/-- Where a thread is. The ghost `entry` is the `rsp` of the system call that it is in. -/
inductive Mode where
  | absent
  /-- In the kernel, outside of any system call. -/
  | kernel
  | user (rsp : Nat)
  | syscall (entry : Nat)
  /-- In `fork_child_entry`. The ghost `entry` is that of the parent's `fork`. -/
  | child (fork_user_rsp entry : Nat)

/-- In the kernel, so that a core may switch to the thread or from it. -/
def Mode.inKernel : Mode → Prop
  | kernel | syscall _ | child _ _ => True
  | absent | user _ => False

structure Cores where
  /-- `PerCore::tss.rsp1`. -/
  gs28 : Nat → Nat
  /-- The thread that a core runs, or `none` for its idle thread. -/
  current : Nat → Option Nat
  mode : Nat → Mode

def Cores.setMode (s : Cores) (p : Nat) (m : Mode) : Cores := { s with mode := Function.update s.mode p m }

/-- `mov %rsp, %gs:28` and its like. -/
def Cores.setGs28 (s : Cores) (c rsp : Nat) : Cores := { s with gs28 := Function.update s.gs28 c rsp }

@[simp] theorem Cores.setMode_self (s : Cores) (p : Nat) (m : Mode) : (s.setMode p m).mode p = m :=
  Function.update_self ..

@[simp] theorem Cores.setMode_of_ne (s : Cores) {p q : Nat} (m : Mode) (h : q ≠ p) :
    (s.setMode p m).mode q = s.mode q :=
  Function.update_of_ne h ..

@[simp] theorem Cores.setGs28_self (s : Cores) (c rsp : Nat) : (s.setGs28 c rsp).gs28 c = rsp := Function.update_self ..

@[simp] theorem Cores.setGs28_of_ne (s : Cores) {c d : Nat} (rsp : Nat) (h : d ≠ c) :
    (s.setGs28 c rsp).gs28 d = s.gs28 d := Function.update_of_ne h ..

inductive RspOp where
  | user (c rsp : Nat)
  | entry (c : Nat)
  | sysret (c : Nat)
  | fork (c child : Nat)
  | child_entry (c : Nat)
  | switch (c : Nat) (next : Option Nat)
  | create (p : Nat)
  | switch_to_user (c rsp : Nat)
  | stop (c : Nat)

/-- `switch` is any `context_switch_`: from a thread in the kernel or the idle thread, to a thread that no core runs. -/
inductive RspStep : Cores → RspOp → Cores → Prop where
  /-- User code moves its `rsp`. -/
  | user {s : Cores} {c p old rsp : Nat} : s.current c = some p → s.mode p = .user old →
      RspStep s (.user c rsp) (s.setMode p (.user rsp))
  /-- `syscallHandler_` up to the call. -/
  | entry {s : Cores} {c p rsp : Nat} : s.current c = some p → s.mode p = .user rsp →
      RspStep s (.entry c) ((s.setGs28 c rsp).setMode p (.syscall rsp))
  /-- `syscallHandler_` after the call. -/
  | sysret {s : Cores} {c p e : Nat} : s.current c = some p → s.mode p = .syscall e →
      RspStep s (.sysret c) (s.setMode p (.user (s.gs28 c)))
  /-- `child->fork_user_rsp = current_user_rsp()`. -/
  | fork {s : Cores} {c p q e : Nat} : s.current c = some p → s.mode p = .syscall e → s.mode q = .absent →
      RspStep s (.fork c q) (s.setMode q (.child (s.gs28 c) e))
  /-- `fork_return_to_user`. -/
  | child_entry {s : Cores} {c p rsp e : Nat} : s.current c = some p → s.mode p = .child rsp e →
      RspStep s (.child_entry c) ((s.setGs28 c rsp).setMode p (.user ((s.setGs28 c rsp).gs28 c)))
  | switch {s : Cores} {c : Nat} {next : Option Nat} : (∀ p, s.current c = some p → (s.mode p).inKernel) →
      (∀ q, next = some q → (s.mode q).inKernel ∧ ∀ d, s.current d ≠ some q) →
      RspStep s (.switch c next) { s with current := Function.update s.current c next }
  /-- `make_thread`. -/
  | create {s : Cores} {p : Nat} : s.mode p = .absent → RspStep s (.create p) (s.setMode p .kernel)
  | switch_to_user {s : Cores} {c p rsp : Nat} : s.current c = some p → s.mode p = .kernel →
      RspStep s (.switch_to_user c rsp) (s.setMode p (.user rsp))
  /-- `Thread::stop`, up to the idle thread. -/
  | stop {s : Cores} {c p : Nat} : s.current c = some p → (s.mode p).inKernel →
      RspStep s (.stop c) { s.setMode p .absent with current := Function.update s.current c none }

/-- Kernel threads at most, and none on two cores. -/
structure BootedCores (s : Cores) : Prop where
  mode : ∀ p, s.mode p = .absent ∨ s.mode p = .kernel
  apart : ∀ c d p, s.current c = some p → s.current d = some p → c = d
  alive : ∀ c p, s.current c = some p → s.mode p = .kernel

def rspSystem : System Cores RspOp where
  init := BootedCores
  step := RspStep

/-- A return from a system call, and the first entry of a child, end with the `rsp` of the entry. -/
def ReturnsRsp (s : Cores) (a : RspOp) (t : Cores) : Prop :=
  (∀ c p e, a = .sysret c → s.current c = some p → s.mode p = .syscall e → t.mode p = .user e) ∧
    ∀ c p rsp e, a = .child_entry c → s.current c = some p → s.mode p = .child rsp e → t.mode p = .user e

/-- A core that resumes a thread in a system call has the thread's `rsp` in its `gs:28`. -/
def SlotKept (s : Cores) : RspOp → Prop
  | .switch c (some q) => ∀ e, s.mode q = .syscall e → s.gs28 c = e
  | _ => True

/-! ## The invariant -/

structure RspInv (s : Cores) : Prop where
  apart : ∀ c d p, s.current c = some p → s.current d = some p → c = d
  alive : ∀ c p, s.current c = some p → s.mode p ≠ .absent
  slot : ∀ c p e, s.current c = some p → s.mode p = .syscall e → s.gs28 c = e
  child : ∀ p rsp e, s.mode p = .child rsp e → rsp = e

section

variable {s t : Cores} {a : RspOp}

theorem RspInv.setMode (h : RspInv s) {p : Nat} {m : Mode} (hm : m ≠ .absent)
    (hslot : ∀ c e, s.current c = some p → m = .syscall e → s.gs28 c = e)
    (hchild : ∀ rsp e, m = .child rsp e → rsp = e) : RspInv (s.setMode p m) where
  apart := h.apart
  alive c q hc := by
    by_cases hq : q = p
    · subst hq
      simpa using hm
    · simpa [hq] using h.alive c q hc
  slot c q e hc he := by
    by_cases hq : q = p
    · subst hq
      exact hslot c e hc (by simpa using he)
    · exact h.slot c q e hc (by simpa [hq] using he)
  child q rsp e he := by
    by_cases hq : q = p
    · subst hq
      exact hchild rsp e (by simpa using he)
    · exact h.child q rsp e (by simpa [hq] using he)

theorem RspInv.setGs28 (h : RspInv s) {c p rsp : Nat} (hc : s.current c = some p) (hp : ∀ e, s.mode p ≠ .syscall e) :
    RspInv (s.setGs28 c rsp) where
  apart := h.apart
  alive := h.alive
  slot d q e hd he := by
    by_cases hdc : d = c
    · subst hdc
      obtain rfl := Option.some.inj (hc.symm.trans hd)
      exact absurd he (hp e)
    · rw [Cores.setGs28_of_ne s rsp hdc]
      exact h.slot d q e hd he
  child := h.child

theorem RspInv.step (h : RspInv s) (hg : SlotKept s a) (hs : RspStep s a t) : RspInv t := by
  cases hs with
  | user hc hp => exact h.setMode (by simp) (by simp) (by simp)
  | @entry c p rsp hc hp =>
    refine (h.setGs28 hc (by simp [hp])).setMode (by simp) (fun d e hd he => ?_) (by simp)
    obtain rfl := Mode.syscall.inj he
    obtain rfl := h.apart c d p hc hd
    exact Cores.setGs28_self ..
  | sysret hc hp => exact h.setMode (by simp) (by simp) (by simp)
  | @fork c p q e hc hp hq =>
    refine h.setMode (by simp) (by simp) fun rsp e' he => ?_
    obtain ⟨rfl, rfl⟩ := Mode.child.inj he
    exact h.slot c p e hc hp
  | child_entry hc hp => exact (h.setGs28 hc (by simp [hp])).setMode (by simp) (by simp) (by simp)
  | @switch c next hold hnext =>
    have hq : ∀ q, next = some q → s.mode q ≠ .absent ∧ ∀ d, s.current d ≠ some q := by
      rintro q rfl
      refine ⟨fun habs => ?_, (hnext q rfl).2⟩
      have hin := (hnext q rfl).1
      rw [habs] at hin
      exact hin
    refine ⟨fun d d' p hd hd' => ?_, fun d p hd => ?_, fun d p e hd he => ?_, h.child⟩
    · simp only [Function.update_apply] at hd hd'
      split_ifs at hd hd' with h₁ h₂
      · rw [h₁, h₂]
      · exact absurd hd' ((hq p hd).2 d')
      · exact absurd hd ((hq p hd').2 d)
      · exact h.apart d d' p hd hd'
    · simp only [Function.update_apply] at hd
      split_ifs at hd with h₁
      · exact (hq p hd).1
      · exact h.alive d p hd
    · simp only [Function.update_apply] at hd
      split_ifs at hd with h₁
      · subst hd
        rw [h₁]
        exact hg e he
      · exact h.slot d p e hd he
  | create hp => exact h.setMode (by simp) (by simp) (by simp)
  | switch_to_user hc hp => exact h.setMode (by simp) (by simp) (by simp)
  | @stop c p hc hp =>
    have hother : ∀ d q, Function.update s.current c none d = some q → s.current d = some q ∧ q ≠ p := by
      intro d q hd
      simp only [Function.update_apply] at hd
      split_ifs at hd with h₁
      refine ⟨hd, ?_⟩
      rintro rfl
      exact h₁ (h.apart d c q hd hc)
    refine ⟨fun d d' q hd hd' => h.apart d d' q (hother d q hd).1 (hother d' q hd').1, fun d q hd => ?_,
      fun d q e hd he => ?_, fun q rsp e he => ?_⟩
    · obtain ⟨hd, hne⟩ := hother d q hd
      simpa [hne] using h.alive d q hd
    · obtain ⟨hd, hne⟩ := hother d q hd
      exact h.slot d q e hd (by simpa [hne] using he)
    · by_cases hqp : q = p
      · subst hqp
        exact absurd he (by simp)
      · exact h.child q rsp e (by simpa [hqp] using he)

theorem BootedCores.inv (h : BootedCores s) : RspInv s where
  apart := h.apart
  alive c p hc := by
    rw [h.alive c p hc]
    simp
  slot c p e hc he := by
    rw [h.alive c p hc] at he
    cases he
  child p rsp e he := by
    rcases h.mode p with hp | hp <;> rw [hp] at he <;> cases he

theorem rspInv_of_kept (h : System.GuardedReachable rspSystem SlotKept s) : RspInv s := by
  obtain ⟨s₀, l, hinit, hrun⟩ := h
  exact hrun.preserves (fun _ _ _ hs hg hstep => RspInv.step hs hg hstep) (BootedCores.inv hinit)

theorem RspInv.returns (h : RspInv s) (hs : RspStep s a t) : ReturnsRsp s a t := by
  cases hs with
  | @sysret c p e hc hp =>
    refine ⟨fun d q e' ha hd hq => ?_, fun _ _ _ _ ha => by cases ha⟩
    obtain rfl := RspOp.sysret.inj ha
    obtain rfl := Option.some.inj (hc.symm.trans hd)
    rw [Cores.setMode_self, h.slot c p e' hc hq]
  | @child_entry c p rsp e hc hp =>
    refine ⟨fun _ _ _ ha => (by cases ha), fun d q rsp' e' ha hd hq => ?_⟩
    obtain rfl := RspOp.child_entry.inj ha
    obtain rfl := Option.some.inj (hc.symm.trans hd)
    obtain ⟨rfl, rfl⟩ := Mode.child.inj (hp.symm.trans hq)
    rw [Cores.setMode_self, Cores.setGs28_self, h.child p rsp e hp]
  | _ => exact ⟨fun _ _ _ ha => (by cases ha), fun _ _ _ _ ha => (by cases ha)⟩

/-- A thread that is resumed with another value in the slot can return with it at once. -/
theorem resumed_returns {c q e : Nat} (hs : RspStep s (.switch c (some q)) t) (hq : s.mode q = .syscall e)
    (hslot : s.gs28 c ≠ e) : ∃ u, RspStep t (.sysret c) u ∧ ¬ ReturnsRsp t (.sysret c) u := by
  cases hs with
  | switch _ _ =>
    refine ⟨_, .sysret (Function.update_self ..) hq, fun h => ?_⟩
    have hu := h.1 c q e rfl (Function.update_self ..) hq
    rw [Cores.setMode_self] at hu
    exact hslot (Mode.user.inj hu)

end

/-! ## Runs and returns -/

/-- **User `rsp`.** It is kept in every run in which no thread is resumed in a system call on a core whose `gs:28` has
another value; and where one is, it can return with that value. -/
theorem user_rsp_kept (s : Cores) :
    (∀ a t, System.GuardedReachable rspSystem SlotKept s → RspStep s a t → ReturnsRsp s a t) ∧
    ∀ c q t, System.Reachable rspSystem s → RspStep s (.switch c (some q)) t → ¬ SlotKept s (.switch c (some q)) →
      ∃ u, RspStep t (.sysret c) u ∧ ¬ ReturnsRsp t (.sysret c) u := by
  constructor
  · intro a t h hs
    exact (rspInv_of_kept h).returns hs
  · intro c q t _ hs hslot
    obtain ⟨e, hq, hne⟩ : ∃ e, s.mode q = .syscall e ∧ s.gs28 c ≠ e := by
      by_contra hall
      push Not at hall
      exact hslot hall
    exact resumed_returns hs hq hne

/-! ## One core and two processes -/

/-- One core, with one thread on it. -/
def oneCore : Cores where
  gs28 _ := 0
  current c := if c = 0 then some 0 else none
  mode p := if p = 0 then .kernel else .absent

theorem oneCore_booted : BootedCores oneCore := by
  refine ⟨fun p => ?_, fun c d p hc hd => ?_, fun c p hc => ?_⟩
  · simp only [oneCore]
    split_ifs
    · exact Or.inr rfl
    · exact Or.inl rfl
  · simp only [oneCore] at hc hd
    split_ifs at hc hd with h₁ h₂
    rw [h₁, h₂]
  · simp only [oneCore] at hc ⊢
    split_ifs at hc
    rw [if_pos (Option.some.inj hc).symm]

/-- The thread has become a process and is in a system call. -/
def inSyscall : Cores := ((oneCore.setMode 0 (.user 4096)).setGs28 0 4096).setMode 0 (.syscall 4096)

theorem inSyscall_kept : System.GuardedReachable rspSystem SlotKept inSyscall := by
  have hstart : RspStep oneCore (.switch_to_user 0 4096) (oneCore.setMode 0 (.user 4096)) := .switch_to_user rfl rfl
  have hentry : RspStep (oneCore.setMode 0 (.user 4096)) (.entry 0) inSyscall := .entry rfl rfl
  have hfree : ∀ a, (∀ c next, a ≠ RspOp.switch c next) → ∀ s, SlotKept s a := by
    intro a ha s
    cases a with
    | switch c next => exact absurd rfl (ha c next)
    | _ => trivial
  exact ⟨oneCore, _, oneCore_booted,
    ((System.GuardedRun.nil _).snoc (hfree _ (by simp) _) hstart).snoc (hfree _ (by simp) _) hentry⟩

/-- The process forks and yields to the child, which moves its `rsp` and makes a system call of its own. -/
theorem child_in_syscall : ∃ s, System.Reachable rspSystem s ∧ s.gs28 0 = 8192 ∧ s.mode 0 = .syscall 4096 ∧
    RspStep s (.switch 0 (some 0)) { s with current := Function.update s.current 0 (some 0) } := by
  let s₁ := inSyscall.setMode 1 (.child 4096 4096)
  let s₂ : Cores := { s₁ with current := Function.update s₁.current 0 (some 1) }
  let s₃ := (s₂.setGs28 0 4096).setMode 1 (.user 4096)
  let s₄ := s₃.setMode 1 (.user 8192)
  let s₅ := (s₄.setGs28 0 8192).setMode 1 (.syscall 8192)
  have hcurrent : ∀ d, inSyscall.current d = if d = 0 then some 0 else none := fun _ => rfl
  have hfork : RspStep inSyscall (.fork 0 1) s₁ := .fork rfl rfl rfl
  have hswitch : RspStep s₁ (.switch 0 (some 1)) s₂ := by
    refine .switch (fun p hp => ?_) fun q hq => ?_
    · obtain rfl := Option.some.inj hp
      trivial
    · obtain rfl := Option.some.inj hq
      refine ⟨trivial, fun d hd => ?_⟩
      rw [show s₁.current d = _ from hcurrent d] at hd
      split_ifs at hd
      cases hd
  have hchild : RspStep s₂ (.child_entry 0) s₃ := .child_entry rfl rfl
  have huser : RspStep s₃ (.user 0 8192) s₄ := .user rfl rfl
  have hentry : RspStep s₄ (.entry 0) s₅ := .entry rfl rfl
  have hreach : System.Reachable rspSystem s₅ :=
    ((((inSyscall_kept.reachable.step hfork).step hswitch).step hchild).step huser).step hentry
  refine ⟨s₅, hreach, rfl, rfl, .switch (fun p hp => ?_) fun q hq => ?_⟩
  · obtain rfl := Option.some.inj hp
    trivial
  · obtain rfl := Option.some.inj hq
    refine ⟨trivial, fun d hd => ?_⟩
    have hd' : Function.update inSyscall.current 0 (some 1) d = some 0 := hd
    simp only [Function.update_apply, hcurrent] at hd'
    split_ifs at hd'
    cases hd'

theorem inSyscall_rsp_kept : (∃ t, RspStep inSyscall (.sysret 0) t ∧ ReturnsRsp inSyscall (.sysret 0) t) ∧
    ∃ t u, RspStep t (.sysret 0) u ∧ ¬ ReturnsRsp t (.sysret 0) u := by
  have hret : RspStep inSyscall (.sysret 0) _ := .sysret rfl rfl
  obtain ⟨s, hreach, hgs, hmode, hstep⟩ := child_in_syscall
  obtain ⟨u, hu⟩ := (user_rsp_kept s).2 0 0 _ hreach hstep fun hkept => by
    have heq := hkept 4096 hmode
    rw [hgs] at heq
    cases heq
  exact ⟨⟨_, hret, (user_rsp_kept inSyscall).1 _ _ inSyscall_kept hret⟩, _, u, hu⟩

/-- The parent returns with 8192, and entered with 4096. -/
theorem user_rsp_lost : ∃ s t, System.Reachable rspSystem s ∧ s.current 0 = some 0 ∧ s.mode 0 = .syscall 4096 ∧
    RspStep s (.sysret 0) t ∧ t.mode 0 = .user 8192 := by
  obtain ⟨s, hreach, hgs, hmode, hstep⟩ := child_in_syscall
  have hcurrent : Function.update s.current 0 (some 0) 0 = some 0 := Function.update_self ..
  refine ⟨_, _, hreach.step hstep, hcurrent, hmode, .sysret hcurrent hmode, ?_⟩
  rw [Cores.setMode_self]
  exact congrArg Mode.user hgs

end Kernel
