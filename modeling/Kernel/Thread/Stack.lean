import Kernel.Thread.Owner

/-!
# Kernel stacks (`tss.rsp0`)

A system call starts on the stack that the core's `tss.rsp0` is the bottom of.
`post_switch` sets it for the thread that comes back, on the core it comes
back to.
-/

namespace Kernel.Thread

open Lib

variable {s u : Threads} {c : Nat} {o : Op}

/-- `post_switch` has set the core's `tss.rsp0`. -/
def Stage.settled : Stage → Prop
  | run | released | picked _ | adding _ => True
  | post _ | requeue _ => False

/-- Thread `n` has its stack. -/
def Threads.Stacked (s : Threads) (n : Nat) : Prop :=
  ∃ a, s.stack n = some a ∧ a ≠ 0 ∧ (s.tcb (.thread n)).the_stack = a ∧
    (s.tcb (.thread n)).stack_bottom = a + Threads.STACK_BYTES

structure StackOk (s : Threads) : Prop where
  made : ∀ n t, n ∈ s.cell (.creator t) → (s.tcb (.thread n)).entered = none ∧
    ((s.tcb (.thread n)).the_stack = 0 ∧ s.stack n = none ∨ s.Stacked n)
  live : ∀ n, s.Alive n → (∀ t, n ∉ s.cell (.creator t)) → (∀ t, s.reaping t ≠ .unstacked n) → s.Stacked n
  gone : ∀ n, ¬ s.Alive n ∨ (∃ t, s.reaping t = .unstacked n) → s.stack n = none
  apart : ∀ n m a b, s.stack n = some a → s.stack m = some b → n ≠ m →
    a + Threads.STACK_BYTES ≤ b ∨ b + Threads.STACK_BYTES ≤ a
  rsp0 : ∀ c n, s.current c = .thread n → (s.stage c).settled →
    (s.core c).rsp0 = (s.tcb (.thread n)).stack_bottom
  entered : ∀ n r, (s.tcb (.thread n)).entered = some r → r = (s.tcb (.thread n)).stack_bottom

theorem StackOk.congr (h : StackOk s) (hstack : u.stack = s.stack) (halive : ∀ n, u.Alive n ↔ s.Alive n)
    (hcreator : ∀ t, u.cell (.creator t) = s.cell (.creator t))
    (hreaping : ∀ t n, u.reaping t = .unstacked n ↔ s.reaping t = .unstacked n)
    (htcb : ∀ t, (u.tcb t).the_stack = (s.tcb t).the_stack ∧ (u.tcb t).stack_bottom = (s.tcb t).stack_bottom ∧
      (u.tcb t).entered = (s.tcb t).entered)
    (hrsp0 : ∀ c n, u.current c = .thread n → (u.stage c).settled →
      (u.core c).rsp0 = (s.tcb (.thread n)).stack_bottom) : StackOk u := by
  have hstacked : ∀ n, u.Stacked n ↔ s.Stacked n := fun n => by
    simp only [Threads.Stacked, hstack, (htcb _).1, (htcb _).2.1]
  constructor
  · intro n t hn
    rw [hcreator] at hn
    rw [(htcb _).2.2, (htcb _).1, hstack, hstacked]
    exact h.made n t hn
  · intro n hn hc hr
    rw [hstacked]
    exact h.live n ((halive n).mp hn) (fun t => hcreator t ▸ hc t) fun t ht => hr t ((hreaping t n).mpr ht)
  · intro n hn
    rw [hstack]
    refine h.gone n (hn.imp (fun hn => fun hs => hn ((halive n).mpr hs)) ?_)
    exact fun ⟨t, ht⟩ => ⟨t, (hreaping t n).mp ht⟩
  · rw [hstack]
    exact h.apart
  · intro c n hc hg
    rw [(htcb _).2.1]
    exact hrsp0 c n hc hg
  · intro n r
    rw [(htcb _).2.2, (htcb _).2.1]
    exact h.entered n r

@[grind =] theorem ready_rsp0 (n : Nat) : (s.ready n).tss_rsp0 c = s.tss_rsp0 c := rfl
@[grind =] theorem park_rsp0 (k n : Nat) : (s.park k n).tss_rsp0 c = s.tss_rsp0 c := rfl
@[grind =] theorem setReaper_rsp0 (l : List Nat) : (s.setReaper l).tss_rsp0 c = s.tss_rsp0 c := rfl

attribute [local grind =] Threads.making Threads.reaping Threads.current Threads.stage TCB.disable_preemption
  TCB.enable_preemption TCB.alloc Stage.settled

theorem StackOk.alloc (hok : ThreadsOk s) (h : StackOk s) {t : Tid} {n : Nat} {b : Bool} (hne : t ≠ .thread n)
    (hdead : s.alive n = false) (hnil : s.cell (.creator t) = []) : StackOk (s.alloc t n b) := by
  have htcb := fun w => Threads.alloc_tcb s n t w b hne
  have hnot : ¬ s.Alive n := by simp [Threads.Alive, hdead]
  have hother : ∀ w, w ≠ .thread n → ((s.alloc t n b).tcb w).the_stack = (s.tcb w).the_stack ∧
      ((s.alloc t n b).tcb w).stack_bottom = (s.tcb w).stack_bottom ∧
      ((s.alloc t n b).tcb w).entered = (s.tcb w).entered := fun w hw => by grind -linarith
  have hself : ((s.alloc t n b).tcb (.thread n)).the_stack = 0 ∧ ((s.alloc t n b).tcb (.thread n)).entered = none := by
    grind -linarith
  have hstacked : ∀ m, m ≠ n → ((s.alloc t n b).Stacked m ↔ s.Stacked m) := fun m hm => by
    obtain ⟨h1, h2, -⟩ := hother (.thread m) (by simpa using hm)
    simp only [Threads.Stacked, h1, h2]
    rfl
  have halive : ∀ {p m}, m ∈ s.cell p → m ≠ n := fun hm e => hnot (e ▸ hok.alive hm)
  constructor
  · intro m w hm
    rw [Threads.alloc_cell] at hm
    split_ifs at hm
    · obtain rfl := List.mem_singleton.mp hm
      exact ⟨hself.2, Or.inl ⟨hself.1, h.gone m (Or.inl hnot)⟩⟩
    · have hmn := halive hm
      obtain ⟨h1, h2, h3⟩ := hother (.thread m) (by simpa using hmn)
      rw [h1, h3, hstacked m hmn]
      exact h.made m w hm
  · intro m hm hc hr
    have hmn : m ≠ n := fun e => hc t (by simp [e])
    rw [hstacked m hmn]
    refine h.live m (((s.alloc_alive t n b m).mp hm).resolve_left hmn) (fun w hw => ?_) fun w hw => hr w ?_
    · have hu := hc w
      rw [Threads.alloc_cell] at hu
      split_ifs at hu with hwt
      · rw [hwt, hnil] at hw
        cases hw
      · exact hu hw
    · grind -linarith
  · intro m hm
    refine h.gone m (hm.imp (fun hm hs => hm ((s.alloc_alive t n b m).mpr (Or.inr hs))) ?_)
    rintro ⟨w, hw⟩
    exact ⟨w, by grind⟩
  · exact h.apart
  · intro d m hc hg
    have hmn : m ≠ n := halive (p := .running d) (Tid.mem_threads.mpr hc)
    rw [(hother (.thread m) (by simpa using hmn)).2.1]
    exact h.rsp0 d m hc hg
  · intro m r hr
    by_cases hmn : m = n
    · subst hmn
      rw [hself.2] at hr
      cases hr
    · obtain ⟨-, h2, h3⟩ := hother (.thread m) (by simpa using hmn)
      rw [h3] at hr
      rw [h2]
      exact h.entered m r hr

theorem StackOk.tss_rsp0 (hok : ThreadsOk s) (h : StackOk s) {n : Nat} (hcur : s.current c = .thread n) :
    s.tss_rsp0 c = (s.tcb (.thread n)).stack_bottom := by
  have hmem : n ∈ s.cell (.running c) := Tid.mem_threads.mpr hcur
  obtain ⟨a, -, ha, -, hbottom⟩ := h.live n (hok.alive hmem)
    (fun t ht => Place.noConfusion (hok.placed.apart _ _ n hmem ht))
    fun t ht => Place.noConfusion (hok.placed.apart _ _ n hmem (Threads.mem_reaping.mpr (Or.inr ht)))
  unfold Threads.tss_rsp0
  rw [hcur, if_pos]
  exact ⟨rfl, by rw [hbottom]; omega⟩

theorem StackOk.enter (hok : ThreadsOk s) (h : StackOk s) {n : Nat} {x : Option Nat} (hcur : s.current c = .thread n)
    (hx : ∀ r, x = some r → r = (s.tcb (.thread n)).stack_bottom) (hstack : u.stack = s.stack)
    (halive : u.alive = s.alive) (hcell : ∀ p, u.cell p = s.cell p)
    (htcb : ∀ w, u.tcb w = if w = .thread n then { s.tcb w with entered := x } else s.tcb w)
    (hrsp0 : ∀ d m, u.current d = .thread m → (u.stage d).settled →
      (u.core d).rsp0 = (s.tcb (.thread m)).stack_bottom) : StackOk u := by
  have hsame : ∀ w, (u.tcb w).the_stack = (s.tcb w).the_stack ∧ (u.tcb w).stack_bottom = (s.tcb w).stack_bottom ∧
      (u.tcb w).reaping = (s.tcb w).reaping := fun w => by grind -linarith
  have hstacked : ∀ m, u.Stacked m ↔ s.Stacked m := fun m => by
    simp only [Threads.Stacked, hstack, (hsame _).1, (hsame _).2.1]
  have hreaping : ∀ w, u.reaping w = s.reaping w := fun w => (hsame w).2.2
  have hrun : n ∈ s.cell (.running c) := Tid.mem_threads.mpr hcur
  constructor
  · intro m w hm
    rw [hcell] at hm
    have hmn : m ≠ n := fun e => Place.noConfusion (hok.placed.apart _ _ n (e ▸ hm) hrun)
    rw [hstacked, hstack, (hsame _).1, htcb, if_neg (by simpa using hmn)]
    exact h.made m w hm
  · intro m hm hc hr
    rw [hstacked]
    refine h.live m (by rwa [Threads.Alive, halive] at hm) (fun w => hcell _ ▸ hc w) fun w => hreaping w ▸ hr w
  · intro m hm
    rw [hstack]
    simp only [Threads.Alive, halive, hreaping] at hm
    exact h.gone m hm
  · rw [hstack]
    exact h.apart
  · intro d m hc hg
    rw [(hsame _).2.1]
    exact hrsp0 d m hc hg
  · intro m r hr
    rw [(hsame _).2.1]
    rw [htcb] at hr
    split_ifs at hr with hmn
    · obtain rfl := Tid.thread.inj hmn
      exact hx r hr
    · exact h.entered m r hr

theorem StackOk.make_stack (hok : ThreadsOk s) (h : StackOk s) {t : Tid} {n a : Nat} (hn : n ∈ s.cell (.creator t))
    (hfresh : s.FreshStack a) : StackOk (s.make_stack n a) := by
  have hother : ∀ m, m ≠ n → ((s.make_stack n a).Stacked m ↔ s.Stacked m) := fun m hm => by
    simp [Threads.Stacked, Threads.make_stack, hm]
  have hself : (s.make_stack n a).Stacked n := ⟨a, by simp [Threads.make_stack], hfresh.1, by simp, by simp⟩
  have hreaping : ∀ w, (s.make_stack n a).reaping w = s.reaping w := fun w => by grind -linarith
  have hentered : ∀ w, ((s.make_stack n a).tcb w).entered = (s.tcb w).entered := fun w => by grind -linarith
  have hplace : ∀ {p}, n ∈ s.cell p → p = .creator t := fun hp => hok.placed.apart _ _ n hp hn
  constructor
  · intro m w hm
    rw [Threads.make_stack_cell] at hm
    rw [hentered]
    by_cases hmn : m = n
    · subst hmn
      exact ⟨(h.made m w hm).1, Or.inr hself⟩
    · rw [hother m hmn]
      simpa [Threads.make_stack, hmn] using h.made m w hm
  · intro m hm hc hr
    have hmn : m ≠ n := fun e => hc t (by rwa [Threads.make_stack_cell, e])
    rw [hother m hmn]
    exact h.live m hm (fun w => by simpa using hc w) fun w => hreaping w ▸ hr w
  · intro m hm
    simp only [hreaping] at hm
    have hmn : m ≠ n := by
      rintro rfl
      rcases hm with hm | ⟨w, hw⟩
      · exact hm (hok.alive hn)
      · cases hplace (Threads.mem_reaping.mpr (Or.inr hw))
    simpa [Threads.make_stack, hmn] using h.gone m hm
  · intro m k b d hb hd hmk
    simp only [Threads.make_stack, Threads.setStack_stack] at hb hd
    split_ifs at hb hd with hm hk hk
    · exact absurd (hm.trans hk.symm) hmk
    · rw [← Option.some.inj hb]
      exact hfresh.2 k d hd
    · rw [← Option.some.inj hd]
      exact (hfresh.2 m b hb).symm
    · exact h.apart m k b d hb hd hmk
  · intro d m hc hg
    have hmn : m ≠ n := fun e => by cases hplace (p := .running d) (e ▸ Tid.mem_threads.mpr hc)
    rw [Threads.make_stack_tcb, if_neg (by simpa using hmn)]
    exact h.rsp0 d m hc hg
  · intro m r hr
    rw [hentered] at hr
    by_cases hmn : m = n
    · subst hmn
      rw [(h.made m t hn).1] at hr
      cases hr
    · rw [Threads.make_stack_tcb, if_neg (by simpa using hmn)]
      exact h.entered m r hr

theorem StackOk.publish (h : StackOk s) {t : Tid} {n : Nat} (hn : n ∈ s.cell (.creator t))
    (hne : t ≠ .thread n) (hnull : (s.tcb (.thread n)).the_stack ≠ 0) : StackOk (s.publish t n) := by
  have htcb := fun w => Threads.publish_tcb s n t w hne
  have hsame : ∀ w, ((s.publish t n).tcb w).the_stack = (s.tcb w).the_stack ∧
      ((s.publish t n).tcb w).stack_bottom = (s.tcb w).stack_bottom ∧
      ((s.publish t n).tcb w).entered = (s.tcb w).entered ∧
      ((s.publish t n).tcb w).reaping = (s.tcb w).reaping := fun w => by grind -linarith
  have hstacked : ∀ m, (s.publish t n).Stacked m ↔ s.Stacked m := fun m => by
    simp only [Threads.Stacked, (hsame _).1, (hsame _).2.1]
    rfl
  have hreaping : ∀ w, (s.publish t n).reaping w = s.reaping w := fun w => (hsame w).2.2.2
  constructor
  · intro m w hm
    rw [(hsame _).2.2.1, (hsame _).1, hstacked]
    rw [Threads.publish_cell, if_neg (c := Place.creator w = .ready) (by simp)] at hm
    split_ifs at hm with hw
    · cases hm
    · exact h.made m w hm
  · intro m hm hc hr
    rw [hstacked]
    by_cases hmn : m = n
    · subst hmn
      exact (h.made m t hn).2.resolve_left fun hz => hnull hz.1
    · refine h.live m hm (fun w hw => hc w ?_) fun w => hreaping w ▸ hr w
      have hwt : w ≠ t := by
        rintro rfl
        obtain ⟨b, hb⟩ := Threads.mem_creator.mp hw
        obtain ⟨b', hb'⟩ := Threads.mem_creator.mp hn
        rw [hb] at hb'
        exact hmn (Making.made.inj hb').1
      simpa [hwt] using hw
  · intro m hm
    simp only [hreaping] at hm
    exact h.gone m hm
  · exact h.apart
  · intro d m hc hg
    rw [(hsame _).2.1]
    exact h.rsp0 d m hc hg
  · intro m r hr
    rw [(hsame _).2.2.1] at hr
    rw [(hsame _).2.1]
    exact h.entered m r hr

theorem StackOk.free_stack (hok : ThreadsOk s) (h : StackOk s) {t : Tid} {n : Nat} (hm : s.reaping t = .taken n) :
    StackOk ((s.setStack n none).setReaping t (.unstacked n)) := by
  have hn : n ∈ s.cell (.reaping t) := Threads.mem_reaping.mpr (Or.inl hm)
  have hplace : ∀ {p}, n ∈ s.cell p → p = .reaping t := fun hp => hok.placed.apart _ _ n hp hn
  have hsame : ∀ w, (((s.setStack n none).setReaping t (.unstacked n)).tcb w).the_stack = (s.tcb w).the_stack ∧
      (((s.setStack n none).setReaping t (.unstacked n)).tcb w).stack_bottom = (s.tcb w).stack_bottom ∧
      (((s.setStack n none).setReaping t (.unstacked n)).tcb w).entered = (s.tcb w).entered :=
        fun w => by grind -linarith
  have hstack : ∀ m, ((s.setStack n none).setReaping t (.unstacked n)).stack m = if m = n then none else s.stack m :=
    fun m => rfl
  have hreaping : ∀ w m, ((s.setStack n none).setReaping t (.unstacked n)).reaping w = .unstacked m ↔
      w = t ∧ m = n ∨ s.reaping w = .unstacked m := fun w m => by grind -linarith
  have hother : ∀ m, m ≠ n → (((s.setStack n none).setReaping t (.unstacked n)).Stacked m ↔ s.Stacked m) :=
    fun m hmn => by
    simp only [Threads.Stacked, (hsame _).1, (hsame _).2.1, hstack, if_neg hmn]
  constructor
  · intro m w hm
    simp only [Threads.setReaping_cell, Threads.setStack_cell, reduceCtorEq, if_false] at hm
    have hmn : m ≠ n := fun e => by cases hplace (e ▸ hm)
    rw [(hsame _).2.2, (hsame _).1, hstack, if_neg hmn, hother m hmn]
    exact h.made m w hm
  · intro m ha hc hr
    have hmn : m ≠ n := fun e => hr t ((hreaping t m).mpr (Or.inl ⟨rfl, e⟩))
    rw [hother m hmn]
    exact h.live m ha (fun w => by simpa using hc w) fun w hw => hr w ((hreaping w m).mpr (Or.inr hw))
  · intro m hg
    rw [hstack]
    split_ifs with hmn
    · rfl
    · refine h.gone m (hg.imp id ?_)
      rintro ⟨w, hw⟩
      exact ⟨w, ((hreaping w m).mp hw).resolve_left fun e => hmn e.2⟩
  · intro m k b d hb hd
    rw [hstack] at hb hd
    split_ifs at hb hd
    exact h.apart m k b d hb hd
  · intro d m hc hg
    rw [(hsame _).2.1]
    exact h.rsp0 d m hc hg
  · intro m r
    rw [(hsame _).2.2, (hsame _).2.1]
    exact h.entered m r

theorem StackOk.dealloc (h : StackOk s) {t : Tid} {n : Nat} (hm : s.reaping t = .unstacked n) :
    StackOk ((s.setAlive n false).setReaping t .freed) := by
  have hsame : ∀ w, (((s.setAlive n false).setReaping t .freed).tcb w).the_stack = (s.tcb w).the_stack ∧
      (((s.setAlive n false).setReaping t .freed).tcb w).stack_bottom = (s.tcb w).stack_bottom ∧
      (((s.setAlive n false).setReaping t .freed).tcb w).entered = (s.tcb w).entered := fun w => by grind -linarith
  have hreaping : ∀ w m, ((s.setAlive n false).setReaping t .freed).reaping w = .unstacked m ↔
      w ≠ t ∧ s.reaping w = .unstacked m := fun w m => by grind -linarith
  have halive : ∀ m, ((s.setAlive n false).setReaping t .freed).Alive m ↔ m ≠ n ∧ s.Alive m := s.dealloc_alive n
  have hstacked : ∀ m, ((s.setAlive n false).setReaping t .freed).Stacked m ↔ s.Stacked m := fun m => by
    simp only [Threads.Stacked, (hsame _).1, (hsame _).2.1]
    rfl
  constructor
  · intro m w hc
    simp only [Threads.setReaping_cell, Threads.setAlive_cell, reduceCtorEq, if_false] at hc
    rw [(hsame _).2.2, (hsame _).1, hstacked]
    exact h.made m w hc
  · intro m ha hc hr
    rw [hstacked]
    rw [halive] at ha
    refine h.live m ha.2 (fun w => by simpa using hc w) fun w hw => hr w ((hreaping w m).mpr ⟨?_, hw⟩)
    rintro rfl
    rw [hm] at hw
    exact ha.1 (Reaping.unstacked.inj hw).symm
  · intro m hg
    rw [halive] at hg
    rcases hg with hg | ⟨w, hw⟩
    · by_cases hmn : m = n
      · exact h.gone m (Or.inr ⟨t, hmn ▸ hm⟩)
      · exact h.gone m (Or.inl fun ha => hg ⟨hmn, ha⟩)
    · exact h.gone m (Or.inr ⟨w, ((hreaping w m).mp hw).2⟩)
  · exact h.apart
  · intro d m hc hg
    rw [(hsame _).2.1]
    exact h.rsp0 d m hc hg
  · intro m r
    rw [(hsame _).2.2, (hsame _).2.1]
    exact h.entered m r

theorem StackOk.setMaking (h : StackOk s) {t : Tid} {m : Making} {k : Nat} (hm : m.threads = (s.making t).threads) :
    StackOk ((s.setMaking t m).setActive k) := by
  have hrsp0 := h.rsp0
  refine h.congr rfl (fun n => Iff.rfl) (fun w => ?_) (fun w n => by grind -linarith)
    (fun w => by grind -linarith) fun d n => by grind -linarith
  simp only [Threads.setActive_cell, Threads.setMaking_cell, Place.creator.injEq]
  split_ifs with hw
  · rw [hw, hm]
    rfl
  · rfl

theorem StackOk.step (hok : ThreadsOk s) (h : StackOk s) (hs : ThreadStep s (c, o) u) : StackOk u := by
  have hrsp0 := h.rsp0
  have htss := fun d n => h.tss_rsp0 (c := d) (n := n) hok
  cases hs with
  | switch hg =>
    refine h.congr rfl (fun n => Iff.rfl) (fun t => by simp) (fun t n => ?_) (fun t => ?_) fun d n => ?_
    · simp only [Threads.context_switch, Threads.reaping, Threads.modCore_tcb, Threads.modTcb_tcb]
      grind -linarith
    · simp only [Threads.context_switch, Threads.modCore_tcb, Threads.modTcb_tcb]
      grind -linarith
    · grind -linarith
  | make_thread hcl => exact h.setMaking (by simp [hcl.making, Making.threads])
  | fork_count hr hm => exact h.setMaking (by simp [hm, Making.threads])
  | make_alloc hr hm hre hdead =>
    exact h.alloc hok (hok.creator_ne hr.current (Or.inr hdead)) hdead (by simp [Threads.cell, hm, Making.threads])
  | fork_alloc hcl hdead =>
    exact h.alloc hok (hok.creator_ne hcl.current (Or.inr hdead)) hdead
      (by simp [Threads.cell, hcl.making, Making.threads])
  | make_stack hr hm hnull hfresh => exact h.make_stack hok (Threads.mem_creator.mpr ⟨_, hm⟩) hfresh
  | publish hr hm hnull =>
    have hn := Threads.mem_creator.mpr ⟨_, hm⟩
    exact h.publish hn (hok.creator_ne hr.current (Or.inl hn)) hnull
  | free_stack hr hm => exact h.free_stack hok hm
  | dealloc hr hm => exact h.dealloc hm
  | @syscall c n hcur hu =>
    have hrun := (hok.core c).user hu
    refine h.enter (x := some (s.core c).rsp0) hok hcur ?_ rfl rfl (by simp) (by simp) fun d m => by grind -linarith
    intro r hr
    rw [← Option.some.inj hr]
    exact h.rsp0 c n hcur (by rw [show s.stage c = .run from hrun.1]; trivial)
  | @sysret c n hcl =>
    refine h.enter (x := none) hok hcl.current (fun r hr => by cases hr) rfl rfl (by simp) (by simp) fun d m => ?_
    grind -linarith
  | @fork_return c n hcl =>
    have hcur := hcl.current
    refine h.enter (x := none) hok hcur (fun r hr => by cases hr) rfl rfl (by simp) (by simp) fun d m => ?_
    grind -linarith
  | _ =>
    refine h.congr rfl (fun n => Iff.rfl) (fun t => by simp) (fun t n => by grind -linarith)
      (fun t => by grind -linarith) fun d n => ?_
    grind -linarith [Threads.Runs, Threads.Clear]

theorem stackOk_booted (h : Booted s) : StackOk s := by
  have hnone := fun n => (h.alive n).2
  have hdead : ∀ n, ¬ s.Alive n := fun n hn => by
    rw [Threads.Alive, (h.alive n).1] at hn
    cases hn
  constructor
  · intro n t hn
    obtain ⟨b, hb⟩ := Threads.mem_creator.mp hn
    exact Making.noConfusion ((h.tcb t).2.1.symm.trans hb)
  · exact fun n hn => absurd hn (hdead n)
  · exact fun n _ => hnone n
  · intro n m a b ha
    rw [hnone n] at ha
    cases ha
  · intro c n hc
    rw [Threads.current, h.core c] at hc
    cases hc
  · intro n r hr
    rw [(h.tcb _).2.2.2] at hr
    cases hr

theorem stackOk_reachable (h : threadSystem.Reachable s) : StackOk s := by
  have hinv : System.Inductive threadSystem fun s => ThreadsOk s ∧ StackOk s :=
    ⟨fun s h => ⟨threadsOk_booted h, stackOk_booted h⟩, fun s a u h hs => ⟨h.1.step hs, h.2.step h.1 hs⟩⟩
  exact (hinv.reachable h).2

/-- Thread `n`, which is not being reaped, is in a system call that started at the bottom `r` of a stack. -/
structure Threads.InCall (s : Threads) (n r : Nat) : Prop where
  alive : s.Alive n
  reaping : ∀ t, n ∉ s.cell (.reaping t)
  entered : (s.tcb (.thread n)).entered = some r

theorem StackOk.in_call (h : StackOk s) {n r : Nat} (hc : s.InCall n r) :
    r = (s.tcb (.thread n)).stack_bottom ∧ ∃ a, s.stack n = some a ∧ r = a + Threads.STACK_BYTES := by
  have hr := h.entered n r hc.entered
  have hmade : ∀ t, n ∉ s.cell (.creator t) := fun t ht => by
    have hnone := (h.made n t ht).1
    rw [hc.entered] at hnone
    cases hnone
  obtain ⟨a, ha, -, -, hbottom⟩ := h.live n hc.alive hmade fun t ht =>
    hc.reaping t (Threads.mem_reaping.mpr (Or.inr ht))
  exact ⟨hr, a, ha, hr.trans hbottom⟩

/-- Whoever runs in user mode enters the kernel on its own stack, and no two threads are in it on one stack. -/
theorem own_kernel_stack (h : threadSystem.Reachable s) :
    (∀ c, (s.core c).user = true → ∃ n, s.current c = .thread n ∧ s.Stacked n ∧
      (s.core c).rsp0 = (s.tcb (.thread n)).stack_bottom) ∧
    (∀ n r, s.InCall n r → r = (s.tcb (.thread n)).stack_bottom) ∧
    ∀ n m r q, n ≠ m → s.InCall n r → s.InCall m q → r + Threads.STACK_BYTES ≤ q ∨ q + Threads.STACK_BYTES ≤ r := by
  have hok := threadsOk_inductive.reachable h
  have hstack := stackOk_reachable h
  refine ⟨fun c hu => ?_, fun n r hc => (hstack.in_call hc).1, fun n m r q hne hn hm => ?_⟩
  · obtain ⟨hg, hidle, -⟩ := (hok.core c).user hu
    cases hcur : (s.core c).current with
    | idle d => exact absurd (hcur.trans (congrArg Tid.idle ((hok.core c).own d hcur))) hidle
    | thread n =>
      have hrun : n ∈ s.cell (.running c) := Tid.mem_threads.mpr hcur
      refine ⟨n, hcur, hstack.live n (hok.alive hrun) (fun t ht => ?_) fun t ht => ?_, hstack.rsp0 c n hcur ?_⟩
      · exact Place.noConfusion (hok.placed.apart _ _ n hrun ht)
      · exact Place.noConfusion (hok.placed.apart _ _ n hrun (Threads.mem_reaping.mpr (Or.inr ht)))
      · rw [show s.stage c = .run from hg]
        trivial
  · obtain ⟨-, a, ha, rfl⟩ := hstack.in_call hn
    obtain ⟨-, b, hb, rfl⟩ := hstack.in_call hm
    have hapart := hstack.apart n m a b ha hb hne
    omega

/-- Thread 0 of `oneRuns` goes to user mode and calls the kernel. -/
def oneCall : Threads := (oneRuns.sysret 0 0 (oneRuns.core 0).rsp0).syscall 0 0

theorem oneCall_stack : oneCall.InCall 0 (1 + Threads.STACK_BYTES) ∧
    1 + Threads.STACK_BYTES = (oneCall.tcb (.thread 0)).stack_bottom := by
  have h := reachable_step oneRuns_reachable (.sysret (c := 0) (n := 0) ⟨⟨rfl, rfl, rfl, rfl⟩, rfl, rfl⟩)
  have h := reachable_step h (.syscall (c := 0) (n := 0) rfl rfl)
  have hplaced := (threadsOk_inductive.reachable h).placed
  have hrun : 0 ∈ oneCall.cell (.running 0) := Tid.mem_threads.mpr rfl
  have hcall : oneCall.InCall 0 (1 + Threads.STACK_BYTES) :=
    ⟨rfl, fun t ht => Place.noConfusion (hplaced.apart _ _ 0 hrun ht), rfl⟩
  exact ⟨hcall, (own_kernel_stack h).2.1 0 _ hcall⟩

end Kernel.Thread
