import Kernel.Thread.Resume

/-!
# New threads and resumed ones (`thread.cc`, `syscall.cc`)

The stacks that `make_thread` and `fork` prepare, and what every thread sees
when it resumes from `context_switch_` or starts.
-/

namespace Kernel.ContextSwitch

open Lib Lib.X86

variable {κ : Type} {s t : Threads κ} {p q : Quad}

/-! ## Prepared stacks -/

theorem foldl_update_of_ne {es : List (Nat × Quad)} {m : Mem} {lo a : Nat} (h : ∀ e ∈ es, a ≠ lo + 8 * e.1) :
    es.foldl (fun m e => Function.update m (lo + 8 * e.1) e.2) m a = m a := by
  induction es generalizing m with
  | nil => rfl
  | cons e es ih =>
    rw [List.foldl_cons, ih fun e' he' => h e' (List.mem_cons_of_mem _ he'),
      Function.update_of_ne (h e List.mem_cons_self)]

theorem foldl_update_of_mem {es : List (Nat × Quad)} {m : Mem} {lo i : Nat} {w : Quad} (hes : (es.map Prod.fst).Nodup)
    (h : (i, w) ∈ es) : es.foldl (fun m e => Function.update m (lo + 8 * e.1) e.2) m (lo + 8 * i) = w := by
  induction es generalizing m with
  | nil => cases h
  | cons e es ih =>
    rw [List.map_cons, List.nodup_cons] at hes
    rw [List.foldl_cons]
    rcases List.mem_cons.1 h with rfl | h
    · rw [foldl_update_of_ne, Function.update_self]
      intro e he heq
      have hi : i = e.1 := by omega
      exact hes.1 (List.mem_map.2 ⟨e, he, hi.symm⟩)
    · exact ih hes.2 h

theorem the_stack_stacked (m : Mem) (lo : Nat) (start cr3 : Quad) :
    Stacked ((the_stack start cr3).foldl (fun m e => Function.update m (lo + 8 * e.1) e.2) m)
      (lo + 8 * (STACK_QUADS - 10)) [cr3, 0, 0x200, 0, 0, 0, 0, 0, 0, start] := by
  have hes : ((the_stack start cr3).map Prod.fst).Nodup := by
    simp [the_stack, STACK_QUADS]
  have hread : ∀ j w a, (STACK_QUADS - j, w) ∈ the_stack start cr3 → a = lo + 8 * (STACK_QUADS - j) →
      (the_stack start cr3).foldl (fun m e => Function.update m (lo + 8 * e.1) e.2) m a = w := by
    rintro j w _ hmem rfl
    exact foldl_update_of_mem hes hmem
  refine ⟨hread 10 _ _ ?_ ?_, hread 9 _ _ ?_ ?_, hread 8 _ _ ?_ ?_, hread 7 _ _ ?_ ?_, hread 6 _ _ ?_ ?_,
    hread 5 _ _ ?_ ?_, hread 4 _ _ ?_ ?_, hread 3 _ _ ?_ ?_, hread 2 _ _ ?_ ?_, hread 1 _ _ ?_ ?_, trivial⟩
  all_goals first | (unfold STACK_QUADS; omega) | simp [the_stack]

section

variable {lo : Nat} {start cr3 : Quad}

theorem prepare_place (q : Quad) : (s.prepare p lo start cr3).place q = if q = p then .suspended else s.place q :=
  Function.update_apply ..

theorem prepare_stack (q : Quad) :
    (s.prepare p lo start cr3).stack q = if q = p then { lo := lo, hi := lo + 8 * STACK_QUADS } else s.stack q :=
  Function.update_apply ..

theorem prepare_mem {a : Nat} (ha : a ∉ (⟨lo, lo + 8 * STACK_QUADS⟩ : Stack)) (hs : a ≠ saved_rsp p) :
    (s.prepare p lo start cr3).mem a = s.mem a := by
  refine (Function.update_of_ne hs ..).trans (foldl_update_of_ne fun e he => ?_)
  rintro rfl
  have hlt : e.1 < STACK_QUADS := by
    simp only [the_stack, List.mem_cons, List.not_mem_nil, or_false] at he
    rcases he with rfl | rfl | rfl | rfl | rfl | rfl | rfl | rfl | rfl | rfl <;> simp [STACK_QUADS]
  refine ha (Stack.mem_iff.2 ⟨Nat.le_add_right .., ?_⟩)
  dsimp only
  omega

theorem prepare_alive (hq : (s.prepare p lo start cr3).Alive q) : q = p ∨ q ≠ p ∧ s.Alive q := by
  rw [Threads.Alive, prepare_place] at hq
  split_ifs at hq with hqp
  · exact Or.inl hqp
  · exact Or.inr ⟨hqp, hq⟩

variable (hf : Fresh s p { lo := lo, hi := lo + 8 * STACK_QUADS })

include hf

theorem Fresh.ne (hq : s.Alive q) : q ≠ p := by
  rintro rfl
  exact hq hf.absent

theorem Fresh.kept (hq : s.Alive q) : Kept s (s.prepare p lo start cr3) q := by
  have hne := hf.ne hq
  refine ⟨by rw [prepare_stack, if_neg hne], Function.update_of_ne hne .., fun a ha => ?_⟩
  rcases ha with ha | rfl
  · refine prepare_mem (hf.apart q a hq ha) ?_
    rintro rfl
    exact (hf.slot q hq).1 ha
  · exact prepare_mem (hf.slot q hq).2 fun heq => hne (saved_rsp_inj heq)

theorem Fresh.parked : Parked (s.prepare p lo start cr3) p := by
  have hsaved : (s.prepare p lo start cr3).mem (saved_rsp p) = BitVec.ofNat 64 (lo + 8 * (STACK_QUADS - 10)) :=
    Function.update_self ..
  have hfits : lo + 8 * STACK_QUADS < 2 ^ 64 := hf.fits
  have hle : 8 * (STACK_QUADS - 10) + 80 = 8 * STACK_QUADS := rfl
  have hnat : (BitVec.ofNat 64 (lo + 8 * (STACK_QUADS - 10))).toNat = lo + 8 * (STACK_QUADS - 10) := by
    rw [BitVec.toNat_ofNat, Nat.mod_eq_of_lt]
    omega
  refine ⟨[cr3, 0, 0x200, 0, 0, 0, 0, 0, 0, start], ?_, ?_⟩
  · rw [hsaved, hnat]
    refine ⟨(the_stack_stacked s.mem lo start cr3).congr fun b hb hlt => Function.update_of_ne ?_ .., ?_, ?_⟩
    · rintro rfl
      dsimp only [List.length_cons, List.length_nil] at hlt
      refine hf.own (Stack.mem_iff.2 ⟨by dsimp only; omega, by dsimp only; omega⟩)
    · rw [prepare_stack, if_pos rfl]
      exact Nat.le_add_right ..
    · rw [prepare_stack, if_pos rfl]
      dsimp only [List.length_cons, List.length_nil]
      omega
  · rw [show (s.prepare p lo start cr3).context p = .prepared start cr3 from Function.update_self ..]
    exact prepared_restores start cr3 _

theorem Fresh.layout (h : Layout s) : Layout (s.prepare p lo start cr3) := by
  refine ⟨fun q hq => ?_, fun q r a hq hr hqr ha => ?_, fun q r hq hr => ?_⟩
  · rw [prepare_stack]
    rcases prepare_alive hq with rfl | ⟨hqp, hq'⟩
    · rw [if_pos rfl]
      exact hf.fits
    · rw [if_neg hqp]
      exact h.fits q hq'
  · rw [prepare_stack] at ha ⊢
    rcases prepare_alive hq with rfl | ⟨hqp, hq'⟩ <;> rcases prepare_alive hr with rfl | ⟨hrp, hr'⟩
    · exact absurd rfl hqr
    · rw [if_pos rfl] at ha
      rw [if_neg hrp]
      exact fun har => hf.apart r a hr' har ha
    · rw [if_neg hqp] at ha
      rw [if_pos rfl]
      exact hf.apart q a hq' ha
    · rw [if_neg hqp] at ha
      rw [if_neg hrp]
      exact h.apart q r a hq' hr' hqr ha
  · rw [prepare_stack]
    rcases prepare_alive hq with rfl | ⟨hqp, hq'⟩ <;> rcases prepare_alive hr with rfl | ⟨hrp, hr'⟩
    · rw [if_pos rfl]
      exact hf.own
    · rw [if_neg hrp]
      exact (hf.slot r hr').1
    · rw [if_pos rfl]
      exact (hf.slot q hq').2
    · rw [if_neg hrp]
      exact h.slots q r hq' hr'

theorem SwitchInv.prepare (h : SwitchInv s) : SwitchInv (s.prepare p lo start cr3) := by
  have hsame : ∀ q x, x ≠ .suspended → x ≠ .absent → ((s.prepare p lo start cr3).place q = x ↔ s.place q = x) := by
    intro q x hs ha
    rw [prepare_place]
    split_ifs with hq
    · rw [hq, hf.absent]
      exact ⟨fun h => absurd h.symm hs, fun h => absurd h.symm ha⟩
    · rfl
  refine ⟨hf.layout h.layout, fun q hq => ?_, fun d => (h.cores d).aside ?_⟩
  · by_cases hqp : q = p
    · rw [hqp]
      exact hf.parked
    · rw [prepare_place, if_neg hqp] at hq
      exact (h.parked q hq).kept (hf.kept (alive_of_eq hq (by simp)))
  · refine ⟨rfl, rfl, rfl, rfl, fun q => hsame q _ (by simp) (by simp), fun q => hsame q _ (by simp) (by simp),
      fun q hq => hf.kept ?_⟩
    rcases hq with hq | hq <;> exact alive_of_eq hq (by simp)

end

/-! ## Runs -/

theorem SwitchInv.reap (h : SwitchInv s) (hp : s.place p = .suspended) :
    SwitchInv { s with place := Function.update s.place p .absent } := by
  have hsame : ∀ q x, x ≠ .suspended → x ≠ .absent → (Function.update s.place p .absent q = x ↔ s.place q = x) := by
    intro q x hs ha
    rw [Function.update_apply]
    split_ifs with hq
    · rw [hq, hp]
      exact ⟨fun h => absurd h.symm ha, fun h => absurd h.symm hs⟩
    · rfl
  refine ⟨h.layout.mono rfl fun q hq habs => hq ?_, fun q hq => ?_, fun d => ?_⟩
  · change Function.update s.place p .absent q = _
    rw [Function.update_apply, habs, ite_self]
  · change Function.update s.place p .absent q = _ at hq
    rw [Function.update_apply] at hq
    split_ifs at hq
    exact (h.parked q hq).kept (.of_mem rfl rfl rfl)
  · exact (h.cores d).aside ⟨rfl, rfl, rfl, rfl, fun q => hsame q _ (by simp) (by simp),
      fun q => hsame q _ (by simp) (by simp), fun _ _ => .of_mem rfl rfl rfl⟩

variable [DecidableEq κ]

theorem SwitchInv.step {a : SwitchOp κ} (h : SwitchInv s) (hs : SwitchStep s a t) : SwitchInv t := by
  cases hs with
  | work htodo hk hown => exact h.work htodo hk hown
  | call htodo hnext hroom hhi => exact h.call htodo hnext hroom hhi
  | exec htodo => exact h.exec htodo
  | irq htodo hif hown hlive => exact h.irq htodo hif hown hlive
  | make_thread hf => exact h.prepare hf
  | fork hf => exact h.prepare hf
  | reap hp => exact h.reap hp

omit [DecidableEq κ] in
theorem Booted.inv (h : Booted s) : SwitchInv s := by
  have hrun : ∀ p, s.Alive p → ∃ c, s.place p = .running c := by
    intro p hp
    obtain ⟨c, rfl⟩ := h.threads p hp
    exact ⟨c, h.running c⟩
  have hfree : ∀ p c, s.place p ≠ .claimed c := by
    intro p c hp
    obtain ⟨d, hd⟩ := hrun p (alive_of_eq hp (by simp))
    rw [hp] at hd
    cases hd
  refine ⟨h.layout, fun p hp => ?_, fun c => ⟨fun p hp => ?_, fun p hp => absurd hp (hfree p c),
    .work (h.idle c) (h.running c) fun p => hfree p c⟩⟩
  · obtain ⟨c, hc⟩ := hrun p (alive_of_eq hp (by simp))
    rw [hp] at hc
    cases hc
  · obtain ⟨d, rfl⟩ := h.threads p (alive_of_eq hp (by simp))
    rw [h.running d] at hp
    obtain rfl := Place.running.inj hp
    rfl

theorem switchInv_of_reachable (h : (switchSystem κ).Reachable s) : SwitchInv s :=
  System.Inductive.reachable ⟨fun _ => Booted.inv, fun _ _ _ => SwitchInv.step⟩ h

theorem execute_all {c : κ} {is js : List Instr} (h : (switchSystem κ).Reachable s) (htodo : s.todo c = is ++ js) :
    ∃ t, (switchSystem κ).Reachable t ∧ t.todo c = js ∧ t.context = s.context ∧ t.prev c = s.prev c ∧
      t.next c = s.next c := by
  induction is generalizing s with
  | nil => exact ⟨s, h, htodo, rfl, rfl, rfl⟩
  | cons i is ih =>
    obtain ⟨t, ht, hjs, hcontext, hprev, hnext⟩ := ih (h.step (.exec htodo)) (Function.update_self ..)
    exact ⟨t, ht, hjs, hcontext, hprev, hnext⟩

theorem SwitchInv.ret {c : κ} (h : SwitchInv s) (hret : s.todo c = [.ret]) :
    s.current c = s.next c ∧ Resumed (s.context (s.next c)) (s.prev c) ((s.execute c .ret []).core c) := by
  cases (h.cores c).phase with
  | work h₀ => simp [hret] at h₀
  | @save is _ _ _ _ h₀ =>
    have hlen := congrArg List.length (hret.symm.trans h₀)
    simp only [List.length_append, List.length_cons, List.length_nil] at hlen
    omega
  | stored h₀ => simp [hret] at h₀
  | based h₀ => simp [hret, restore] at h₀
  | restore his _ h₀ _ hcur hnext hst hrun hres =>
    obtain rfl := hret.symm.trans h₀
    obtain ⟨l, -, -, -, hrun'⟩ := stack_execute [] (h.layout.fits _ (alive_of_eq hnext (by simp)))
      (by simp [Instr.dest]) hst (by simpa [depth, Instr.pushes] using hst.low) hrun
    obtain ⟨hk, -⟩ := Prod.mk.inj (Option.some.inj hrun')
    rw [hk]
    exact ⟨hcur, hres⟩

/-- **Context switches.** At the end of `context_switch_` a core runs the thread that it was called for, with that
thread's context and the thread that ran before. -/
theorem context_switch_resumes (s t : Threads κ) (c : κ) (h : (switchSystem κ).Reachable s)
    (hs : SwitchStep s (.exec c) t) (hret : s.todo c = [.ret]) :
    t.todo c = [] ∧ t.current c = s.next c ∧ t.place (s.next c) = .running c ∧
      Resumed (s.context (s.next c)) (s.prev c) (t.core c) := by
  obtain ⟨hcur, hres⟩ := (switchInv_of_reachable h).ret hret
  cases hs with
  | exec htodo =>
    obtain ⟨rfl, rfl⟩ := List.cons.inj (htodo.symm.trans hret)
    refine ⟨Function.update_self .., ?_, ?_, hres⟩
    · simp only [Threads.current, Threads.execute, Function.update_self]
      exact (exec_fsbase (by simp) _).trans hcur
    · rw [← hcur]
      exact Function.update_self ..

/-- One core, whose thread has made another one and will switch to it. -/
def twoThreads : Threads Unit where
  core _ := {
    reg := fun r => match r with | .rsp => 0x9000 | .rdi => 0x2000 | _ => 0
    rip := 0
    rflags := .ofWord 0
    cr2 := 0
    cr3 := 0x3000
    fsbase := 0x1000
    gsbase := 0 }
  todo _ := []
  mem _ := 0
  place p := if p = 0x1000 then .running () else .absent
  stack _ := { lo := 0x8000, hi := 0x9000 }
  context _ := .prepared 0 0
  prev _ := 0
  next _ := 0

theorem twoThreads_alive {p : Quad} (hp : twoThreads.Alive p) : p = 0x1000 := by
  by_contra hne
  exact hp (if_neg hne)

theorem twoThreads_booted : Booted twoThreads := by
  refine ⟨⟨fun p _ => ?_, fun p q a hp hq hne => ?_, fun p q hp _ => ?_⟩, fun _ => rfl, fun _ => ?_,
    fun p hp => ⟨(), (twoThreads_alive hp).symm⟩⟩
  · simp [twoThreads]
  · exact absurd ((twoThreads_alive hp).trans (twoThreads_alive hq).symm) hne
  · rw [twoThreads_alive hp, Stack.mem_iff]
    simp [twoThreads, saved_rsp]
  · simp [twoThreads, Threads.current]

theorem twoThreads_fresh : Fresh twoThreads 0x2000 { lo := 0x10000, hi := 0x10000 + 8 * STACK_QUADS } := by
  refine ⟨by simp [twoThreads], by simp [STACK_QUADS], fun q a _ ha => ?_, fun q hq => ?_, ?_⟩
  · simp only [Stack.mem_iff, twoThreads] at ha ⊢
    omega
  · rw [twoThreads_alive hq]
    simp [twoThreads, saved_rsp, Stack.mem_iff]
  · simp [saved_rsp, Stack.mem_iff]

theorem new_thread_resumes : ∃ s t : Threads Unit, SwitchStep s (.exec ()) t ∧ t.current () = 0x2000 ∧
    Resumed (.prepared 0x4000 0x5000) 0x1000 (t.core ()) := by
  have hinit : (switchSystem Unit).Reachable twoThreads := ⟨_, [], twoThreads_booted, .nil _⟩
  have hmade : (switchSystem Unit).Reachable (twoThreads.make_thread 0x2000 0x10000 0x4000 0x5000) :=
    hinit.step (.make_thread twoThreads_fresh)
  have hstack : (twoThreads.make_thread 0x2000 0x10000 0x4000 0x5000).stack 0x1000 = { lo := 0x8000, hi := 0x9000 } :=
    (prepare_stack _).trans (if_neg (by simp))
  have hcall : (switchSystem Unit).Reachable
      ((twoThreads.make_thread 0x2000 0x10000 0x4000 0x5000).call () 0) :=
    hmade.step (.call rfl ((prepare_place _).trans (if_pos rfl))
    (by rw [show Threads.current _ () = 0x1000 from rfl, hstack]; decide)
    (by rw [show Threads.current _ () = 0x1000 from rfl, hstack]; decide))
  obtain ⟨t, ht, htodo, hcontext, hprev, hnext⟩ := execute_all hcall (c := ())
    (show _ = context_switch_.dropLast ++ [.ret] from rfl)
  have hstep : SwitchStep t (.exec ()) (t.execute () .ret []) := .exec htodo
  obtain ⟨-, hcur, -, hres⟩ := context_switch_resumes t _ () ht hstep htodo
  rw [hnext, hcontext, hprev] at hres
  rw [hnext] at hcur
  exact ⟨t, _, hstep, hcur, hres⟩

end Kernel.ContextSwitch
