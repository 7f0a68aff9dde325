import Kernel.Process.Runs

/-!
# The life of a process

What `exit` and `waitpid` of any run have to do with each other.
-/

namespace Kernel

open Lib

section

variable {s t : ProcessState} {i j : Nat}

theorem ProcessInv.phase_step (hi : ProcessInv s) {a : ProcessOp} (h : ProcessStep s a t) (j : Nat) :
    (∀ rdi, t.phase j = .exited rdi → s.phase j = .exited rdi ∨ a = .exit j rdi) ∧
    (t.phase j = .reaped ↔ s.phase j = .reaped ∨ a.reaps j = true) ∧
    (a.reaps j = true → ∃ rdi, s.phase j = .exited rdi) := by
  rcases hi.step_cases h with ⟨-, hno, i, p, hp, hold, hphase⟩ | ⟨i, c, rfl, hu, hf⟩ | ⟨i, k, rfl, hf, rfl⟩ |
    ⟨i, rdi, rfl, hu, rfl⟩ | ⟨i, c, p, rfl, hw, hr⟩
  · rw [hno j, hphase, Function.update_apply]
    split_ifs with hji
    · subst hji
      rcases hp with rfl | ⟨c, q, rfl, -⟩ <;> rcases hold with h | ⟨d, r, h⟩ <;> rw [h] <;> simp
    · simp +contextual
  · rw [hf.phase, Function.update_apply, Function.update_apply]
    have hunborn : s.phase s.count = .unborn := by
      by_contra h
      exact absurd (hi.born _ h) (by omega)
    split_ifs with hjs hji
    · rw [hjs, hunborn]
      simp [ProcessOp.reaps]
    · rw [hji, hu]
      simp [ProcessOp.reaps]
    · simp +contextual [ProcessOp.reaps]
  · have hb := (hi.forking i k hf).1
    simp only [setPhase, Function.update_apply]
    split_ifs with hjk hji
    · rw [hjk, hb]
      simp [ProcessOp.reaps]
    · rw [hji, hf]
      simp [ProcessOp.reaps]
    · simp +contextual [ProcessOp.reaps]
  · simp only [setPhase, Function.update_apply]
    split_ifs with hji
    · subst hji
      rw [hu]
      simp [ProcessOp.reaps]
    · simp +contextual [ProcessOp.reaps]
  · obtain ⟨h0, hlt⟩ := hi.waiting i c p hw
    obtain ⟨-, rdi, hex, -⟩ := hi.reaped_exited h0 hlt hr.used hr.exited
    have hij : s.holder c ≠ i := fun e => by
      rw [e, hw] at hex
      cases hex
    rw [hr.state]
    simp only [setPhase, Function.update_apply, ProcessOp.reaps, decide_eq_true_eq]
    split_ifs with hji hjc
    · subst hji
      rw [hw]
      simp [hij]
    · subst hjc
      rw [hex]
      simp
    · simp +contextual [Ne.symm hjc]

theorem exited_history {s₀ : ProcessState} {l : List ProcessOp} (hb : ProcessBoot s₀) (hrun : processSystem.Run s₀ l s)
    {rdi : Nat} (hj : s.phase j = .exited rdi) : .exit j rdi ∈ l := by
  induction hrun generalizing rdi with
  | nil =>
    obtain ⟨u, -, -, hu, hunborn, -⟩ := hb
    rcases Nat.eq_zero_or_pos j with rfl | hpos
    · rw [hu] at hj
      cases hj
    · rw [hunborn j hpos] at hj
      cases hj
  | snoc hrun hstep ih =>
    have hi := processInv_of_reachable ⟨_, _, hb, hrun⟩
    rcases (hi.phase_step hstep j).1 rdi hj with h | rfl
    · exact List.mem_append_left _ (ih h)
    · simp

theorem reap_count {s₀ : ProcessState} {l : List ProcessOp} (hb : ProcessBoot s₀) (hrun : processSystem.Run s₀ l s)
    (j : Nat) : l.countP (ProcessOp.reaps j) = if s.phase j = .reaped then 1 else 0 := by
  induction hrun with
  | nil =>
    obtain ⟨u, -, -, hu, hunborn, -⟩ := hb
    rw [if_neg, List.countP_nil]
    rcases Nat.eq_zero_or_pos j with rfl | hpos
    · rw [hu]
      exact nofun
    · rw [hunborn j hpos]
      exact nofun
  | @snoc _ _ _ a hrun hstep ih =>
    have hi := processInv_of_reachable ⟨_, _, hb, hrun⟩
    obtain ⟨-, hiff, hnot⟩ := hi.phase_step hstep j
    rw [List.countP_append, ih, List.countP_singleton]
    simp only [hiff]
    by_cases hr : a.reaps j = true
    · obtain ⟨rdi, hex⟩ := hnot hr
      rw [hex, hr]
      simp
    · rw [Bool.not_eq_true] at hr
      simp [hr]

/-- **The life of a process.** No pid is held twice, a running process has its slot, `waitpid` gives what the
instance passed to `exit`, and gives it once. -/
theorem pid_life_cycle {s₀ : ProcessState} {l : List ProcessOp} (hb : processSystem.init s₀)
    (hrun : processSystem.Run s₀ l s) :
    (∀ i j, (s.phase i).held = true → (s.phase j).held = true → s.pid i = s.pid j → i = j) ∧
    (∀ i, (s.phase i).running = true →
      (s.table.processTable (s.pid i)).used = true ∧ (s.table.processTable (s.pid i)).exited = false) ∧
    (∀ i rdi t, ProcessStep s (.exit i rdi) t → (t.table.processTable (s.pid i)).exited = true ∧
      (t.table.processTable (s.pid i)).status = BitVec.ofNat 32 rdi) ∧
    (∀ i j c store t, ProcessStep s (.turn i j (.reaped c store)) t → ∃ statusPtr rdi,
      s.phase i = .waiting c statusPtr ∧ s.pid j = c ∧ s.phase j = .exited rdi ∧ .exit j rdi ∈ l ∧
      store = if statusPtr ≠ 0 then some ((BitVec.ofNat 32 rdi &&& 0xFF#32) <<< 8) else none) ∧
    ∀ j, l.countP (ProcessOp.reaps j) ≤ 1 := by
  have hi := processInv_of_reachable ⟨s₀, l, hb, hrun⟩
  refine ⟨fun i j => hi.pid_inj, fun i h => ?_, fun i rdi t h => ?_, fun i j c store t h => ?_, fun j => ?_⟩
  · have hs := hi.slot i (Phase.held_of_running h)
    exact ⟨hs.used, hs.running h⟩
  · cases h with
    | exit hu hrun =>
      have hs := hi.slot i (by rw [hu]; rfl)
      rw [exit_spec hi.ok hs.range.1 hs.range.2 rdi hs.used, Option.some.injEq, Prod.mk.injEq] at hrun
      obtain ⟨-, rfl⟩ := hrun
      have hown := Processes.set_same (s := s.table) (s.pid i)
        { s.table.processTable (s.pid i) with exited := true, status := BitVec.ofNat 32 rdi }
      exact ⟨congrArg ProcessEntry.exited hown, congrArg ProcessEntry.status hown⟩
  · cases h with
    | @reaped i p c d store u hw hturn =>
      rcases waitpid_turn_spec hi.ok hturn with ⟨hbad | hbad, -⟩ | ⟨hused, -, hexited, rfl, hres⟩
      · cases hbad
      · cases hbad
      · obtain ⟨rfl, rfl⟩ := Wait.reaped.inj hres
        obtain ⟨h0, hlt⟩ := hi.waiting _ _ _ hw
        obtain ⟨hp, rdi, hex, hstatus⟩ := hi.reaped_exited h0 hlt hused hexited
        exact ⟨p, rdi, hw, hp, hex, exited_history hb hrun hex, by rw [hstatus]⟩
  · rw [reap_count hb hrun j]
    split_ifs <;> decide

/-! ## Runs that go through -/

theorem spawn_run (hi : ProcessInv s) (hu : s.phase i = .user)
    (hfree : (s.table.processTable s.table.nextPid).used = false) :
    ∃ t, processSystem.Run s [.fork i s.table.nextPid, .launch i] t ∧ t.table.nextPid = succPid s.table.nextPid ∧
      t.table.processTable = (s.table.set s.table.nextPid ⟨true, s.pid i, false, 0⟩).processTable ∧
      t.count = s.count + 1 ∧ t.pid = Function.update s.pid s.count s.table.nextPid ∧
      t.phase = Function.update s.phase s.count .user ∧ t.parent = Function.update s.parent s.count (some i) ∧
      t.holder = Function.update s.holder s.table.nextPid s.count := by
  have hs := hi.slot i (by rw [hu]; rfl)
  obtain ⟨c, v, hrun, hok, hres, hfirst⟩ := fork_spec hi.ok hs.range.1
  obtain rfl := hfirst hfree
  rcases hres with ⟨hneg, -⟩ | ⟨h2, hlt, -, hnext, htable⟩
  · have := hi.ok.next
    omega
  · have hborn := hi.born i (by rw [hu]; exact nofun)
    have hstep := ProcessStep.fork hu hrun (by omega)
    have hrun : processSystem.Run s [.fork i s.table.nextPid] _ := System.Run.single hstep
    have hforking : (Function.update (Function.update s.phase i (.forking s.count)) s.count .building) i =
        .forking s.count := by
      rw [Function.update_of_ne (by omega), Function.update_self]
    refine ⟨_, hrun.snoc (.launch hforking), hnext, htable, rfl, rfl, ?_, rfl, rfl⟩
    · funext k
      simp only [setPhase, Function.update_apply]
      split_ifs with hks hki
      · rfl
      · rw [hki, hu]
      · rfl

theorem exit_run (hi : ProcessInv s) (hu : s.phase i = .user) (rdi : Nat) :
    processSystem.Run s [.exit i rdi]
      (setPhase { s with table := s.table.recordExit (s.pid i) rdi } i (.exited rdi)) := by
  have hs := hi.slot i (by rw [hu]; rfl)
  exact System.Run.single (.exit hu (exit_spec hi.ok hs.range.1 hs.range.2 rdi hs.used))

theorem reap_run (hi : ProcessInv s) (hu : s.phase i = .user) {c : Nat} (h0 : 0 < c) (hlt : c < maxProcesses)
    (hused : (s.table.processTable c).used = true) (hparent : (s.table.processTable c).parent = s.pid i)
    (hexited : (s.table.processTable c).exited = true) :
    ∃ u, processSystem.Run s [.waitpid i c 0 0 true] u ∧ u.holder = s.holder ∧ u.parent = s.parent ∧
      ProcessStep u (.turn i (u.holder c) (.reaped c none))
        (setPhase (setPhase { s with table := s.table.release c } (s.holder c) .reaped) i .user) := by
  have hs := hi.slot i (by rw [hu]; rfl)
  have hpid : int32 c = c := int32_eq (by simp only [maxProcesses] at hlt; omega)
  have hargs : (waitpid_args (s.pid i) c 0 0 true).run s.table = some (some (c : Int), s.table) := by
    rw [waitpid_args, Prog.bind_run (ensure_current_pid_run hs.range.1), if_neg (by have := hs.range.1; omega)]
    dsimp only
    rw [hpid, if_neg (by omega), if_neg (by simp), if_neg (by simp)]
    rfl
  have hturn : (waitpid_turn (s.pid i) c 0).run s.table = some (.reaped c none, s.table.release c) := by
    rw [waitpid_turn, Prog.bind_run (init_process_table_locked_run hi.ok.initialized), Prog.get_bind_run,
      if_neg (by simp [hused, hparent]), if_pos hexited]
    rfl
  refine ⟨_, System.Run.single (.waitpid hu hargs), rfl, rfl, ?_⟩
  have hwait : (setPhase { s with table := s.table } i (.waiting c 0)).phase i = .waiting c 0 := Function.update_self ..
  have hstep := ProcessStep.reaped hwait hturn
  have hphase : setPhase (setPhase { setPhase s i (.waiting c 0) with table := s.table.release c } (s.holder c) .reaped)
      i .user = setPhase (setPhase { s with table := s.table.release c } (s.holder c) .reaped) i .user := by
    simp only [setPhase, ProcessState.mk.injEq, true_and, and_true]
    funext k
    simp only [Function.update_apply]
    split_ifs <;> rfl
  rw [← hphase]
  exact hstep

theorem exit_reap_run (hi : ProcessInv s) (hu : s.phase i = .user) (hj : s.phase j = .user) (hij : i ≠ j)
    (hparent : (s.table.processTable (s.pid j)).parent = s.pid i) :
    ∃ u t, processSystem.Run s [.exit j 0, .waitpid i (s.pid j).toNat 0 0 true] u ∧
      ProcessStep u (.turn i j (.reaped (s.pid j) none)) t ∧ u.parent = s.parent ∧
      t.table.nextPid = s.table.nextPid ∧
      (∀ c, c ≠ s.pid j → t.table.processTable c = s.table.processTable c) ∧
      (t.table.processTable (s.pid j)).used = false ∧ t.count = s.count ∧ t.pid = s.pid ∧ t.parent = s.parent ∧
      t.holder = s.holder ∧ ∀ k, k ≠ j → t.phase k = s.phase k := by
  have hs := hi.slot j (by rw [hj]; rfl)
  have hrun₁ := exit_run hi hj 0
  generalize ht₁ : setPhase { s with table := s.table.recordExit (s.pid j) 0 } j (.exited 0) = t₁ at hrun₁
  have hi₁ := processInv_run hi hrun₁
  have hu₁ : t₁.phase i = .user := by
    rw [← ht₁]
    exact (Function.update_of_ne hij ..).trans hu
  have hentry₁ : t₁.table.processTable (s.pid j) =
      { s.table.processTable (s.pid j) with exited := true, status := BitVec.ofNat 32 0 } := by
    rw [← ht₁]
    exact Processes.set_same _ _
  have hrest₁ : t₁.pid = s.pid ∧ t₁.holder = s.holder ∧ t₁.parent = s.parent := by
    rw [← ht₁]
    exact ⟨rfl, rfl, rfl⟩
  obtain ⟨hpid₁, hholder₁, hparent₁⟩ := hrest₁
  obtain ⟨c, hc⟩ : ∃ c : Nat, s.pid j = c := ⟨(s.pid j).toNat, by have := hs.range.1; omega⟩
  have hrange := hs.range
  have hused := hs.used
  have hholder := hs.holder
  rw [hc] at hparent hentry₁ hrange hused hholder
  obtain ⟨u, hrun₂, hholder₂, hparent₂, hstep⟩ := reap_run hi₁ hu₁ (c := c) (by omega) (by omega)
    (by rw [hentry₁, hused]) (by rw [hentry₁, hpid₁, hparent]) (by rw [hentry₁])
  have hholderj : t₁.holder c = j := by rw [hholder₁, hholder]
  rw [hholder₂, hholderj] at hstep
  rw [hc]
  refine ⟨u, _, hrun₁.trans hrun₂, hstep, hparent₂.trans hparent₁, ?_, fun d hd => ?_, ?_, ?_, hpid₁,
    hparent₁, hholder₁, fun k hk => ?_⟩
  · show t₁.table.nextPid = _
    rw [← ht₁]
    rfl
  · refine (Processes.set_other _ hd).trans ?_
    rw [← ht₁]
    exact Processes.set_other _ (hc ▸ hd)
  · exact congrArg ProcessEntry.used (Processes.set_same _ _)
  · show t₁.count = _
    rw [← ht₁]
    rfl
  · by_cases hki : k = i
    · rw [hki, hu]
      exact Function.update_self ..
    · refine (Function.update_of_ne hki ..).trans ((Function.update_of_ne hk ..).trans ?_)
      show t₁.phase k = _
      rw [← ht₁]
      exact Function.update_of_ne hk ..

/-- A child is forked, exits and is waited for: its pid is free again, and the next one is tried next. -/
theorem spawn_reap_run (hi : ProcessInv s) (hu : s.phase i = .user)
    (hfree : (s.table.processTable s.table.nextPid).used = false) :
    ∃ t l, processSystem.Run s l t ∧ t.table.nextPid = succPid s.table.nextPid ∧
      (∀ c, c ≠ s.table.nextPid → t.table.processTable c = s.table.processTable c ∧ t.holder c = s.holder c) ∧
      (t.table.processTable s.table.nextPid).used = false ∧
      ∀ k < s.count, t.pid k = s.pid k ∧ t.phase k = s.phase k ∧ t.parent k = s.parent k := by
  have hborn := hi.born i (by rw [hu]; exact nofun)
  obtain ⟨t₁, hrun₁, hnext₁, htable₁, -, hpid₁, hphase₁, hparent₁, hholder₁⟩ := spawn_run hi hu hfree
  have hpidc : t₁.pid s.count = s.table.nextPid := by rw [hpid₁, Function.update_self]
  have hpidi : t₁.pid i = s.pid i := by rw [hpid₁, Function.update_of_ne (by omega)]
  obtain ⟨u, t, hrun₂, hstep, -, hnext, hother, hreaped, -, hpid, hparent, hholder, hphase⟩ :=
    exit_reap_run (processInv_run hi hrun₁) (i := i) (j := s.count)
      (by rw [hphase₁, Function.update_of_ne (by omega), hu]) (by rw [hphase₁, Function.update_self]) (by omega)
      (by rw [hpidc, htable₁, Processes.set_same, hpidi])
  rw [hpidc] at hother hreaped
  refine ⟨t, _, (hrun₁.trans hrun₂).snoc hstep, hnext.trans hnext₁, fun c hc => ⟨?_, ?_⟩, hreaped,
    fun k hk => ⟨?_, ?_, ?_⟩⟩
  · rw [hother c hc, htable₁, Processes.set_other _ hc]
  · rw [hholder, hholder₁, Function.update_of_ne hc]
  · rw [hpid, hpid₁, Function.update_of_ne (by omega)]
  · rw [hphase k (by omega), hphase₁, Function.update_of_ne (by omega)]
  · rw [hparent, hparent₁, Function.update_of_ne (by omega)]

theorem boot_run : ∃ s, ProcessBoot s ∧ s.table.nextPid = 2 ∧ s.pid 0 = 1 ∧
    s.table.processTable 1 = ⟨true, 0, false, 0⟩ ∧
    ∀ c : Int, 0 ≤ c → c < maxProcesses → c ≠ 1 → (s.table.processTable c).used = false := by
  obtain ⟨t, hrun, -, hnext, hone, hfree⟩ :=
    register_process_pid1_spec (s := ⟨fun _ => ⟨false, 0, false, 0⟩, 2, false⟩)
  let phase : Nat → Phase := fun i => if i = 0 then .user else .unborn
  refine ⟨⟨t, 1, fun _ => 1, phase, fun _ => none, fun _ => 0⟩,
    ⟨_, hrun, rfl, rfl, fun i hpos => if_neg (by omega), rfl, rfl⟩, hnext, rfl, hone, hfree⟩

/-- The first process makes a child, which exits, and waits for it. -/
def firstChild_ops : List ProcessOp := [.fork 0 2, .launch 0, .exit 1 0, .waitpid 0 2 0 0 true]

theorem firstChild_run {s₀ : ProcessState} (hb : ProcessBoot s₀) (hnext : s₀.table.nextPid = 2)
    (hfree : ∀ c : Int, 0 ≤ c → c < maxProcesses → c ≠ 1 → (s₀.table.processTable c).used = false) :
    ∃ s t, processSystem.Run s₀ firstChild_ops s ∧ ProcessStep s (.turn 0 1 (.reaped 2 none)) t := by
  have hi := hb.inv
  have hboot : s₀.phase 0 = .user ∧ s₀.count = 1 := by
    obtain ⟨-, -, hcount, hu, -⟩ := hb
    exact ⟨hu, hcount⟩
  obtain ⟨hu, hcount⟩ := hboot
  obtain ⟨t₁, hrun₁, -, htable₁, -, hpid₁, hphase₁, -, -⟩ := spawn_run hi hu
    (by rw [hnext]; exact hfree 2 (by decide) (by decide) (by decide))
  rw [hcount, hnext] at *
  have hpidc : t₁.pid 1 = 2 := by rw [hpid₁, Function.update_self]
  obtain ⟨u, t, hrun₂, hstep, -⟩ := exit_reap_run (processInv_run hi hrun₁) (i := 0) (j := 1)
    (by rw [hphase₁, Function.update_of_ne (by decide), hu]) (by rw [hphase₁, Function.update_self]) (by decide)
    (by rw [hpidc, htable₁, Processes.set_same, hpid₁, Function.update_of_ne (by decide)])
  rw [hpidc] at hrun₂ hstep
  exact ⟨u, t, hrun₁.trans hrun₂, hstep⟩

theorem firstChild_life_cycle : ∃ s₀ s t, processSystem.Run s₀ firstChild_ops s ∧
    ProcessStep s (.turn 0 1 (.reaped 2 none)) t ∧ (∃ rdi, s.phase 1 = .exited rdi ∧ .exit 1 rdi ∈ firstChild_ops) ∧
      ∀ j, (firstChild_ops ++ [ProcessOp.turn 0 1 (.reaped 2 none)]).countP (ProcessOp.reaps j) ≤ 1 := by
  obtain ⟨s₀, hb, hnext, -, -, hfree⟩ := boot_run
  obtain ⟨s, t, hrun, hstep⟩ := firstChild_run hb hnext hfree
  obtain ⟨-, -, -, hreaped, -⟩ := pid_life_cycle hb hrun
  obtain ⟨_, rdi, -, -, hphase, hexit, -⟩ := hreaped 0 1 2 none t hstep
  obtain ⟨-, -, -, -, honce⟩ := pid_life_cycle hb (hrun.snoc hstep)
  exact ⟨s₀, s, t, hrun, hstep, ⟨rdi, hphase, hexit⟩, honce⟩

end

end Kernel
