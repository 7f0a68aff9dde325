import Kernel.Process.Authority

/-!
# Slots that can be given back

A slot comes free when its process has exited and the parent waits for it. No
process takes over the children of another.
-/

namespace Kernel

open Lib

/-- The instance whose `fork` claimed slot `c` runs, and the slot names it. -/
def Reapable (s : ProcessState) (c : Int) : Prop :=
  ∃ i, s.parent (s.holder c) = some i ∧ (s.phase i).running = true ∧ (s.table.processTable c).parent = s.pid i

/-- Every slot in use, other than that of the first process, can still come free. -/
def SlotsReclaimable (s : ProcessState) : Prop :=
  ∀ c : Int, 0 < c → c < maxProcesses → c ≠ 1 → (s.table.processTable c).used = true →
    (s.phase (s.holder c)).running = true ∨ (∃ rdi, s.phase (s.holder c) = .exited rdi) ∧ Reapable s c

/-- A process exits before its parent does, and after it has waited for its children that did. -/
def ExitsInOrder (s : ProcessState) : ProcessOp → Prop
  | .exit i _ => (i ≠ 0 → ∃ p, s.parent i = some p ∧ (s.phase p).running = true) ∧
    ∀ j rdi, s.phase j = .exited rdi → s.parent j ≠ some i
  | _ => True

/-- The slot of a forked instance names the one that forked it. -/
structure SlotsNamed (s : ProcessState) : Prop where
  first : s.pid 0 = 1 ∧ s.parent 0 = none ∧ 0 < s.count
  slot : ∀ j, j ≠ 0 → (s.phase j).held = true → 2 ≤ s.pid j ∧
    ∃ i < j, s.parent j = some i ∧ (s.table.processTable (s.pid j)).parent = s.pid i

/-- The parent of an exited instance runs. -/
def ParentsRun (s : ProcessState) : Prop :=
  ∀ j rdi, j ≠ 0 → s.phase j = .exited rdi → ∃ i, s.parent j = some i ∧ (s.phase i).running = true

section

variable {s t : ProcessState} {i j : Nat}

theorem ProcessBoot.slotsNamed (hb : ProcessBoot s) : SlotsNamed s := by
  obtain ⟨u, hrun, hcount, -, hunborn, -, hparent⟩ := hb
  obtain ⟨v, hrun', -⟩ := register_process_pid1_spec (s := u)
  rw [hrun', Option.some.injEq, Prod.mk.injEq] at hrun
  refine ⟨⟨hrun.1.symm, hparent, by omega⟩, fun j hj hheld => ?_⟩
  rw [hunborn j (by omega)] at hheld
  cases hheld

theorem ProcessInv.held_lt (hi : ProcessInv s) (h : (s.phase j).held = true) : j < s.count :=
  hi.born j fun e => by
    rw [e] at h
    cases h

/-! ## What a step leaves of an instance -/

theorem Processes.set_parent (p : Processes) {c : Int} {e : ProcessEntry} (he : e.parent = (p.processTable c).parent)
    (d : Int) : ((p.set c e).processTable d).parent = (p.processTable d).parent := by
  by_cases hd : d = c
  · rw [hd, Processes.set_same, he]
  · rw [Processes.set_other e hd]

theorem Processes.recordExit_parent (p : Processes) (c : Int) (rdi : Nat) (d : Int) :
    ((p.recordExit c rdi).processTable d).parent = (p.processTable d).parent := by
  refine p.set_parent ?_ d
  rfl

theorem Processes.release_parent (p : Processes) (c d : Int) :
    ((p.release c).processTable d).parent = (p.processTable d).parent := by
  refine p.set_parent ?_ d
  rfl

structure Kept (s t : ProcessState) (a : ProcessOp) (j : Nat) : Prop where
  pid : t.pid j = s.pid j
  parent : t.parent j = s.parent j
  held : (t.phase j).held = true → (s.phase j).held = true
  named : (t.phase j).held = true →
    (t.table.processTable (s.pid j)).parent = (s.table.processTable (s.pid j)).parent
  running : (s.phase j).running = true → (t.phase j).running = true ∨ ∃ rdi, a = .exit j rdi

theorem ProcessInv.phase_kept (hi : ProcessInv s) {a : ProcessOp} (h : ProcessStep s a t) (hj : j < s.count) :
    t.phase j = s.phase j ∨ (s.phase j).held = true ∧ (t.phase j).running = true ∨
      (s.phase j).held = true ∧ (∃ rdi, a = .exit j rdi) ∨ (t.phase j).held = false ∧ (s.phase j).running = false := by
  rcases hi.step_cases h with ⟨-, -, i, p, hp, hold, hphase⟩ | ⟨i, c, rfl, hu, hf⟩ | ⟨i, k, rfl, hf, rfl⟩ |
    ⟨i, rdi, rfl, hu, rfl⟩ | ⟨i, c, p, rfl, hw, hr⟩
  · rw [hphase, Function.update_apply]
    split_ifs with hji
    · subst hji
      refine Or.inr (Or.inl ⟨?_, by rcases hp with rfl | ⟨c, q, rfl, -⟩ <;> rfl⟩)
      rcases hold with h | ⟨c, q, h⟩ <;> rw [h] <;> rfl
    · exact Or.inl rfl
  · rw [hf.phase, Function.update_of_ne (by omega), Function.update_apply]
    split_ifs with hji
    · exact Or.inr (Or.inl ⟨by rw [hji, hu]; rfl, rfl⟩)
    · exact Or.inl rfl
  · simp only [setPhase, Function.update_apply]
    split_ifs with hjk hji
    · exact Or.inr (Or.inl ⟨by rw [hjk, (hi.forking i k hf).1]; rfl, rfl⟩)
    · exact Or.inr (Or.inl ⟨by rw [hji, hf]; rfl, rfl⟩)
    · exact Or.inl rfl
  · by_cases hji : j = i
    · subst hji
      exact Or.inr (Or.inr (Or.inl ⟨by rw [hu]; rfl, rdi, rfl⟩))
    · exact Or.inl (Function.update_of_ne hji ..)
  · obtain ⟨h0, hlt⟩ := hi.waiting i c p hw
    obtain ⟨-, rdi, hex, -⟩ := hi.reaped_exited h0 hlt hr.used hr.exited
    rw [hr.state]
    simp only [setPhase, Function.update_apply]
    split_ifs with hji hjc
    · exact Or.inr (Or.inl ⟨by rw [hji, hw]; rfl, rfl⟩)
    · exact Or.inr (Or.inr (Or.inr ⟨rfl, by rw [hjc, hex]; rfl⟩))
    · exact Or.inl rfl

theorem ProcessInv.kept (hi : ProcessInv s) {a : ProcessOp} (h : ProcessStep s a t) (hj : j < s.count) :
    Kept s t a j := by
  have hphase := hi.phase_kept h hj
  have hheld : (t.phase j).held = true → (s.phase j).held = true := by
    intro ht
    rcases hphase with h | h | h | h
    · rwa [← h]
    · exact h.1
    · exact h.1
    · exact absurd ht (ne_true_of_eq_false h.1)
  have hrunning : (s.phase j).running = true → (t.phase j).running = true ∨ ∃ rdi, a = .exit j rdi := by
    intro hs
    rcases hphase with h | h | h | h
    · exact Or.inl (by rwa [h])
    · exact Or.inl h.2
    · exact Or.inr h.2
    · exact absurd hs (ne_true_of_eq_false h.2)
  rcases hi.step_cases h with ⟨hs, -⟩ | ⟨i, c, -, -, hf⟩ | ⟨i, k, -, -, rfl⟩ | ⟨i, rdi, -, -, rfl⟩ | ⟨i, c, p, -, -, hr⟩
  · exact ⟨by rw [hs.pid], by rw [hs.parent], hheld, fun _ => by rw [hs.entries], hrunning⟩
  · refine ⟨by rw [hf.pid, Function.update_of_ne (by omega)], by rw [hf.parent, Function.update_of_ne (by omega)],
      hheld, fun ht => ?_, hrunning⟩
    have hne : s.pid j ≠ c := by
      rintro rfl
      have hused := (hi.slot j (hheld ht)).used
      rw [hf.free] at hused
      cases hused
    rw [hf.entries, Processes.set_other _ hne]
  · exact ⟨rfl, rfl, hheld, fun _ => rfl, hrunning⟩
  · exact ⟨rfl, rfl, hheld, fun _ => s.table.recordExit_parent (s.pid i) rdi _, hrunning⟩
  · refine ⟨by rw [hr.state]; rfl, by rw [hr.state]; rfl, hheld, fun _ => ?_, hrunning⟩
    rw [hr.state]
    exact s.table.release_parent c _

theorem ProcessInv.new_child (hi : ProcessInv s) {a : ProcessOp} (h : ProcessStep s a t) (hj : s.count ≤ j)
    (hheld : (t.phase j).held = true) :
    2 ≤ t.pid j ∧ ∃ i < s.count, t.parent j = some i ∧ (t.table.processTable (t.pid j)).parent = s.pid i := by
  have hunborn : s.phase j = .unborn := by
    by_contra hne
    have := hi.born j hne
    omega
  have hold : ∀ k, (s.phase k).held = true → k ≠ j := by
    rintro k hk rfl
    rw [hunborn] at hk
    cases hk
  rcases hi.step_cases h with ⟨-, -, i, p, -, hold', hphase⟩ | ⟨i, c, rfl, hu, hf⟩ | ⟨i, k, rfl, hf, rfl⟩ |
    ⟨i, rdi, rfl, hu, rfl⟩ | ⟨i, c, p, rfl, hw, hr⟩
  · have hne := hold i (by rcases hold' with h | ⟨c, q, h⟩ <;> rw [h] <;> rfl)
    rw [hphase, Function.update_of_ne hne.symm, hunborn] at hheld
    cases hheld
  · have hcount : j = s.count := by
      by_contra hne
      rw [hf.phase, Function.update_of_ne hne, Function.update_of_ne (hold i (by rw [hu]; rfl)).symm, hunborn] at hheld
      cases hheld
    subst hcount
    refine ⟨by rw [hf.pid, Function.update_self]; exact hf.range.1, i, hi.held_lt (by rw [hu]; rfl), ?_, ?_⟩
    · rw [hf.parent, Function.update_self]
    · rw [hf.pid, Function.update_self, hf.entries, Processes.set_same]
  · have hnei := hold i (by rw [hf]; rfl)
    have hnek := hold k (by rw [(hi.forking i k hf).1]; rfl)
    simp only [setPhase, Function.update_of_ne hnek.symm, Function.update_of_ne hnei.symm, hunborn] at hheld
    cases hheld
  · have hne := hold i (by rw [hu]; rfl)
    simp only [setPhase, Function.update_of_ne hne.symm, hunborn] at hheld
    cases hheld
  · obtain ⟨h0, hlt⟩ := hi.waiting i c p hw
    obtain ⟨-, rdi, hex, -⟩ := hi.reaped_exited h0 hlt hr.used hr.exited
    have hnei := hold i (by rw [hw]; rfl)
    have hnec := hold (s.holder c) (by rw [hex]; rfl)
    rw [hr.state] at hheld
    simp only [setPhase, Function.update_of_ne hnei.symm, Function.update_of_ne hnec.symm, hunborn] at hheld
    cases hheld

/-! ## Parents -/

theorem SlotsNamed.step (hf : SlotsNamed s) (hi : ProcessInv s) {a : ProcessOp} (h : ProcessStep s a t) :
    SlotsNamed t := by
  obtain ⟨hone, hnone, hpos⟩ := hf.first
  have hkept := fun k hk => hi.kept h (j := k) hk
  have hcount : s.count ≤ t.count := by
    rcases hi.step_cases h with ⟨hs, -⟩ | ⟨i, c, -, -, hfork⟩ | ⟨i, k, -, -, rfl⟩ | ⟨i, rdi, -, -, rfl⟩ |
      ⟨i, c, p, -, -, hr⟩
    · exact Nat.le_of_eq hs.count.symm
    · have := hfork.count
      omega
    · exact Nat.le_refl _
    · exact Nat.le_refl _
    · rw [hr.state]
      exact Nat.le_refl _
  refine ⟨⟨(hkept 0 hpos).pid.trans hone, (hkept 0 hpos).parent.trans hnone, by omega⟩, fun j hj hheld => ?_⟩
  rcases Nat.lt_or_ge j s.count with hlt | hge
  · have hk := hkept j hlt
    obtain ⟨h2, i, hij, hparent, hslot⟩ := hf.slot j hj (hk.held hheld)
    rw [hk.pid, hk.parent, hk.named hheld]
    exact ⟨h2, i, hij, hparent, hslot.trans (hkept i (by omega)).pid.symm⟩
  · obtain ⟨h2, i, hilt, hparent, hslot⟩ := hi.new_child h hge hheld
    exact ⟨h2, i, by omega, hparent, hslot.trans (hkept i hilt).pid.symm⟩

theorem slotsNamed_of_reachable (h : processSystem.Reachable s) : SlotsNamed s := by
  obtain ⟨s₀, l, hb, hrun⟩ := h
  have hboth := hrun.preserves (I := fun s => ProcessInv s ∧ SlotsNamed s)
    (fun _ _ _ hI hstep => ⟨hI.1.step hstep, hI.2.step hI.1 hstep⟩) ⟨hb.inv, hb.slotsNamed⟩
  exact hboth.2

theorem SlotsNamed.reclaimable_iff (hf : SlotsNamed s) (hi : ProcessInv s) : SlotsReclaimable s ↔ ParentsRun s := by
  constructor
  · intro h j rdi hj hex
    have hheld : (s.phase j).held = true := by rw [hex]; rfl
    have hs := hi.slot j hheld
    have h2 := (hf.slot j hj hheld).1
    rcases h (s.pid j) hs.range.1 hs.range.2 (by omega) hs.used with hrun | ⟨-, i, hparent, hrun, -⟩
    · rw [hs.holder, hex] at hrun
      cases hrun
    · rw [hs.holder] at hparent
      exact ⟨i, hparent, hrun⟩
  · intro h c h0 hlt hc hused
    obtain ⟨hheld, hpid⟩ := hi.used c h0 hlt hused
    have hne : s.holder c ≠ 0 := fun e => hc (by rw [← hpid, e]; exact hf.first.1)
    cases hphase : s.phase (s.holder c) with
    | exited rdi =>
      obtain ⟨i, hparent, hrun⟩ := h _ rdi hne hphase
      obtain ⟨-, i', -, hparent', hslot⟩ := hf.slot _ hne hheld
      rw [hpid] at hslot
      obtain rfl : i = i' := Option.some.inj (hparent.symm.trans hparent')
      exact Or.inr ⟨⟨rdi, rfl⟩, i, hparent, hrun, hslot⟩
    | unborn =>
      rw [hphase] at hheld
      cases hheld
    | reaped =>
      rw [hphase] at hheld
      cases hheld
    | building => exact Or.inl rfl
    | user => exact Or.inl rfl
    | forking child => exact Or.inl rfl
    | waiting childPid statusPtr => exact Or.inl rfl

theorem ProcessStep.exit_phase {rdi : Nat} (h : ProcessStep s (.exit i rdi) t) :
    s.phase i = .user ∧ t.phase = Function.update s.phase i (.exited rdi) ∧ t.parent = s.parent := by
  cases h with
  | exit hu _ => exact ⟨hu, rfl, rfl⟩

theorem ParentsRun.step_iff (hp : ParentsRun s) (hi : ProcessInv s) (hf : SlotsNamed s) {a : ProcessOp}
    (h : ProcessStep s a t) : ParentsRun t ↔ ExitsInOrder s a := by
  constructor
  · intro ht
    cases a with
    | exit i rdi =>
      obtain ⟨hu, hphase, hparents⟩ := h.exit_phase
      have hself : t.phase i = .exited rdi := by rw [hphase, Function.update_self]
      refine ⟨fun hne => ?_, fun j rdi' hex hparent => ?_⟩
      · obtain ⟨p, hparent, hrun⟩ := ht i rdi hne hself
        have hpi : p ≠ i := fun e => by
          rw [e, hself] at hrun
          cases hrun
        rw [hphase, Function.update_of_ne hpi] at hrun
        exact ⟨p, by rw [← hparents, hparent], hrun⟩
      · have hji : j ≠ i := fun e => by
          rw [e, hu] at hex
          cases hex
        have hj0 : j ≠ 0 := fun e => by
          rw [e, hf.first.2.1] at hparent
          cases hparent
        obtain ⟨p, hparent', hrun⟩ := ht j rdi' hj0 (by rw [hphase, Function.update_of_ne hji, hex])
        rw [hparents, hparent, Option.some.injEq] at hparent'
        rw [← hparent', hself] at hrun
        cases hrun
    | _ => trivial
  · intro hg j rdi hj hex
    rcases (hi.phase_step h j).1 rdi hex with hold | rfl
    · obtain ⟨p, hparent, hrun⟩ := hp j rdi hj hold
      have hplt := hi.held_lt (Phase.held_of_running hrun)
      have hjlt := hi.held_lt (j := j) (by rw [hold]; rfl)
      rcases (hi.kept h hplt).running hrun with hrun' | ⟨rdi', rfl⟩
      · exact ⟨p, (hi.kept h hjlt).parent.trans hparent, hrun'⟩
      · exact absurd hparent (hg.2 j rdi hold)
    · obtain ⟨hu, hphase, hparents⟩ := h.exit_phase
      obtain ⟨p, hparent, hrun⟩ := hg.1 hj
      obtain ⟨-, i, hij, hparent', -⟩ := hf.slot j hj (by rw [hu]; rfl)
      obtain rfl : p = i := Option.some.inj (hparent.symm.trans hparent')
      exact ⟨p, by rw [hparents, hparent], by rwa [hphase, Function.update_of_ne (by omega)]⟩

theorem ProcessBoot.parents_run (hb : ProcessBoot s) : ParentsRun s := by
  intro j rdi hj hex
  obtain ⟨u, -, -, -, hunborn, -⟩ := hb
  rw [hunborn j (by omega)] at hex
  cases hex

end

/--
While processes exit in order, every slot can come free. The first exit out of order leaves one that can not.
-/
theorem slots_reclaimable (s : ProcessState) :
    (processSystem.GuardedReachable ExitsInOrder s → SlotsReclaimable s) ∧
    ∀ a t, processSystem.Reachable s → SlotsReclaimable s → ProcessStep s a t →
      (SlotsReclaimable t ↔ ExitsInOrder s a) := by
  constructor
  · intro h
    have hi := processInv_of_reachable h.reachable
    have hf := slotsNamed_of_reachable h.reachable
    refine (hf.reclaimable_iff hi).mpr ?_
    obtain ⟨s₀, l, hb, hrun⟩ := h
    have hall := hrun.preserves (I := fun s => ProcessInv s ∧ SlotsNamed s ∧ ParentsRun s)
      (fun _ _ _ hI hg hstep =>
        ⟨hI.1.step hstep, hI.2.1.step hI.1 hstep, (hI.2.2.step_iff hI.1 hI.2.1 hstep).mpr hg⟩)
      ⟨hb.inv, hb.slotsNamed, hb.parents_run⟩
    exact hall.2.2
  · intro a t hreach hs hstep
    have hi := processInv_of_reachable hreach
    have hf := slotsNamed_of_reachable hreach
    rw [(hf.step hi hstep).reclaimable_iff (hi.step hstep)]
    exact ((hf.reclaimable_iff hi).mp hs).step_iff hi hf hstep

theorem exitedChild_reclaimable : ∃ s, SlotsReclaimable s ∧ (s.table.processTable 2).exited = true := by
  obtain ⟨s, hb, hnext, hp, hone, hfree⟩ := boot_run
  have hi := hb.inv
  have hboot : s.phase 0 = .user ∧ s.count = 1 := by
    obtain ⟨-, -, hcount, hu, -⟩ := hb
    exact ⟨hu, hcount⟩
  obtain ⟨hu, hcount⟩ := hboot
  obtain ⟨t, hrun, -, htable, -, hpid, hphase, hparent, -⟩ := spawn_run hi hu
    (by rw [hnext]; exact hfree 2 (by decide) (by decide) (by decide))
  rw [hcount, hnext] at *
  have hguard := hrun.guarded (G := ExitsInOrder) (by rintro a ⟨⟩; trivial) (by simp [ExitsInOrder])
  have hut : t.phase 1 = .user := by rw [hphase, Function.update_self]
  have hexit : ProcessStep t (.exit 1 0) (setPhase { t with table := t.table.recordExit (t.pid 1) 0 } 1
    (.exited 0)) := by
    have hs := (processInv_run hi hrun).slot 1 (by rw [hut]; rfl)
    exact .exit hut (exit_spec (processInv_run hi hrun).ok hs.range.1 hs.range.2 0 hs.used)
  have horder : ExitsInOrder t (.exit 1 0) := by
    refine ⟨fun _ => ⟨0, by rw [hparent, Function.update_self], ?_⟩, fun j rdi hex => ?_⟩
    · rw [hphase, Function.update_of_ne (by decide), hu]
      rfl
    · rw [hphase, Function.update_apply] at hex
      split_ifs at hex with hj
      obtain ⟨-, -, -, -, hunborn, -⟩ := hb
      rcases Nat.eq_zero_or_pos j with rfl | hpos
      · rw [hu] at hex
        cases hex
      · rw [hunborn j hpos] at hex
        cases hex
  refine ⟨_, (slots_reclaimable _).1 ⟨s, _, hb, hguard.snoc horder hexit⟩, ?_⟩
  show ((t.table.recordExit (t.pid 1) 0).processTable 2).exited = true
  rw [hpid, Function.update_self]
  unfold Processes.recordExit
  rw [Processes.set_same]

/-- The parent is gone when instance 2 of `Orphan` exits: slot 3 stays in use. -/
theorem orphan_slot_lost : ¬ ∀ s, processSystem.Reachable s → SlotsReclaimable s := by
  intro h
  obtain ⟨s, hs⟩ := orphan_run
  have hi := processInv_of_reachable hs.reachable
  have hrun := exit_run hi hs.child.1 0
  have hbad := h _ (hs.reachable.run hrun) 3 (by decide) (by decide) (by decide)
  have hentry : (s.table.recordExit (s.pid 2) 0).processTable 3 = ⟨true, 2, true, 0⟩ := by
    rw [hs.child.2, Processes.recordExit, Processes.set_same, hs.entry]
    rfl
  have hholder : s.holder 3 = 2 := hs.holder
  rcases hbad (congrArg ProcessEntry.used hentry) with hrunning | ⟨-, i, -, hrunning, hslot⟩
  · have hphase : (Function.update s.phase 2 (.exited 0) (s.holder 3)).running = true := hrunning
    rw [hholder, Function.update_self] at hphase
    cases hphase
  · -- The slot names pid 2, and nobody has it.
    have hpid : s.pid i = 2 := hslot.symm.trans (congrArg ProcessEntry.parent hentry)
    have hphase : (Function.update s.phase 2 (.exited 0) i).running = true := hrunning
    rw [Function.update_apply] at hphase
    split_ifs at hphase
    · cases hphase
    · have hused := (hi.slot i (Phase.held_of_running hphase)).used
      rw [hpid, hs.free 2 (by decide) (by decide) (by decide) (by decide)] at hused
      cases hused

end Kernel
