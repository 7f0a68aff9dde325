import Kernel.SysV.Runs

/-!
# What a waiting `semop` waits for

It knows its semaphore by the slot alone. That is the semaphore it started on as
long as the slot is not given to another one while it waits.
-/

namespace Kernel

open Lib

/-- `semget` does not make a semaphore in a slot that a `semop` waits on. -/
def NotReused (s : SemState) : SemOp → Prop
  | .semget _ _ _ r => ∀ i k op g, s.phase i = .polling k op (some g) → (s.sems k).used = false → r ≠ k
  | _ => True

/-- What is in the slot that a process waits on is what was there when it found it too small. -/
def Waiters (s : SemState) : Prop :=
  ∀ i k op g, s.phase i = .polling k op (some g) → (s.sems k).used = true → s.inst k = g

section

variable {s t : SemState}

theorem Waiters.step (hw : Waiters s) {a : SemOp} (hg : NotReused s a) (h : SemStep s a t) : Waiters t := by
  intro i k op g hp hu
  cases h with
  | @found j rdi rsi r u _ hrun hold =>
    refine hw i k op g hp ?_
    rcases semget_spec hrun with ⟨-, rfl⟩ | ⟨l, -, rfl, ⟨-, rfl⟩ | ⟨hfree, -⟩⟩
    · exact hu
    · exact hu
    · rcases hold with hneg | hl
      · omega
      · rw [Int.toNat_natCast, hfree] at hl
        cases hl
  | @created j rdi rsi l u _ hrun hfree =>
    rcases semget_spec hrun with ⟨hneg, -⟩ | ⟨m, -, hlm, ⟨hm, -⟩ | ⟨hf, rfl, -⟩⟩
    · omega
    · exact absurd hm (by rwa [Int.ofNat_inj.mp hlm] at hfree)
    · obtain rfl := Int.ofNat_inj.mp hlm
      have hkl : k ≠ l := by
        rintro rfl
        exact hg i k op g hp hf rfl
      simp only [Function.update_of_ne hkl] at hu ⊢
      exact hw i k op g hp hu
  | refused => exact hw i k op g hp hu
  | @semop j rdi rsi rdx l mapped o hj hargs =>
    by_cases hij : i = j
    · simp [hij, Function.update_self] at hp
    · simp only [Function.update_of_ne hij] at hp
      exact hw i k op g hp hu
  | @again j l o w u hj hrun =>
    rcases semop_turn_spec hrun with ⟨-, hr, -⟩ | ⟨hl, -, -, -, rfl⟩ | ⟨-, -, hr, -⟩
    · cases hr
    · by_cases hij : i = j
      · simp only [hij, Function.update_self, SemPhase.polling.injEq, Option.some.injEq] at hp
        obtain ⟨rfl, rfl, rfl⟩ := hp
        cases w with
        | none => rfl
        | some g => exact hw j l o g hj hl
      · simp only [Function.update_of_ne hij] at hp
        exact hw i k op g hp hu
    · cases hr
  | @done j l o w r u hj hrun =>
    by_cases hij : i = j
    · simp [hij, Function.update_self] at hp
    · simp only [Function.update_of_ne hij] at hp
      refine hw i k op g hp ?_
      rcases semop_turn_spec hrun with ⟨-, -, rfl⟩ | ⟨-, -, -, -, rfl⟩ | ⟨hl, -, -, ⟨-, rfl⟩ | rfl⟩
      · exact hu
      · exact hu
      · exact hu
      · by_cases hkl : k = l
        · rw [hkl]
          exact hl
        · simpa only [Function.update_of_ne hkl] using hu
  | @semctl j rdi rdx r u _ hrun =>
    rcases semctl_spec hrun with ⟨-, rfl⟩ | ⟨l, -, -, -, rfl⟩
    · exact hw i k op g hp hu
    · by_cases hkl : k = l
      · simp [hkl, Function.update_self] at hu
      · simp only [Function.update_of_ne hkl] at hu
        exact hw i k op g hp hu

/-- **Waiting.** While no slot is used again under a waiting `semop`, its next turn has an effect on the
semaphore it started on, or fails because that one is gone. -/
theorem waiting_semop (h : semSystem.GuardedReachable NotReused s) {i k g : Nat} {op : UserSembuf}
    (hp : s.phase i = .polling k op (some g)) {r : Option Int} (hstep : SemStep s (.turn i r) t) :
    (∀ j, j ≠ k → t.sems j = s.sems j) ∧
    (¬ ((s.sems k).used = true ∧ s.inst k = g) → r = some (-1) ∧ t.sems = s.sems) := by
  have hw : Waiters s := by
    obtain ⟨s₀, l, hinit, hrun⟩ := h
    refine hrun.preserves (fun _ _ _ hw hg hstep => hw.step hg hstep) fun i k op g hp => ?_
    rw [hinit.2] at hp
    cases hp
  have hturn : ∃ u, (semop_turn k op).run s.sems = some (r, u) ∧ t.sems = u := by
    cases hstep with
    | again hq hrun =>
      obtain ⟨rfl, rfl, -⟩ := SemPhase.polling.inj (hp.symm.trans hq)
      exact ⟨_, hrun, rfl⟩
    | done hq hrun =>
      obtain ⟨rfl, rfl, -⟩ := SemPhase.polling.inj (hp.symm.trans hq)
      exact ⟨_, hrun, rfl⟩
  obtain ⟨u, hrun, rfl⟩ := hturn
  rcases semop_turn_spec hrun with ⟨hu, hr, hsame⟩ | ⟨hu, -, -, hsame⟩ | ⟨hu, -, -, hres⟩
  · exact ⟨fun j _ => by rw [hsame], fun _ => ⟨hr, hsame⟩⟩
  · exact ⟨fun j _ => by rw [hsame.2], fun hne => absurd ⟨hu, hw i k op g hp hu⟩ hne⟩
  · refine ⟨fun j hj => ?_, fun hne => absurd ⟨hu, hw i k op g hp hu⟩ hne⟩
    rcases hres with ⟨-, hsame⟩ | hsame
    · rw [hsame]
    · rw [hsame, Function.update_of_ne hj]

/-! ### A slot that is used again -/

theorem wait_run : ∃ s, semSystem.GuardedReachable NotReused s ∧ (∀ i, i ≠ 1 → s.phase i = .user) ∧
    s.phase 1 = .polling 0 ⟨0, -1, 0⟩ (some 0) ∧ s.sems 0 = ⟨true, 1, 0⟩ ∧ (∀ k, k ≠ 0 → (s.sems k).used = false) ∧
    s.made = 1 ∧ s.inst 0 = 0 := by
  let s : SemState := ⟨fun _ => ⟨false, 0, 0⟩, fun _ => 0, fun _ => 0, 0, fun _ => .user⟩
  obtain ⟨t, hstep, hsems, -, hinst, hmade, hphase⟩ := create_run (s := s) (i := 0) 1 (fun _ => rfl) rfl
  have hself : t.sems 0 = ⟨true, 1, 0⟩ := by
    rw [hsems, Function.update_self]
    rfl
  have hargs : semop_args 0 4096 1 true ⟨0, -1, 0⟩ = some 0 := by decide
  have hturn : (semop_turn 0 ⟨0, -1, 0⟩).run t.sems = some (none, t.sems) := by
    rw [semop_turn, Prog.get_bind_run, if_neg (by simp [hself]), if_pos (by decide), hself]
    rfl
  have hboot : semSystem.GuardedReachable NotReused s := ⟨s, [], ⟨fun _ => rfl, fun _ => rfl⟩, .nil s⟩
  have hcreate : NotReused s (.semget 0 1 1 0) := fun i k op g hp => by cases hp
  obtain ⟨u, hu, huphase, husems, huinst, humade⟩ : ∃ u, SemStep t (.semop 1 0 4096 1 true ⟨0, -1, 0⟩) u ∧
      u.phase = Function.update t.phase 1 (.polling 0 ⟨0, -1, 0⟩ none) ∧ u.sems = t.sems ∧ u.inst = t.inst ∧
      u.made = t.made := ⟨_, .semop (by rw [hphase]) hargs, rfl, rfl, rfl, rfl⟩
  have hagain := SemStep.again (s := u) (i := 1) (by rw [huphase, Function.update_self]) (husems ▸ hturn)
  have hinst₀ : u.inst 0 = 0 := by rw [huinst, hinst, Function.update_self]
  refine ⟨_, ((hboot.step hcreate hstep).step (by exact trivial) hu).step (by exact trivial) hagain,
    fun i hi => ?_, ?_, ?_, fun k hk => ?_, ?_, hinst₀⟩
  · simp only [Function.update_of_ne hi, huphase, hphase]
    rfl
  · simp only [Function.update_self, Option.getD_none, hinst₀]
  · exact husems ▸ hself
  · show (u.sems k).used = false
    rw [husems, hsems, Function.update_of_ne hk]
  · show u.made = 1
    rw [humade, hmade]

/-- Process 0 removes the semaphore that process 1 waits on. -/
theorem removed_run : ∃ s t, semSystem.GuardedReachable NotReused s ∧ SemStep s (.semctl 0 0 0 0) t ∧
    semSystem.GuardedReachable NotReused t ∧ (∀ i, i ≠ 1 → s.phase i = .user) ∧
    s.phase 1 = .polling 0 ⟨0, -1, 0⟩ (some 0) ∧ s.sems 0 = ⟨true, 1, 0⟩ ∧ t.phase = s.phase ∧
    (∀ k, (t.sems k).used = false) ∧ t.made = 1 := by
  obtain ⟨s, hs, huser, hp, hself, hfree, hmade, -⟩ := wait_run
  have hctl : (semctl 0 0).run s.sems = some (0, Function.update s.sems 0 ⟨false, 0, 0⟩) := by
    rw [semctl, if_neg (by decide), Prog.get_bind_run, if_neg (by simp [int32_eq, hself])]
    rfl
  have hstep := SemStep.semctl (huser 0 (by decide)) hctl
  refine ⟨s, _, hs, hstep, hs.step (by exact trivial) hstep, huser, hp, hself, rfl, fun k => ?_, hmade⟩
  by_cases hk : k = 0
  · simp only [hk, Function.update_self]
  · simp only [Function.update_of_ne hk]
    exact hfree k hk

theorem wait_run_turn :
    (∃ s t, SemStep s (.turn 1 none) t ∧ s.phase 1 = .polling 0 ⟨0, -1, 0⟩ (some 0) ∧
      ∀ j, j ≠ 0 → t.sems j = s.sems j) ∧
    ∃ s t r, SemStep s (.turn 1 r) t ∧ s.phase 1 = .polling 0 ⟨0, -1, 0⟩ (some 0) ∧
      (s.sems 0).used = false ∧ r = some (-1) ∧ t.sems = s.sems := by
  obtain ⟨s, t, hs, -, ht, -, hp, hself, hphase, hfree, -⟩ := removed_run
  constructor
  · have hturn : (semop_turn 0 ⟨0, -1, 0⟩).run s.sems = some (none, s.sems) := by
      rw [semop_turn, Prog.get_bind_run, if_neg (by simp [hself]), if_pos (by decide), hself]
      rfl
    have hstep := SemStep.again hp hturn
    exact ⟨s, _, hstep, hp, (waiting_semop hs hp hstep).1⟩
  · have hturn : (semop_turn 0 ⟨0, -1, 0⟩).run t.sems = some (some (-1), t.sems) := by
      rw [semop_turn, Prog.get_bind_run, if_pos (by simp [hfree])]
      rfl
    have hpt := hphase ▸ hp
    have hstep := SemStep.done hpt hturn
    have hgone := (waiting_semop ht hpt hstep).2 (by simp [hfree])
    exact ⟨t, _, _, hstep, hpt, hfree 0, hgone⟩

/-- Process 0 removes the semaphore, makes another one with key 2 in the slot, and adds 1 to it. Process 1 takes
that. -/
theorem stranger_semop : ∃ s t g, semSystem.Reachable s ∧ s.phase 1 = .polling 0 ⟨0, -1, 0⟩ (some g) ∧
    SemStep s (.turn 1 (some 0)) t ∧ s.inst 0 ≠ g := by
  obtain ⟨s, t, -, -, ht, huser, hp, -, htphase, hnone, htmade⟩ := removed_run
  obtain ⟨u, hu, husems, -, huinst, -, huphase⟩ := create_run (i := 0) 2 hnone
    (by rw [htphase, huser 0 (by decide)])
  have huself : u.sems 0 = ⟨true, 2, 0⟩ := by
    rw [husems, Function.update_self]
    rfl
  obtain ⟨v, w, hv, hw, -, -, hwphase, hwsems, -, hwinst, -⟩ := up_run (i := 0) (n := 1#16)
    (by rw [huself]) (by rw [huphase, htphase, huser 0 (by decide)]) (by decide)
  have hwself : w.sems 0 = ⟨true, 2, 1⟩ := by
    rw [hwsems, Function.update_self, huself]
    rfl
  have hreach := ((ht.reachable.step hu).run hv).step hw
  have hwp : w.phase 1 = .polling 0 ⟨0, -1, 0⟩ (some 0) := by rw [hwphase, huphase, htphase, hp]
  obtain ⟨x, hturn⟩ : ∃ x, (semop_turn 0 ⟨0, -1, 0⟩).run w.sems = some (some 0, x) := by
    rw [semop_turn, Prog.get_bind_run, if_neg (by simp [hwself]), if_pos (by decide)]
    dsimp only
    rw [if_pos (by rw [hwself]; decide), Prog.modify_bind_run]
    exact ⟨_, rfl⟩
  refine ⟨w, _, 0, hreach, hwp, SemStep.done hwp hturn, ?_⟩
  rw [hwinst, huinst, Function.update_self, htmade]
  decide

end

end Kernel
