import Kernel.SysV.Runs

/-!
# The books of the semaphores

Keys are unique, and a value is what its operations add up to, as long as no
operation takes it past the largest `int`.
-/

namespace Kernel

open Lib

/-- An operation does not take a value past the largest `int`. -/
def NoOverflow (s : SemState) : SemOp → Prop
  | .turn i _ => ∀ k op g, s.phase i = .polling k op g → (s.sems k).used = true →
      (s.sems k).value + op.sem_op.toInt < 2 ^ 31
  | _ => True

/-- No two semaphores have one key, and a value is what its operations add up to. -/
structure SemBooks (s : SemState) : Prop where
  keys : ∀ i j, i < maxSemaphores → j < maxSemaphores → (s.sems i).used = true → (s.sems j).used = true →
    (s.sems i).key = (s.sems j).key → i = j
  value : ∀ k, (s.sems k).used = true → (s.sems k).value = s.sum k ∧ 0 ≤ (s.sems k).value ∧ (s.sems k).value < 2 ^ 31

section

variable {s t : SemState}

theorem SemBooks.step (hb : SemBooks s) {a : SemOp} (hg : NoOverflow s a) (h : SemStep s a t) : SemBooks t := by
  rcases h.cases_spec with ⟨hsems, hsum, -⟩ | ⟨i, rdi, rsi, k, -, hk, hfree, hsems, hsum, -, -, hkeys⟩ |
    ⟨i, k, op, g, rfl, hp, hu, hfit, hsems, hsum, -⟩ | ⟨k, hk, hsems, hsum, -, -⟩
  · exact ⟨hsems ▸ hb.keys, fun j hj => by rw [hsems, hsum]; exact hb.value j (hsems ▸ hj)⟩
  · have hself : t.sems k = ⟨true, int32 rdi, 0⟩ := by rw [hsems, Function.update_self]
    have hother : ∀ {j}, j ≠ k → t.sems j = s.sems j := fun hj => by rw [hsems, Function.update_of_ne hj]
    refine ⟨fun i j hi hj hui huj he => ?_, fun j huj => ?_⟩
    · by_cases hik : i = k
      · by_cases hjk : j = k
        · rw [hik, hjk]
        · rw [hother hjk] at huj he
          rw [hik, hself] at he
          exact absurd he.symm (hkeys j hj huj)
      · rw [hother hik] at hui he
        by_cases hjk : j = k
        · rw [hjk, hself] at he
          exact absurd he (hkeys i hi hui)
        · rw [hother hjk] at huj he
          exact hb.keys i j hi hj hui huj he
    · by_cases hjk : j = k
      · rw [hjk, hself, hsum, Function.update_self]
        exact ⟨rfl, Int.le_refl 0, (by decide : (0 : Int) < 2 ^ 31)⟩
      · rw [hother hjk] at huj ⊢
        rw [hsum, Function.update_of_ne hjk]
        exact hb.value j huj
  · obtain ⟨hv, h0, hlt⟩ := hb.value k hu
    have hpos : 0 ≤ (s.sems k).value + op.sem_op.toInt := by omega
    have hmax := hg k op g hp hu
    have hself : t.sems k = { s.sems k with value := (s.sems k).value + op.sem_op.toInt } := by
      rw [hsems, Function.update_self, wrap32_eq (by omega) hmax]
    have hother : ∀ {j}, j ≠ k → t.sems j = s.sems j := fun hj => by rw [hsems, Function.update_of_ne hj]
    have hkey : ∀ j, (t.sems j).key = (s.sems j).key ∧ (t.sems j).used = (s.sems j).used := by
      intro j
      by_cases hjk : j = k
      · rw [hjk, hself]
        exact ⟨rfl, rfl⟩
      · rw [hother hjk]
        exact ⟨rfl, rfl⟩
    refine ⟨fun i j hi hj hui huj he => ?_, fun j huj => ?_⟩
    · rw [(hkey i).2] at hui
      rw [(hkey j).2] at huj
      rw [(hkey i).1, (hkey j).1] at he
      exact hb.keys i j hi hj hui huj he
    · by_cases hjk : j = k
      · rw [hjk, hself, hsum, Function.update_self, ← hv]
        exact ⟨rfl, hpos, hmax⟩
      · rw [hother hjk] at huj ⊢
        rw [hsum, Function.update_of_ne hjk]
        exact hb.value j huj
  · have hself : t.sems k = ⟨false, 0, 0⟩ := by rw [hsems, Function.update_self]
    have hother : ∀ {j}, (t.sems j).used = true → t.sems j = s.sems j := by
      intro j hj
      by_cases hjk : j = k
      · rw [hjk, hself] at hj
        cases hj
      · rw [hsems, Function.update_of_ne hjk]
    refine ⟨fun i j hi hj hui huj he => ?_, fun j huj => ?_⟩
    · have hi' := hother hui
      have hj' := hother huj
      exact hb.keys i j hi hj (hi' ▸ hui) (hj' ▸ huj) (hi' ▸ hj' ▸ he)
    · rw [hother huj, hsum]
      exact hb.value j (hother huj ▸ huj)

/-- **Bookkeeping.** While no value overflows, keys are unique and values are the sums of the operations. -/
theorem sem_books (h : semSystem.GuardedReachable NoOverflow s) :
    (∀ i j, i < maxSemaphores → j < maxSemaphores → (s.sems i).used = true → (s.sems j).used = true →
      (s.sems i).key = (s.sems j).key → i = j) ∧
    ∀ k, (s.sems k).used = true → (s.sems k).value = s.sum k ∧ 0 ≤ (s.sems k).value := by
  obtain ⟨s₀, l, hinit, hrun⟩ := h
  have hb : SemBooks s := by
    refine hrun.preserves (fun _ _ _ hb hg hstep => hb.step hg hstep) ⟨fun i j _ _ hi => ?_, fun k hk => ?_⟩
    · rw [hinit.1] at hi
      cases hi
    · rw [hinit.1] at hk
      cases hk
  exact ⟨hb.keys, fun k hk => ⟨(hb.value k hk).1, (hb.value k hk).2.1⟩⟩

theorem firstUp_books : ∃ s, semSystem.Reachable s ∧ (s.sems 0).used = true ∧ (s.sems 0).value = s.sum 0 ∧
    s.sum 0 = 1 := by
  let s : SemState := ⟨fun _ => ⟨false, 0, 0⟩, fun _ => 0, fun _ => 0, 0, fun _ => .user⟩
  obtain ⟨t, hstep, hsems, hsum, -, -, hphase⟩ := create_run (s := s) (i := 0) 1 (fun _ => rfl) rfl
  have hself : t.sems 0 = ⟨true, int32 1, 0⟩ := by rw [hsems, Function.update_self]
  obtain ⟨u, v, hrun, hturn, husems, hpoll, -, hvsems, hvsum, -⟩ := up_run (i := 0) (n := 1#16)
    (by rw [hself]) (by rw [hphase]) (by decide)
  have hboot : semSystem.GuardedReachable NoOverflow s := ⟨s, [], ⟨fun _ => rfl, fun _ => rfl⟩, .nil s⟩
  have hreach := (hboot.step (by exact trivial) hstep).run
    (hrun.guarded (G := NoOverflow) (by rintro a ⟨⟩; exact trivial) (by simp))
  have hguard : NoOverflow u (.turn 0 (some 0)) := by
    intro k op g hp _
    obtain ⟨rfl, rfl⟩ := hpoll k op g hp
    rw [husems, hself]
    exact (by decide : (0 : Int) + (1#16).toInt < 2 ^ 31)
  have hv := hreach.step hguard hturn
  have hused : (v.sems 0).used = true := by
    rw [hvsems, Function.update_self, hself]
  refine ⟨v, hv.reachable, hused, ((sem_books hv).2 0 hused).1, ?_⟩
  rw [hvsum, hsum, Function.update_self, Function.update_self]
  rfl

/-! ## An up that overflows -/

theorem ups_run (n : Nat) (hn : n ≤ 65538) : ∃ s, semSystem.Reachable s ∧ (∀ i, s.phase i = .user) ∧
    (s.sems 0).used = true ∧ (s.sems 0).value = 32767 * n ∧ s.sum 0 = 32767 * n := by
  induction n with
  | zero =>
    let s : SemState := ⟨fun _ => ⟨false, 0, 0⟩, fun _ => 0, fun _ => 0, 0, fun _ => .user⟩
    obtain ⟨t, hstep, hsems, hsum, -, -, hphase⟩ := create_run (s := s) (i := 0) 1 (fun _ => rfl) rfl
    refine ⟨t, ⟨s, _, ⟨fun _ => rfl, fun _ => rfl⟩, System.Run.single hstep⟩, fun i => by rw [hphase], ?_, ?_, ?_⟩
    · rw [hsems, Function.update_self]
    · rw [hsems, Function.update_self]
      rfl
    · rw [hsum, Function.update_self]
      rfl
  | succ n ih =>
    obtain ⟨s, hs, hphase, hu, hv, hsum⟩ := ih (by omega)
    obtain ⟨u, t, hrun, hstep, -, -, hphase', hsems, hsum', -⟩ := up_run (n := 32767#16) hu (hphase 0) (by decide)
    have hword : (32767#16).toInt = 32767 := by decide
    rw [hword, hv, wrap32_eq (by omega) (by omega)] at hsems
    rw [hword] at hsum'
    refine ⟨t, (hs.run hrun).step hstep, fun i => by rw [hphase', hphase], ?_, ?_, ?_⟩
    · rw [hsems, Function.update_self]
      exact hu
    · rw [hsems, Function.update_self]
      simp only
      omega
    · rw [hsum', Function.update_self, hsum]
      omega

/-- After 65539 ups of 32767 the value is negative. -/
theorem ups_overflow : ∃ s, semSystem.Reachable s ∧ (s.sems 0).used = true ∧ (s.sems 0).value < 0 ∧
    (s.sems 0).value ≠ s.sum 0 := by
  obtain ⟨s, hs, hphase, hu, hv, hsum⟩ := ups_run 65538 (Nat.le_refl _)
  obtain ⟨u, t, hrun, hstep, -, -, -, hsems, hsum', -⟩ := up_run (n := 32767#16) hu (hphase 0) (by decide)
  have hword : (32767#16).toInt = 32767 := by decide
  have hwrap : wrap32 (32767 * (65538 : Nat) + 32767) = -2147450883 := by decide
  rw [hword, hv, hwrap] at hsems
  rw [hword, hsum] at hsum'
  refine ⟨t, (hs.run hrun).step hstep, ?_, ?_, ?_⟩
  · rw [hsems, Function.update_self]
    exact hu
  · rw [hsems, Function.update_self]
    exact (by decide : (-2147450883 : Int) < 0)
  · rw [hsems, hsum', Function.update_self, Function.update_self]
    exact (by decide : (-2147450883 : Int) ≠ 32767 * (65538 : Nat) + 32767)

end

end Kernel
