import Kernel.Lib.Ledger
import Kernel.SysV.Books
import Mathlib.Algebra.Order.BigOperators.Group.Finset

/-!
# What processes have taken from a semaphore

An account for each process, of what its operations since the `semget` took from
the semaphore in one slot. Those who only take what one process put in, and give
it back, never have more of it at a time than was put in.
-/

namespace Kernel

open Lib

/-- The accounts after a step in the state `s`. A new semaphore in slot `k` begins with empty ones. -/
def credit (k : Nat) (s : SemState) (account : Nat → Int) : SemOp → Nat → Int
  | .semget _ _ _ r => if r = (k : Int) ∧ (s.sems k).used = false then 0 else account
  | .turn i (some 0) => match s.phase i with
    | .polling j op _ => if j = k then Function.update account i (account i - op.sem_op.toInt) else account
    | .user => account
  | _ => account

structure Accounts where
  sem : SemState
  account : Nat → Int

/-- The semaphores, with the accounts of slot `k`. -/
def accountSystem (k : Nat) : System Accounts SemOp where
  init s := semSystem.init s.sem
  step s a t := SemStep s.sem a t.sem ∧ t.account = credit k s.sem s.account a

section

variable {s t : SemState} {x y : Accounts} {account : Nat → Int} {i k : Nat} {a : SemOp}

theorem credit_new {rdi rsi : Nat} {r : Int} (h : r = (k : Int) ∧ (s.sems k).used = false) :
    credit k s account (.semget i rdi rsi r) = 0 := if_pos h

theorem credit_old {rdi rsi : Nat} {r : Int} (h : ¬ (r = (k : Int) ∧ (s.sems k).used = false)) :
    credit k s account (.semget i rdi rsi r) = account := if_neg h

theorem credit_turn {j : Nat} {op : UserSembuf} {g : Option Nat} (hi : s.phase i = .polling j op g) :
    credit k s account (.turn i (some 0)) =
      if j = k then Function.update account i (account i - op.sem_op.toInt) else account := by
  simp only [credit, hi]

theorem credit_cases (account : Nat → Int) (h : SemStep s a t) :
    (t.sems k = s.sems k ∧ credit k s account a = account) ∨
    (∃ key, t.sems k = ⟨true, key, 0⟩ ∧ credit k s account a = 0) ∨
    (t.sems k).used = false ∨
    ∃ i op g, s.phase i = .polling k op g ∧ a = .turn i (some 0) ∧ (s.sems k).used = true ∧
      (0 ≤ op.sem_op.toInt ∨ 0 ≤ (s.sems k).value + op.sem_op.toInt) ∧
      ((t.sems k).value = (s.sems k).value + op.sem_op.toInt ∨
        (t.sems k).value = wrap32 ((s.sems k).value + op.sem_op.toInt)) ∧
      credit k s account a = Function.update account i (account i - op.sem_op.toInt) := by
  cases h with
  | @found i rdi rsi r u hi hrun hold =>
    rcases semget_spec hrun with ⟨rfl, rfl⟩ | ⟨j, -, rfl, ⟨hu, rfl⟩ | ⟨hfree, -⟩⟩
    · exact Or.inl ⟨rfl, credit_old fun h => by omega⟩
    · refine Or.inl ⟨rfl, credit_old fun h => ?_⟩
      rw [← Int.ofNat_inj.mp h.1, hu] at h
      cases h.2
    · rcases hold with hneg | hu
      · omega
      · rw [Int.toNat_natCast, hfree] at hu
        cases hu
  | @created i rdi rsi j u hi hrun hfree =>
    rcases semget_spec hrun with ⟨hneg, -⟩ | ⟨l, -, hjl, ⟨hu, -⟩ | ⟨hf, rfl, -⟩⟩
    · omega
    · exact absurd hu (by rwa [Int.ofNat_inj.mp hjl] at hfree)
    · obtain rfl := Int.ofNat_inj.mp hjl
      by_cases hjk : j = k
      · subst hjk
        exact Or.inr (Or.inl ⟨_, Function.update_self .., credit_new ⟨rfl, hf⟩⟩)
      · exact Or.inl ⟨Function.update_of_ne (Ne.symm hjk) .., credit_old fun h => hjk (Int.ofNat_inj.mp h.1)⟩
  | refused => exact Or.inl ⟨rfl, rfl⟩
  | semop => exact Or.inl ⟨rfl, rfl⟩
  | again hi hrun =>
    rcases semop_turn_spec hrun with ⟨-, hr, -⟩ | ⟨-, -, -, -, rfl⟩ | ⟨-, -, hr, -⟩
    · cases hr
    · exact Or.inl ⟨rfl, rfl⟩
    · cases hr
  | @done i j op g r u hi hrun =>
    rcases semop_turn_spec hrun with ⟨-, hr, rfl⟩ | ⟨-, -, -, hr, -⟩ | ⟨hu, hfit, hr, hres⟩
    · obtain rfl := Option.some.inj hr
      exact Or.inl ⟨rfl, rfl⟩
    · cases hr
    · obtain rfl := Option.some.inj hr
      rw [credit_turn hi]
      by_cases hjk : j = k
      · subst hjk
        refine Or.inr (Or.inr (Or.inr ⟨i, op, g, hi, rfl, hu, hfit, ?_, if_pos rfl⟩))
        rcases hres with ⟨h0, rfl⟩ | rfl
        · exact Or.inl (by simp only [h0, Int.add_zero])
        · exact Or.inr (by simp only [Function.update_self])
      · rw [if_neg hjk]
        rcases hres with ⟨-, rfl⟩ | rfl
        · exact Or.inl ⟨rfl, rfl⟩
        · exact Or.inl ⟨Function.update_of_ne (Ne.symm hjk) .., rfl⟩
  | @semctl i rdi rdx r u hi hrun =>
    rcases semctl_spec hrun with ⟨-, rfl⟩ | ⟨j, -, -, -, rfl⟩
    · exact Or.inl ⟨rfl, rfl⟩
    · by_cases hjk : j = k
      · subst hjk
        exact Or.inr (Or.inr (Or.inl (by simp only [Function.update_self])))
      · exact Or.inl ⟨Function.update_of_ne (Ne.symm hjk) .., rfl⟩

/-- The books are right, and what is left in a semaphore and what was taken from it make up nothing. -/
structure Balanced (k : Nat) (x : Accounts) : Prop where
  books : SemBooks x.sem
  ledger : (x.sem.sems k).used = true → Ledger (x.sem.sems k).value x.account 0

theorem Balanced.step (hx : Balanced k x) (hg : NoOverflow x.sem a) (h : (accountSystem k).step x a y) :
    Balanced k y := by
  obtain ⟨hstep, hacc⟩ := h
  refine ⟨hx.books.step hg hstep, fun hu => ?_⟩
  rw [hacc]
  rcases credit_cases (k := k) x.account hstep with ⟨hsem, hc⟩ | ⟨key, hsem, hc⟩ | hnone |
    ⟨i, op, g, hi, rfl, hused, hfit, hvalue, hc⟩
  · rw [hsem] at hu ⊢
    rw [hc]
    exact hx.ledger hu
  · rw [hsem, hc]
    exact Ledger.none fun _ => rfl
  · rw [hnone] at hu
    cases hu
  · obtain ⟨-, h0, -⟩ := hx.books.value k hused
    have hmax := hg k op g hi hused
    have hv : (y.sem.sems k).value = (x.sem.sems k).value + op.sem_op.toInt := by
      rcases hvalue with hv | hv
      · exact hv
      · rwa [wrap32_eq (by omega) hmax] at hv
    rw [hc, hv]
    exact (hx.ledger hused).update i (by omega)

theorem account_balanced (h : (accountSystem k).GuardedReachable (fun x => NoOverflow x.sem) x) : Balanced k x := by
  obtain ⟨x₀, l, hinit, hrun⟩ := h
  refine hrun.preserves (fun _ _ _ hb hg hstep => hb.step hg hstep)
    ⟨⟨fun i j _ _ hi => ?_, fun j hj => ?_⟩, fun hk => ?_⟩
  · rw [hinit.1] at hi
    cases hi
  · rw [hinit.1] at hj
    cases hj
  · rw [hinit.1] at hk
    cases hk

/-- **Admission.** While no value overflows, and no process but `p` has put in more than it took, the others together
have taken no more than `p` put in. What they have not taken is the value. -/
theorem sem_admits (h : (accountSystem k).GuardedReachable (fun x => NoOverflow x.sem) x)
    (hu : (x.sem.sems k).used = true) (p : Nat) (hothers : ∀ i, i ≠ p → 0 ≤ x.account i) :
    0 ≤ (x.sem.sems k).value ∧
    (∀ A : Finset Nat, p ∉ A → (x.sem.sems k).value + ∑ i ∈ A, x.account i ≤ -x.account p) ∧
    ∃ A : Finset Nat, p ∉ A ∧ (x.sem.sems k).value + ∑ i ∈ A, x.account i = -x.account p := by
  obtain ⟨P, hzero, hsum⟩ := (account_balanced h).ledger hu
  have hsplit : ∑ i ∈ insert p P, x.account i = x.account p + ∑ i ∈ P.erase p, x.account i := by
    rw [← Finset.add_sum_erase _ _ (Finset.mem_insert_self p P), Finset.erase_insert_eq_erase]
  have hinsert : ∑ i ∈ insert p P, x.account i = ∑ i ∈ P, x.account i :=
    (Finset.sum_subset (Finset.subset_insert p P) fun i _ hi => hzero i hi).symm
  have hrest : (x.sem.sems k).value + ∑ i ∈ P.erase p, x.account i = -x.account p := by omega
  refine ⟨((account_balanced h).books.value k hu).2.1, fun A hA => ?_, P.erase p, Finset.notMem_erase p P, hrest⟩
  have hunion : ∑ i ∈ A ∪ P.erase p, x.account i = ∑ i ∈ P.erase p, x.account i := by
    refine (Finset.sum_subset Finset.subset_union_right fun i hi hni => hzero i fun hP => hni ?_).symm
    refine Finset.mem_erase.mpr ⟨?_, hP⟩
    rintro rfl
    rcases Finset.mem_union.mp hi with hi | hi
    · exact hA hi
    · exact Finset.notMem_erase i P hi
  have hle : ∑ i ∈ A, x.account i ≤ ∑ i ∈ A ∪ P.erase p, x.account i := by
    refine Finset.sum_le_sum_of_subset_of_nonneg Finset.subset_union_left fun i hi hni => hothers i ?_
    rintro rfl
    exact (Finset.mem_union.mp hi).elim hni (Finset.notMem_erase i P)
  omega

theorem operation_run {n : BitVec 16} {u : Semaphores} (hi : x.sem.phase i = .user)
    (hno : (x.sem.sems 0).used = true → (x.sem.sems 0).value + n.toInt < 2 ^ 31)
    (hturn : (semop_turn 0 ⟨0, n, 0⟩).run x.sem.sems = some (some 0, u)) :
    ∃ y l, (accountSystem 0).GuardedRun (fun x => NoOverflow x.sem) x l y ∧ y.sem.sems = u ∧
      y.sem.phase = x.sem.phase ∧ y.account = Function.update x.account i (x.account i - n.toInt) := by
  have hargs : semop_args 0 4096 1 true ⟨0, n, 0⟩ = some 0 := by
    rw [semop_args, if_neg (by decide), if_neg (by decide), if_neg (by simp)]
    rfl
  let y : Accounts := ⟨{ x.sem with phase := Function.update x.sem.phase i (.polling 0 ⟨0, n, 0⟩ none) }, x.account⟩
  have hpoll : y.sem.phase i = .polling 0 ⟨0, n, 0⟩ none := Function.update_self ..
  have henter : (accountSystem 0).GuardedRun (fun x => NoOverflow x.sem) x [.semop i 0 4096 1 true ⟨0, n, 0⟩] y :=
    (System.GuardedRun.nil x).snoc (by exact trivial) ⟨.semop hi hargs, rfl⟩
  have hguard : NoOverflow y.sem (.turn i (some 0)) := by
    intro k op g hp
    rw [hpoll] at hp
    cases hp
    exact hno
  obtain ⟨z, hdone, hsems, hphase⟩ : ∃ z, SemStep y.sem (.turn i (some 0)) z ∧ z.sems = u ∧
      z.phase = Function.update y.sem.phase i .user := ⟨_, .done hpoll hturn, rfl, rfl⟩
  refine ⟨⟨z, credit 0 y.sem y.account (.turn i (some 0))⟩, _, henter.snoc hguard ⟨hdone, rfl⟩, hsems, ?_, ?_⟩
  · rw [hphase, Function.update_idem, ← hi, Function.update_eq_self]
  · rw [credit_turn hpoll, if_pos rfl]

theorem sem_admits_one : ∃ x, (accountSystem 0).Reachable x ∧ x.account 1 = 1 ∧
    ∀ A : Finset Nat, 0 ∉ A → ∑ i ∈ A, x.account i ≤ 1 := by
  let s : SemState := ⟨fun _ => ⟨false, 0, 0⟩, fun _ => 0, fun _ => 0, 0, fun _ => .user⟩
  obtain ⟨t, hstep, hsems, -, -, -, hphase⟩ := create_run (s := s) (i := 0) 1 (fun _ => rfl) rfl
  have hself : t.sems 0 = ⟨true, int32 1, 0⟩ := by rw [hsems, Function.update_self]
  let x₀ : Accounts := ⟨t, credit 0 s 0 (.semget 0 1 1 0)⟩
  have hboot : (accountSystem 0).GuardedReachable (fun x => NoOverflow x.sem) x₀ :=
    ⟨⟨s, 0⟩, _, ⟨fun _ => rfl, fun _ => rfl⟩, (System.GuardedRun.nil _).snoc (by exact trivial) ⟨hstep, rfl⟩⟩
  obtain ⟨x₁, l₁, hrun₁, hsems₁, hphase₁, hacc₁⟩ := operation_run (x := x₀) (i := 0) (n := 1#16)
    (u := Function.update t.sems 0 ⟨true, int32 1, 1⟩) (by rw [hphase]) (by rw [hself]; decide) (by
      rw [semop_turn, Prog.get_bind_run, hself, if_neg (by decide), if_neg (by decide), if_pos (by decide),
        Prog.modify_bind_run, hself]
      rfl)
  have hself₁ : x₁.sem.sems 0 = ⟨true, int32 1, 1⟩ := by rw [hsems₁, Function.update_self]
  obtain ⟨x₂, l₂, hrun₂, hsems₂, -, hacc₂⟩ := operation_run (x := x₁) (i := 1) (n := 0xffff#16)
    (u := Function.update x₁.sem.sems 0 ⟨true, int32 1, 0⟩) (by rw [hphase₁, hphase]) (by rw [hself₁]; decide) (by
      rw [semop_turn, Prog.get_bind_run, hself₁, if_neg (by decide), if_pos (by decide)]
      dsimp only
      rw [if_pos (by decide), Prog.modify_bind_run, hself₁]
      rfl)
  have hacc : x₂.account = Function.update (Function.update (0 : Nat → Int) 0 (-1)) 1 1 := by
    have hempty : credit 0 s 0 (.semget 0 1 1 0) = 0 := credit_new ⟨rfl, rfl⟩
    rw [hacc₂, hacc₁]
    simp only [x₀, hempty]
    rfl
  have hreach := (hboot.run hrun₁).run hrun₂
  have hvalue : x₂.sem.sems 0 = ⟨true, int32 1, 0⟩ := by rw [hsems₂, Function.update_self]
  have hothers : ∀ i, i ≠ 0 → 0 ≤ x₂.account i := by
    intro i hi
    by_cases h1 : i = 1
    · rw [hacc, h1, Function.update_self]
      decide
    · rw [hacc, Function.update_of_ne h1, Function.update_of_ne hi]
      exact Int.le_refl 0
  obtain ⟨-, hall, -⟩ := sem_admits hreach (by rw [hvalue]) 0 hothers
  refine ⟨x₂, hreach.reachable, by rw [hacc, Function.update_self], fun A hA => ?_⟩
  have hle := hall A hA
  have h0 : x₂.account 0 = -1 := by
    rw [hacc, Function.update_of_ne (by decide), Function.update_self]
  rw [hvalue, h0, zero_add] at hle
  exact hle

end

end Kernel
