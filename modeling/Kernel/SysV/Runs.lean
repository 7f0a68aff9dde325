import Kernel.SysV.Code
import Kernel.Lib.Transition

/-!
# Semaphores in every run

Any order of `semget`, `semop` and `semctl` by any number of processes.
-/

namespace Kernel

open Lib

/-! ## Runs -/

/-- Where a process is. A `semop` that found its semaphore too small knows which one that was. -/
inductive SemPhase where
  | user
  | polling (semid : Nat) (op : UserSembuf) (started : Option Nat)
deriving DecidableEq

structure SemState where
  sems : Semaphores
  /-- Ghost: what the successful `semop`s since its `semget` add up to, for each slot. -/
  sum : Nat → Int
  /-- Ghost: the number of the semaphore in each slot, and how many there were. -/
  inst : Nat → Nat
  made : Nat
  phase : Nat → SemPhase

inductive SemOp where
  | semget (i rdi rsi : Nat) (ret : Int)
  | semop (i rdi rsi rdx : Nat) (mapped : Bool) (op : UserSembuf)
  | turn (i : Nat) (ret : Option Int)
  | semctl (i rdi rdx : Nat) (ret : Int)

inductive SemStep : SemState → SemOp → SemState → Prop where
  | found {s : SemState} {i rdi rsi : Nat} {r : Int} {t : Semaphores} :
      s.phase i = .user → (semget rdi rsi).run s.sems = some (r, t) → (r < 0 ∨ (s.sems r.toNat).used) →
      SemStep s (.semget i rdi rsi r) { s with sems := t }
  | created {s : SemState} {i rdi rsi k : Nat} {t : Semaphores} :
      s.phase i = .user → (semget rdi rsi).run s.sems = some ((k : Int), t) → ¬ (s.sems k).used →
      SemStep s (.semget i rdi rsi k)
        { s with
          sems := t
          sum := Function.update s.sum k 0
          inst := Function.update s.inst k s.made
          made := s.made + 1 }
  | refused {s : SemState} {i rdi rsi rdx : Nat} {mapped : Bool} {op : UserSembuf} :
      s.phase i = .user → semop_args rdi rsi rdx mapped op = none →
      SemStep s (.semop i rdi rsi rdx mapped op) s
  | semop {s : SemState} {i rdi rsi rdx k : Nat} {mapped : Bool} {op : UserSembuf} :
      s.phase i = .user → semop_args rdi rsi rdx mapped op = some k →
      SemStep s (.semop i rdi rsi rdx mapped op) { s with phase := Function.update s.phase i (.polling k op none) }
  | again {s : SemState} {i k : Nat} {op : UserSembuf} {g : Option Nat} {t : Semaphores} :
      s.phase i = .polling k op g → (semop_turn k op).run s.sems = some (none, t) →
      SemStep s (.turn i none)
        { s with sems := t, phase := Function.update s.phase i (.polling k op (some (g.getD (s.inst k)))) }
  | done {s : SemState} {i k : Nat} {op : UserSembuf} {g : Option Nat} {r : Int} {t : Semaphores} :
      s.phase i = .polling k op g → (semop_turn k op).run s.sems = some (some r, t) →
      SemStep s (.turn i (some r))
        { s with
          sems := t
          sum := if r = 0 then Function.update s.sum k (s.sum k + op.sem_op.toInt) else s.sum
          phase := Function.update s.phase i .user }
  | semctl {s : SemState} {i rdi rdx : Nat} {r : Int} {t : Semaphores} :
      s.phase i = .user → (semctl rdi rdx).run s.sems = some (r, t) →
      SemStep s (.semctl i rdi rdx r) { s with sems := t }

/-- No semaphore is in use, and no process is in a system call. -/
def semSystem : System SemState SemOp where
  init s := (∀ k, (s.sems k).used = false) ∧ ∀ i, s.phase i = .user
  step := SemStep

theorem SemStep.cases_spec {s t : SemState} {a : SemOp} (h : SemStep s a t) :
    (t.sems = s.sems ∧ t.sum = s.sum ∧ t.inst = s.inst) ∨
    (∃ (i rdi rsi k : Nat), a = .semget i rdi rsi k ∧ k < maxSemaphores ∧ (s.sems k).used = false ∧
      t.sems = Function.update s.sems k ⟨true, int32 rdi, 0⟩ ∧ t.sum = Function.update s.sum k 0 ∧
      t.inst = Function.update s.inst k s.made ∧ t.phase = s.phase ∧
      ∀ j < maxSemaphores, (s.sems j).used = true → (s.sems j).key ≠ int32 rdi) ∨
    (∃ i k op g, a = .turn i (some 0) ∧ s.phase i = .polling k op g ∧ (s.sems k).used = true ∧
      (0 ≤ op.sem_op.toInt ∨ 0 ≤ (s.sems k).value + op.sem_op.toInt) ∧
      t.sems = Function.update s.sems k { s.sems k with value := wrap32 ((s.sems k).value + op.sem_op.toInt) } ∧
      t.sum = Function.update s.sum k (s.sum k + op.sem_op.toInt) ∧ t.inst = s.inst) ∨
    (∃ k, k < maxSemaphores ∧ t.sems = Function.update s.sems k ⟨false, 0, 0⟩ ∧ t.sum = s.sum ∧ t.inst = s.inst ∧
      t.phase = s.phase) := by
  cases h with
  | @found i rdi rsi r u _ hrun hold =>
    rcases semget_spec hrun with ⟨-, rfl⟩ | ⟨k, -, rfl, ⟨-, rfl⟩ | ⟨hfree, -⟩⟩
    · exact Or.inl ⟨rfl, rfl, rfl⟩
    · exact Or.inl ⟨rfl, rfl, rfl⟩
    · rcases hold with hneg | hu
      · omega
      · rw [Int.toNat_natCast, hfree] at hu
        cases hu
  | @created i rdi rsi k u _ hrun hfree =>
    rcases semget_spec hrun with ⟨hneg, -⟩ | ⟨j, hj, hkj, ⟨hu, -⟩ | ⟨hf, rfl, hkeys⟩⟩
    · omega
    · exact absurd hu (by rwa [Int.ofNat_inj.mp hkj] at hfree)
    · obtain rfl := Int.ofNat_inj.mp hkj
      exact Or.inr (Or.inl ⟨i, rdi, rsi, k, rfl, hj, hf, rfl, rfl, rfl, rfl, hkeys⟩)
  | refused => exact Or.inl ⟨rfl, rfl, rfl⟩
  | semop => exact Or.inl ⟨rfl, rfl, rfl⟩
  | again _ hrun =>
    rcases semop_turn_spec hrun with ⟨-, hr, -⟩ | ⟨-, -, -, -, rfl⟩ | ⟨-, -, hr, -⟩
    · cases hr
    · exact Or.inl ⟨rfl, rfl, rfl⟩
    · cases hr
  | @done i k op g r u hp hrun =>
    rcases semop_turn_spec hrun with ⟨-, hr, rfl⟩ | ⟨-, -, -, hr, -⟩ | ⟨hu, hfit, hr, ⟨h0, rfl⟩ | rfl⟩
    · obtain rfl := Option.some.inj hr
      exact Or.inl ⟨rfl, rfl, rfl⟩
    · cases hr
    · obtain rfl := Option.some.inj hr
      refine Or.inl ⟨rfl, ?_, rfl⟩
      rw [if_pos rfl, h0, Int.add_zero, Function.update_eq_self]
    · obtain rfl := Option.some.inj hr
      exact Or.inr (Or.inr (Or.inl ⟨i, k, op, g, rfl, hp, hu, hfit, rfl, by rw [if_pos rfl], rfl⟩))
  | semctl _ hrun =>
    rcases semctl_spec hrun with ⟨-, rfl⟩ | ⟨k, hk, -, -, rfl⟩
    · exact Or.inl ⟨rfl, rfl, rfl⟩
    · exact Or.inr (Or.inr (Or.inr ⟨k, hk, rfl, rfl, rfl, rfl⟩))

/-! ## Runs that go through -/

section

variable {s : SemState}

theorem create_run {i : Nat} (key : Nat) (hfree : ∀ k, (s.sems k).used = false) (hp : s.phase i = .user) :
    ∃ t, SemStep s (.semget i key 1 0) t ∧ t.sems = Function.update s.sems 0 ⟨true, int32 key, 0⟩ ∧
      t.sum = Function.update s.sum 0 0 ∧ t.inst = Function.update s.inst 0 s.made ∧ t.made = s.made + 1 ∧
      t.phase = s.phase := by
  have hrange : List.range maxSemaphores = 0 :: (List.range 63).map (· + 1) := by decide
  have hrun : (semget key 1).run s.sems = some (((0 : Nat) : Int), Function.update s.sems 0 ⟨true, int32 key, 0⟩) := by
    have hnone : (List.range maxSemaphores).find? (fun i => (s.sems i).used && (s.sems i).key = int32 key) = none := by
      rw [List.find?_eq_none]
      intro k _
      simp [hfree k]
    have hsome : (List.range maxSemaphores).find? (fun i => !(s.sems i).used) = some 0 := by
      rw [hrange, List.find?_cons_of_pos]
      simp [hfree 0]
    rw [semget, if_neg (by decide), find_or_create_sem_locked, bind_assoc, Prog.get_bind_run, hnone]
    dsimp only
    rw [hsome]
    rfl
  exact ⟨_, SemStep.created hp hrun (by simp [hfree 0]), rfl, rfl, rfl, rfl, rfl⟩

theorem up_run {i : Nat} {n : BitVec 16} (hu : (s.sems 0).used = true) (hp : s.phase i = .user) (hpos : 0 < n.toInt) :
    ∃ u t, semSystem.Run s [.semop i 0 4096 1 true ⟨0, n, 0⟩] u ∧ SemStep u (.turn i (some 0)) t ∧
      u.sems = s.sems ∧ (∀ k op g, u.phase i = .polling k op g → k = 0 ∧ op = ⟨0, n, 0⟩) ∧ t.phase = s.phase ∧
      t.sems = Function.update s.sems 0 { s.sems 0 with value := wrap32 ((s.sems 0).value + n.toInt) } ∧
      t.sum = Function.update s.sum 0 (s.sum 0 + n.toInt) ∧ t.inst = s.inst ∧ t.made = s.made := by
  have hargs : semop_args 0 4096 1 true ⟨0, n, 0⟩ = some 0 := by
    rw [semop_args, if_neg (by decide), if_neg (by decide), if_neg (by simp)]
    rfl
  have hturn : (semop_turn 0 ⟨0, n, 0⟩).run s.sems = some (some 0,
      Function.update s.sems 0 { s.sems 0 with value := wrap32 ((s.sems 0).value + n.toInt) }) := by
    rw [semop_turn, Prog.get_bind_run, if_neg (by simp [hu]), if_neg (by simp only; omega), if_pos hpos,
      Prog.modify_bind_run]
    rfl
  obtain ⟨u, hstep, hphase, hsems, hsum, hinst, hmade⟩ : ∃ u, SemStep s (.semop i 0 4096 1 true ⟨0, n, 0⟩) u ∧
      u.phase = Function.update s.phase i (.polling 0 ⟨0, n, 0⟩ none) ∧ u.sems = s.sems ∧ u.sum = s.sum ∧
      u.inst = s.inst ∧ u.made = s.made := ⟨_, .semop hp hargs, rfl, rfl, rfl, rfl, rfl⟩
  have hpoll : u.phase i = .polling 0 ⟨0, n, 0⟩ none := by rw [hphase, Function.update_self]
  refine ⟨u, _, System.Run.single hstep, SemStep.done hpoll (hsems ▸ hturn), hsems, fun k op g h => ?_, ?_,
    rfl, ?_, hinst, hmade⟩
  · rw [hpoll] at h
    cases h
    exact ⟨rfl, rfl⟩
  · simp only [hphase, Function.update_idem]
    rw [← hp, Function.update_eq_self]
  · rw [if_pos rfl, hsum]

end

end Kernel
