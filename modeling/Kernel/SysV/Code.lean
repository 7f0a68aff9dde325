import Kernel.Syscall.Buffer
import Mathlib.Logic.Function.Basic

/-!
# Semaphores of user processes (`syscall.cc`)

The critical sections of `semLock`. An `int` is an integer that is wrapped
after each addition.
-/

namespace Kernel

open Lib

structure KernelSemaphore where
  used : Bool
  key : Int
  value : Int
deriving DecidableEq, Repr

structure UserSembuf where
  sem_num : BitVec 16
  sem_op : BitVec 16
  sem_flg : BitVec 16
deriving DecidableEq, Repr

def maxSemaphores : Nat := 64

abbrev Semaphores := Nat → KernelSemaphore

/-- What an `int` makes of a sum. -/
def wrap32 (z : Int) : Int := (BitVec.ofInt 32 z).toInt

def find_or_create_sem_locked (key : Int) : Prog Semaphores (Option Nat) := do
  let s ← get
  match (List.range maxSemaphores).find? fun i => (s i).used && (s i).key = key with
  | some i => pure (some i)
  | none =>
    match (List.range maxSemaphores).find? fun i => !(s i).used with
    | some i => do
      modify fun s => Function.update s i ⟨true, key, 0⟩
      pure (some i)
    | none => pure none

def semget (rdi rsi : Nat) : Prog Semaphores Int := do
  let key := int32 rdi
  let nsems := int32 rsi
  if nsems ≠ 1 then pure (-1)
  else do
    let sem ← find_or_create_sem_locked key
    match sem with
    | none => pure (-1)
    | some id => pure id

/-- What `semop` checks before its loop: the slot, or `none` for -1. -/
def semop_args (rdi rsi rdx : Nat) (mapped : Bool) (op : UserSembuf) : Option Nat :=
  let semid := int32 rdi
  if semid < 0 ∨ semid ≥ maxSemaphores ∨ rdx ≠ 1 then none
  else if ¬ is_valid_user_buffer rsi 6 ∨ ¬ mapped then none
  else if op.sem_num ≠ 0 then none
  else some semid.toNat

/-- How a turn of the loop of `semop` ends: with what `semop` returns, or with `none` to try again. -/
def semop_turn (semid : Nat) (op : UserSembuf) : Prog Semaphores (Option Int) := do
  let s ← get
  if ¬ (s semid).used then pure (some (-1))
  else if op.sem_op.toInt < 0 then do
    let need := -op.sem_op.toInt
    if (s semid).value ≥ need then do
      modify fun s => Function.update s semid { s semid with value := wrap32 ((s semid).value - need) }
      pure (some 0)
    else pure none
  else do
    if op.sem_op.toInt > 0 then
      modify fun s => Function.update s semid { s semid with value := wrap32 ((s semid).value + op.sem_op.toInt) }
    else pure ()
    pure (some 0)

def semctl (rdi rdx : Nat) : Prog Semaphores Int := do
  let semid := int32 rdi
  let cmd := int32 rdx
  if semid < 0 ∨ semid ≥ maxSemaphores ∨ cmd ≠ 0 then pure (-1)
  else do
    let s ← get
    if ¬ (s semid.toNat).used then pure (-1)
    else do
      modify fun s => Function.update s semid.toNat ⟨false, 0, 0⟩
      pure 0

/-! ## What each section does -/

section

variable {s t : Semaphores}

theorem wrap32_eq {z : Int} (h : -2 ^ 31 ≤ z) (h' : z < 2 ^ 31) : wrap32 z = z := by
  rw [wrap32, BitVec.toInt_ofInt, Int.bmod_eq_of_le] <;> omega

theorem semget_spec {rdi rsi : Nat} {r : Int} (hrun : (semget rdi rsi).run s = some (r, t)) :
    r = -1 ∧ t = s ∨
    ∃ k, k < maxSemaphores ∧ r = k ∧ ((s k).used = true ∧ t = s ∨
      (s k).used = false ∧ t = Function.update s k ⟨true, int32 rdi, 0⟩ ∧
        ∀ i < maxSemaphores, (s i).used = true → (s i).key ≠ int32 rdi) := by
  rw [semget] at hrun
  by_cases hn : int32 rsi ≠ 1
  · rw [if_pos hn, Prog.run_pure] at hrun
    exact Or.inl hrun
  · rw [if_neg hn, find_or_create_sem_locked, bind_assoc, Prog.get_bind_run] at hrun
    cases hfind : (List.range maxSemaphores).find? fun i => (s i).used && (s i).key = int32 rdi with
    | some k =>
      rw [hfind] at hrun
      have hk := List.find?_some hfind
      have hmem := List.mem_of_find?_eq_some hfind
      simp only [pure_bind, Prog.run_pure] at hrun
      simp only [Bool.and_eq_true] at hk
      exact Or.inr ⟨k, List.mem_range.mp hmem, hrun.1, Or.inl ⟨hk.1, hrun.2⟩⟩
    | none =>
      rw [hfind] at hrun
      cases hfree : (List.range maxSemaphores).find? fun i => !(s i).used with
      | some k =>
        rw [hfree] at hrun
        have hk := List.find?_some hfree
        have hmem := List.mem_of_find?_eq_some hfree
        simp only [bind_assoc, pure_bind] at hrun
        rw [Prog.modify_bind_run, Prog.run_pure] at hrun
        refine Or.inr ⟨k, List.mem_range.mp hmem, hrun.1, Or.inr ⟨by simpa using hk, hrun.2, fun i hi hu => ?_⟩⟩
        have := List.find?_eq_none.mp hfind i (List.mem_range.mpr hi)
        simpa [hu] using this
      | none =>
        rw [hfree] at hrun
        simp only [pure_bind, Prog.run_pure] at hrun
        exact Or.inl hrun

theorem semop_turn_spec {k : Nat} {op : UserSembuf} {r : Option Int} (hrun : (semop_turn k op).run s = some (r, t)) :
    (s k).used = false ∧ r = some (-1) ∧ t = s ∨
    (s k).used = true ∧ op.sem_op.toInt < 0 ∧ (s k).value + op.sem_op.toInt < 0 ∧ r = none ∧ t = s ∨
    (s k).used = true ∧ (0 ≤ op.sem_op.toInt ∨ 0 ≤ (s k).value + op.sem_op.toInt) ∧ r = some 0 ∧
      (op.sem_op.toInt = 0 ∧ t = s ∨
        t = Function.update s k { s k with value := wrap32 ((s k).value + op.sem_op.toInt) }) := by
  rw [semop_turn, Prog.get_bind_run] at hrun
  by_cases hu : (s k).used = true
  · rw [if_neg (by simp [hu])] at hrun
    refine Or.inr ?_
    by_cases hneg : op.sem_op.toInt < 0
    · rw [if_pos hneg] at hrun
      dsimp only at hrun
      by_cases hfit : (s k).value ≥ -op.sem_op.toInt
      · rw [if_pos hfit, Prog.modify_bind_run, Prog.run_pure, Int.sub_neg] at hrun
        exact Or.inr ⟨hu, Or.inr (by omega), hrun.1, Or.inr hrun.2⟩
      · rw [if_neg hfit, Prog.run_pure] at hrun
        exact Or.inl ⟨hu, hneg, by omega, hrun.1, hrun.2⟩
    · rw [if_neg hneg] at hrun
      by_cases hpos : op.sem_op.toInt > 0
      · rw [if_pos hpos, Prog.modify_bind_run, Prog.run_pure] at hrun
        exact Or.inr ⟨hu, Or.inl (by omega), hrun.1, Or.inr hrun.2⟩
      · rw [if_neg hpos] at hrun
        dsimp only at hrun
        rw [Prog.run_pure] at hrun
        exact Or.inr ⟨hu, Or.inl (by omega), hrun.1, Or.inl ⟨by omega, hrun.2⟩⟩
  · rw [if_pos hu, Prog.run_pure] at hrun
    exact Or.inl ⟨by simpa using hu, hrun.1, hrun.2⟩

theorem semctl_spec {rdi rdx : Nat} {r : Int} (hrun : (semctl rdi rdx).run s = some (r, t)) :
    r = -1 ∧ t = s ∨
    ∃ k, k < maxSemaphores ∧ (s k).used = true ∧ r = 0 ∧ t = Function.update s k ⟨false, 0, 0⟩ := by
  rw [semctl] at hrun
  split_ifs at hrun with hargs
  · exact Or.inl (Prog.run_pure.mp hrun)
  · rw [Prog.get_bind_run] at hrun
    split_ifs at hrun with hu
    · rw [Prog.modify_bind_run, Prog.run_pure] at hrun
      refine Or.inr ⟨(int32 rdi).toNat, ?_, hu, hrun.1, hrun.2⟩
      simp only [maxSemaphores] at *
      omega
    · exact Or.inl (Prog.run_pure.mp hrun)

end

end Kernel
