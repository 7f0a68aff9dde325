import Mathlib.Algebra.Group.Nat.Defs
import Mathlib.Logic.Function.Basic
import Mathlib.Tactic.Common

/-!
# Some instructions of x86-64

Those with which a kernel saves the registers on a stack and takes them back,
at privilege level 0. The memory is one of quadwords.
-/

namespace Kernel.Lib.X86

abbrev Quad := BitVec 64

abbrev Mem := Nat → Quad

inductive Reg where
  | rax | rbx | rcx | rdx | rsi | rdi | rbp | rsp | r8 | r9 | r10 | r11 | r12 | r13 | r14 | r15
deriving DecidableEq

inductive Seg where
  | fs
  | gs

/-! ## The flags -/

/-- The bits that `popf` writes, and bit 1, which is always set. `VM`, `RF`, `VIF` and `VIP` are 0. -/
structure RFlags where
  val : Quad
  fixed : val &&& 0x247FD5 ||| 2 = val

namespace RFlags

def ofWord (w : Quad) : RFlags where
  val := w &&& 0x247FD5 ||| 2
  fixed := by
    rw [BitVec.and_or_distrib_right, BitVec.and_assoc, BitVec.and_self, BitVec.or_assoc]
    rfl

theorem ofWord_val (f : RFlags) : ofWord f.val = f := by
  obtain ⟨w, hw⟩ := f
  simp only [ofWord, hw]

/-- `IF`. -/
def interrupts (f : RFlags) : Prop := f.val.getLsbD 9 = true

/-- `cli`. -/
def disable (f : RFlags) : RFlags := ofWord (f.val &&& ~~~0x200)

theorem not_interrupts_disable (f : RFlags) : ¬ f.disable.interrupts := by
  simp [interrupts, disable, ofWord]

end RFlags

/-! ## Instructions -/

structure Core where
  reg : Reg → Quad
  rip : Quad
  rflags : RFlags
  cr2 : Quad
  cr3 : Quad
  fsbase : Quad
  gsbase : Quad

namespace Core

def setReg (k : Core) (r : Reg) (w : Quad) : Core := { k with reg := Function.update k.reg r w }

@[simp] theorem setReg_reg (k : Core) (r : Reg) (w : Quad) : (k.setReg r w).reg = Function.update k.reg r w := rfl

def base (k : Core) : Seg → Quad
  | .fs => k.fsbase
  | .gs => k.gsbase

end Core

/-- The operands are in the order of the manual. `flags` are what an addition or a `xor` leaves, in part undefined. -/
inductive Instr where
  | push (r : Reg)
  | pop (r : Reg)
  | pushf
  | popf
  | mov (dst src : Reg)
  | store (s : Seg) (disp : Quad) (src : Reg)
  | load (dst : Reg) (s : Seg) (disp : Quad)
  | mov_from_cr2 (dst : Reg)
  | mov_to_cr2 (src : Reg)
  | mov_from_cr3 (dst : Reg)
  | mov_to_cr3 (src : Reg)
  | rdfsbase (dst : Reg)
  | wrfsbase (src : Reg)
  | cli
  | add (dst : Reg) (imm : Quad) (flags : RFlags)
  /-- `xor r, r`. -/
  | zero (r : Reg) (flags : RFlags)
  | ret
  | sysretq

inductive Access where
  | none
  | push (w : Quad)
  | pop
  | store (a : Quad) (w : Quad)
  | load (a : Quad)

namespace Instr

def access : Instr → Core → Access
  | push r, k => .push (k.reg r)
  | pushf, k => .push k.rflags.val
  | pop _, _ | popf, _ | ret, _ => .pop
  | store s disp src, k => .store (k.base s + disp) (k.reg src)
  | load _ s disp, k => .load (k.base s + disp)
  | _, _ => .none

/-- The core after the access; `w` is what it read. -/
def result : Instr → Core → Quad → Core
  | pop r, k, w => k.setReg r w
  | popf, k, w => { k with rflags := .ofWord w }
  | mov dst src, k, _ => k.setReg dst (k.reg src)
  | load dst _ _, k, w => k.setReg dst w
  | mov_from_cr2 dst, k, _ => k.setReg dst k.cr2
  | mov_to_cr2 src, k, _ => { k with cr2 := k.reg src }
  | mov_from_cr3 dst, k, _ => k.setReg dst k.cr3
  | mov_to_cr3 src, k, _ => { k with cr3 := k.reg src }
  | rdfsbase dst, k, _ => k.setReg dst k.fsbase
  | wrfsbase src, k, _ => { k with fsbase := k.reg src }
  | cli, k, _ => { k with rflags := k.rflags.disable }
  | add dst imm flags, k, _ => { k.setReg dst (k.reg dst + imm) with rflags := flags }
  | zero r flags, k, _ => { k.setReg r 0 with rflags := flags }
  | ret, k, w => { k with rip := w }
  | sysretq, k, _ => { k with rip := k.reg .rcx, rflags := .ofWord (k.reg .r11) }
  | push _, k, _ | pushf, k, _ | store _ _ _, k, _ => k

/-- The general register that an instruction writes, `rsp` by its use of the stack aside. -/
def dest : Instr → Option Reg
  | pop r | mov r _ | load r _ _ | mov_from_cr2 r | mov_from_cr3 r | rdfsbase r | add r _ _ | zero r _ => some r
  | _ => none

def pushes : Instr → Bool
  | push _ | pushf => true
  | _ => false

end Instr

def exec (i : Instr) (s : Core × Mem) : Core × Mem :=
  let (k, m) := s
  match i.access k with
  | .none => (i.result k 0, m)
  | .push w => (i.result (k.setReg .rsp (k.reg .rsp - 8)) 0, Function.update m (k.reg .rsp - 8).toNat w)
  | .pop => (i.result (k.setReg .rsp (k.reg .rsp + 8)) (m (k.reg .rsp).toNat), m)
  | .store a w => (i.result k 0, Function.update m a.toNat w)
  | .load a => (i.result k (m a.toNat), m)

def run (is : List Instr) (s : Core × Mem) : Core × Mem := is.foldl (fun s i => exec i s) s

theorem run_cons (i : Instr) (is : List Instr) (s : Core × Mem) : run (i :: is) s = run is (exec i s) := rfl

theorem run_append (is js : List Instr) (s : Core × Mem) : run (is ++ js) s = run js (run is s) := List.foldl_append ..

/-! ## On a list

The same with the stack as a list. What lies under the list is not read.
-/

def execL (i : Instr) (s : Core × List Quad) : Option (Core × List Quad) :=
  match i.access s.1, s with
  | .none, (k, l) => some (i.result k 0, l)
  | .push w, (k, l) => some (i.result (k.setReg .rsp (k.reg .rsp - 8)) 0, w :: l)
  | .pop, (k, w :: l) => some (i.result (k.setReg .rsp (k.reg .rsp + 8)) w, l)
  | _, _ => none

def runL : List Instr → Core × List Quad → Option (Core × List Quad)
  | [], s => some s
  | i :: is, s => (execL i s).bind (runL is)

/-- The quadwords from `a` on are those of `l`. -/
def Stacked (m : Mem) : Nat → List Quad → Prop
  | _, [] => True
  | a, w :: l => m a = w ∧ Stacked m (a + 8) l

section

variable {m m' : Mem} {a : Nat} {l l' : List Quad} {k k' : Core} {i : Instr} {is : List Instr}

theorem Stacked.congr (h : Stacked m a l) (hm : ∀ b, a ≤ b → b < a + 8 * l.length → m' b = m b) : Stacked m' a l := by
  induction l generalizing a with
  | nil => trivial
  | cons w l ih =>
    rw [List.length_cons] at hm
    refine ⟨?_, ih h.2 fun b hb hlt => hm b (by omega) (by omega)⟩
    rw [hm a (by omega) (by omega)]
    exact h.1

theorem stacked_iff : Stacked m a l ↔ ∀ j (h : j < l.length), m (a + 8 * j) = l[j] := by
  induction l generalizing a with
  | nil => simp [Stacked]
  | cons w l ih =>
    rw [Stacked, ih]
    constructor
    · rintro ⟨hw, hl⟩ j hj
      cases j with
      | zero => exact hw
      | succ j =>
        rw [List.getElem_cons_succ, ← hl j (by simpa using hj)]
        exact congrArg m (by omega)
    · intro h
      refine ⟨h 0 (Nat.succ_pos _), fun j hj => ?_⟩
      rw [← List.getElem_cons_succ w l j (by simpa using hj), ← h (j + 1) (by simpa using hj)]
      exact congrArg m (by omega)

theorem Instr.result_rsp (hi : i.dest ≠ some .rsp) (k : Core) (w : Quad) : (i.result k w).reg .rsp = k.reg .rsp := by
  cases i <;> simp only [dest, result, Core.setReg_reg, ne_eq, Option.some.injEq] at hi ⊢ <;>
    exact Function.update_of_ne (Ne.symm hi) ..

theorem exec_fsbase (hi : ∀ r, i ≠ .wrfsbase r) (s : Core × Mem) : (exec i s).1.fsbase = s.1.fsbase := by
  obtain ⟨k, m⟩ := s
  cases i with
  | wrfsbase r => exact absurd rfl (hi r)
  | _ => rfl

/-- How many quadwords a stretch of code pushes. -/
def depth (is : List Instr) : Nat := is.countP (·.pushes)

theorem depth_cons (i : Instr) (is : List Instr) : depth (i :: is) = depth is + depth [i] := by
  simp [depth, List.countP_cons]

theorem depth_singleton (k : Core) : depth [i] = match i.access k with | .push _ => 1 | _ => 0 := by
  cases i <;> rfl

/-- What code that pushes `n` quadwords at most does to a stack in memory. -/
structure StackRun (n : Nat) (k k' : Core) (m m' : Mem) (l l' : List Quad) : Prop where
  stacked : Stacked m' (k'.reg .rsp).toNat l'
  top : (k'.reg .rsp).toNat + 8 * l'.length = (k.reg .rsp).toNat + 8 * l.length
  low : (k.reg .rsp).toNat ≤ (k'.reg .rsp).toNat + 8 * n
  frame : ∀ b, b + 8 * n < (k.reg .rsp).toNat ∨ (k.reg .rsp).toNat + 8 * l.length ≤ b → m' b = m b
  idle : n = 0 → m' = m

theorem exec_push {w : Quad} (ha : i.access k = .push w) (hi : i.dest ≠ some .rsp)
    (hst : Stacked m (k.reg .rsp).toNat l)
    (hlow : 8 ≤ (k.reg .rsp).toNat) : StackRun 1 k (exec i (k, m)).1 m (exec i (k, m)).2 l (w :: l) := by
  have hrsp : (exec i (k, m)).1.reg .rsp = k.reg .rsp - 8 := by
    simp only [exec, ha, Instr.result_rsp hi, Core.setReg_reg, Function.update_self]
  have hmem : (exec i (k, m)).2 = Function.update m (k.reg .rsp - 8).toNat w := by
    simp only [exec, ha]
  have hsub : (k.reg .rsp - 8).toNat = (k.reg .rsp).toNat - 8 := by bv_omega
  refine ⟨?_, ?_, ?_, fun b hb => ?_, fun h => absurd h Nat.one_ne_zero⟩
  · rw [hrsp, hmem, hsub]
    refine ⟨Function.update_self .., ?_⟩
    rw [Nat.sub_add_cancel hlow]
    exact hst.congr fun b hb _ => Function.update_of_ne (by omega) ..
  · rw [hrsp, hsub, List.length_cons]
    omega
  · rw [hrsp, hsub]
    omega
  · rw [hmem, hsub]
    exact Function.update_of_ne (by omega) ..

theorem exec_pop {w : Quad} (ha : i.access k = .pop) (hi : i.dest ≠ some .rsp)
    (hst : Stacked m (k.reg .rsp).toNat (w :: l)) (hhigh : (k.reg .rsp).toNat + 8 * (w :: l).length < 2 ^ 64) :
    StackRun 0 k (exec i (k, m)).1 m (exec i (k, m)).2 (w :: l) l := by
  have hrsp : (exec i (k, m)).1.reg .rsp = k.reg .rsp + 8 := by
    simp only [exec, ha, Instr.result_rsp hi, Core.setReg_reg, Function.update_self]
  have hmem : (exec i (k, m)).2 = m := by
    simp only [exec, ha]
  rw [List.length_cons] at hhigh
  have hadd : (k.reg .rsp + 8).toNat = (k.reg .rsp).toNat + 8 := by bv_omega
  refine ⟨?_, ?_, ?_, fun b _ => ?_, fun _ => hmem⟩
  · rw [hrsp, hmem, hadd]
    exact hst.2
  · rw [hrsp, hadd, List.length_cons]
    omega
  · rw [hrsp, hadd]
    omega
  · rw [hmem]

theorem execL_exec (h : execL i (k, l) = some (k', l')) (hi : i.dest ≠ some .rsp) (hst : Stacked m (k.reg .rsp).toNat l)
    (hlow : 8 * depth [i] ≤ (k.reg .rsp).toNat) (hhigh : (k.reg .rsp).toNat + 8 * l.length < 2 ^ 64) :
    ∃ m', exec i (k, m) = (k', m') ∧ StackRun (depth [i]) k k' m m' l l' := by
  rw [depth_singleton k] at hlow ⊢
  unfold execL at h
  refine ⟨(exec i (k, m)).2, ?_⟩
  cases ha : i.access k with
  | none =>
    simp only [ha, Option.some.injEq, Prod.mk.injEq] at h hlow ⊢
    obtain ⟨rfl, rfl⟩ := h
    have he : exec i (k, m) = (i.result k 0, m) := by
      simp only [exec, ha]
    have hrsp := Instr.result_rsp hi k 0
    rw [he]
    refine ⟨rfl, ?_, ?_, ?_, fun _ _ => rfl, fun _ => rfl⟩ <;> simp only [hrsp]
    · exact hst
    · omega
  | push w =>
    simp only [ha, Option.some.injEq, Prod.mk.injEq] at h hlow ⊢
    obtain ⟨rfl, rfl⟩ := h
    have he : (exec i (k, m)).1 = i.result (k.setReg .rsp (k.reg .rsp - 8)) 0 := by
      simp only [exec, ha]
    rw [← he]
    exact ⟨rfl, exec_push ha hi hst (by omega)⟩
  | pop =>
    cases l with
    | nil => simp [ha] at h
    | cons w l =>
      simp only [ha, Option.some.injEq, Prod.mk.injEq] at h hlow ⊢
      obtain ⟨rfl, rfl⟩ := h
      have he : (exec i (k, m)).1 = i.result (k.setReg .rsp (k.reg .rsp + 8)) w := by
        simp only [exec, ha, hst.1]
      rw [← he]
      exact ⟨rfl, exec_pop ha hi hst hhigh⟩
  | store a w => simp [ha] at h
  | load a => simp [ha] at h

theorem runL_run (h : runL is (k, l) = some (k', l')) (hi : ∀ i ∈ is, i.dest ≠ some .rsp)
    (hst : Stacked m (k.reg .rsp).toNat l) (hlow : 8 * depth is ≤ (k.reg .rsp).toNat)
    (hhigh : (k.reg .rsp).toNat + 8 * l.length < 2 ^ 64) :
    ∃ m', run is (k, m) = (k', m') ∧ StackRun (depth is) k k' m m' l l' := by
  induction is generalizing k l m with
  | nil =>
    cases h
    exact ⟨m, rfl, hst, rfl, by omega, fun _ _ => rfl, fun _ => rfl⟩
  | cons i is ih =>
    obtain ⟨⟨k₁, l₁⟩, h₁, h₂⟩ := Option.bind_eq_some_iff.1 h
    rw [depth_cons] at hlow ⊢
    obtain ⟨m₁, hm₁, hs₁⟩ := execL_exec h₁ (hi i List.mem_cons_self) hst (by omega) hhigh
    have htop := hs₁.top
    have hstep := hs₁.low
    obtain ⟨m', hm', hs'⟩ := ih h₂ (fun j hj => hi j (List.mem_cons_of_mem _ hj)) hs₁.stacked (by omega) (by omega)
    refine ⟨m', by rw [run_cons, hm₁, hm'], hs'.stacked, hs'.top.trans htop, ?_, fun b hb => ?_, fun h => ?_⟩
    · have := hs'.low
      omega
    · rw [hs'.frame b (by omega), hs₁.frame b (by omega)]
    · rw [hs'.idle (by omega), hs₁.idle (by omega)]

/-! ## Rows of pushes and pops -/

theorem runL_push (rs : List Reg) (h : .rsp ∉ rs) (k : Core) (l : List Quad) :
    ∃ k', runL (rs.map .push) (k, l) = some (k', (rs.map k.reg).reverse ++ l) ∧ k'.gsbase = k.gsbase := by
  induction rs generalizing k l with
  | nil => exact ⟨k, rfl, rfl⟩
  | cons r rs ih =>
    rw [List.mem_cons, not_or] at h
    obtain ⟨k', hrun, hgs⟩ := ih h.2 (k.setReg .rsp (k.reg .rsp - 8)) (k.reg r :: l)
    have hregs : rs.map (k.setReg .rsp (k.reg .rsp - 8)).reg = rs.map k.reg :=
      List.map_congr_left fun q hq => Function.update_of_ne (ne_of_mem_of_not_mem hq h.2) ..
    refine ⟨k', ?_, hgs⟩
    rw [List.map_cons, runL, show execL (.push r) (k, l) = some (k.setReg .rsp (k.reg .rsp - 8), k.reg r :: l) from rfl,
      Option.bind_some, hrun, hregs, List.map_cons, List.reverse_cons, List.append_assoc, List.singleton_append]

theorem runL_pop (rs : List Reg) (h : .rsp ∉ rs) (hrs : rs.Nodup) (f : Reg → Quad) (k : Core) (l : List Quad) :
    ∃ k', runL (rs.map .pop) (k, rs.map f ++ l) = some (k', l) ∧ k'.gsbase = k.gsbase ∧ (∀ r ∈ rs, k'.reg r = f r) ∧
      ∀ r, r ∉ rs → r ≠ .rsp → k'.reg r = k.reg r := by
  induction rs generalizing k with
  | nil => exact ⟨k, rfl, rfl, fun r hr => absurd hr List.not_mem_nil, fun _ _ _ => rfl⟩
  | cons r rs ih =>
    rw [List.mem_cons, not_or] at h
    rw [List.nodup_cons] at hrs
    obtain ⟨k', hrun, hgs, hin, hout⟩ := ih h.2 hrs.2 ((k.setReg .rsp (k.reg .rsp + 8)).setReg r (f r))
    refine ⟨k', hrun, hgs, fun q hq => ?_, fun q hq hsp => ?_⟩
    · rcases List.mem_cons.1 hq with rfl | hq
      · rw [hout q hrs.1 (Ne.symm h.1)]
        exact Function.update_self ..
      · exact hin q hq
    · rw [List.mem_cons, not_or] at hq
      rw [hout q hq.2 hsp]
      exact (Function.update_of_ne hq.1 ..).trans (Function.update_of_ne hsp ..)

end

end Kernel.Lib.X86
