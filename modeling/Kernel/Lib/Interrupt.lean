import Kernel.Lib.Transition
import Kernel.Lib.X86

/-!
# Interrupts of x86-64

What a core does between two instructions when it takes an interrupt or an
exception through a gate, and `iretq`.
-/

namespace Kernel.Lib.X86

/-- A core with the selectors that say at which privilege level it runs. -/
structure Cpu where
  core : Core
  cs : BitVec 16
  ss : BitVec 16

/-- What the core reads from an entry of the IDT. Type 14 is an interrupt gate, type 15 a trap gate. -/
@[ext]
structure Gate where
  offset : Quad
  selector : BitVec 16
  type : BitVec 4

namespace Cpu

def cpl (k : Cpu) : BitVec 2 := k.cs.setWidth 2

/-- What is pushed, from the lowest address on. -/
def words (k : Cpu) (error : List Quad) : List Quad :=
  error ++ [k.core.rip, k.cs.setWidth 64, k.core.rflags.val, k.core.reg .rsp, k.ss.setWidth 64]

/-- The stack of the interrupt: the core's own, or that of the task state segment, aligned. -/
def top (k : Cpu) (rsp0 : Quad) : Quad := (if k.cpl = 0 then k.core.reg .rsp else rsp0) &&& ~~~15

end Cpu

/-- An interrupt gate clears `IF`. Both clear `TF` and `NT`. -/
def Gate.flags (g : Gate) (f : RFlags) : RFlags := .ofWord (f.val &&& ~~~(if g.type = 14 then 0x4300 else 0x4100))

def stores (m : Mem) : Nat → List Quad → Mem
  | _, [] => m
  | a, w :: l => Function.update (stores m (a + 8) l) a w

/-- The core takes an interrupt through the gate `g`. Some exceptions have an error code. -/
def deliver (g : Gate) (rsp0 : Quad) (error : List Quad) (k : Cpu) (m : Mem) : Cpu × Mem :=
  let rsp := k.top rsp0 - BitVec.ofNat 64 (8 * (k.words error).length)
  ({ core := { k.core.setReg .rsp rsp with rip := g.offset, rflags := g.flags k.core.rflags }
     cs := g.selector
     ss := if k.cpl = 0 then k.ss else 0 },
   stores m rsp.toNat (k.words error))

def iretq (k : Cpu) (m : Mem) : Cpu :=
  let a := (k.core.reg .rsp).toNat
  { core := { k.core.setReg .rsp (m (a + 24)) with rip := m a, rflags := .ofWord (m (a + 16)) }
    cs := (m (a + 8)).setWidth 16
    ss := (m (a + 32)).setWidth 16 }

section

variable {m m' : Mem} {a : Nat} {l : List Quad} {k k' : Cpu} {g : Gate} {rsp0 : Quad} {error : List Quad}

theorem stores_frame {b : Nat} (h : b < a ∨ a + 8 * l.length ≤ b) : stores m a l b = m b := by
  induction l generalizing a with
  | nil => rfl
  | cons w l ih =>
    rw [List.length_cons] at h
    rw [stores, Function.update_of_ne (by omega)]
    exact ih (by omega)

theorem stores_stacked : Stacked (stores m a l) a l := by
  induction l generalizing a with
  | nil => trivial
  | cons w l ih =>
    refine ⟨Function.update_self .., ih.congr fun b hb _ => ?_⟩
    exact Function.update_of_ne (by omega) ..

theorem Cpu.words_length (k : Cpu) : (k.words error).length = error.length + 5 := by
  simp [Cpu.words]

/-- The instructions that leave the control registers and the segment bases as they are. -/
@[simp]
def Instr.keeps : Instr → Bool
  | .mov_to_cr2 _ | .mov_to_cr3 _ | .wrfsbase _ => false
  | _ => true

theorem exec_keeps {i : Instr} (hi : i.keeps = true) (s : Core × Mem) :
    (exec i s).1.cr2 = s.1.cr2 ∧ (exec i s).1.cr3 = s.1.cr3 ∧ (exec i s).1.fsbase = s.1.fsbase ∧
      (exec i s).1.gsbase = s.1.gsbase := by
  cases i with
  | mov_to_cr2 | mov_to_cr3 | wrfsbase => cases hi
  | _ => exact ⟨rfl, rfl, rfl, rfl⟩

theorem run_keeps {is : List Instr} (his : ∀ i ∈ is, i.keeps = true) (s : Core × Mem) :
    (run is s).1.cr2 = s.1.cr2 ∧ (run is s).1.cr3 = s.1.cr3 ∧ (run is s).1.fsbase = s.1.fsbase ∧
      (run is s).1.gsbase = s.1.gsbase := by
  induction is generalizing s with
  | nil => exact ⟨rfl, rfl, rfl, rfl⟩
  | cons i is ih =>
    obtain ⟨h₁, h₂, h₃, h₄⟩ := exec_keeps (his i List.mem_cons_self) s
    rw [run_cons, ← h₁, ← h₂, ← h₃, ← h₄]
    exact ih (fun j hj => his j (List.mem_cons_of_mem i hj)) _

theorem deliver_spec (g : Gate) (rsp0 : Quad) (error : List Quad) (k : Cpu) (m : Mem)
    (hroom : 8 * (k.words error).length ≤ (k.top rsp0).toNat) :
    Stacked (deliver g rsp0 error k m).2 ((deliver g rsp0 error k m).1.core.reg .rsp).toNat (k.words error) ∧
      ((deliver g rsp0 error k m).1.core.reg .rsp).toNat + 8 * (k.words error).length = (k.top rsp0).toNat ∧
      ∀ b, b < ((deliver g rsp0 error k m).1.core.reg .rsp).toNat ∨ (k.top rsp0).toNat ≤ b →
        (deliver g rsp0 error k m).2 b = m b := by
  have hrsp : (deliver g rsp0 error k m).1.core.reg .rsp =
      k.top rsp0 - BitVec.ofNat 64 (8 * (k.words error).length) := by
    simp only [deliver, Core.setReg_reg, Function.update_self]
  have hsub : (k.top rsp0 - BitVec.ofNat 64 (8 * (k.words error).length)).toNat =
      (k.top rsp0).toNat - 8 * (k.words error).length := by
    have hlt := (k.top rsp0).isLt
    rw [BitVec.toNat_sub_of_le (by rw [BitVec.le_def, BitVec.toNat_ofNat]; omega), BitVec.toNat_ofNat]
    omega
  rw [hrsp]
  refine ⟨stores_stacked, by omega, fun b hb => stores_frame ?_⟩
  omega

theorem iretq_words (k' : Cpu) (h : Stacked m (k'.core.reg .rsp).toNat (k.words [])) :
    (iretq k' m).core.rip = k.core.rip ∧ (iretq k' m).core.rflags = k.core.rflags ∧
      (iretq k' m).core.reg .rsp = k.core.reg .rsp ∧ (iretq k' m).cs = k.cs ∧ (iretq k' m).ss = k.ss := by
  obtain ⟨hrip, hcs, hflags, hrsp, hss, -⟩ := h
  simp only [Nat.add_assoc, Nat.reduceAdd] at hcs hflags hrsp hss
  refine ⟨hrip, ?_, ?_, ?_, ?_⟩
  · simp only [iretq, hflags, RFlags.ofWord_val]
  · simp only [iretq, hrsp, Core.setReg_reg, Function.update_self]
  · simp only [iretq, hcs]
    exact BitVec.setWidth_setWidth_of_le _ (by decide)
  · simp only [iretq, hss]
    exact BitVec.setWidth_setWidth_of_le _ (by decide)

end

/-! ## What a program at privilege level 3 sees -/

/-- The registers, and the memory `P`. The base of `gs` is left out: it is the core's. -/
structure Same (P : Nat → Prop) (s t : Core × Mem) : Prop where
  reg : s.1.reg = t.1.reg
  rip : s.1.rip = t.1.rip
  rflags : s.1.rflags = t.1.rflags
  fsbase : s.1.fsbase = t.1.fsbase
  mem : ∀ a, P a → s.2 a = t.2 a

/-- From states that are the same to it, the program goes on to states that are the same to it. -/
def Blind {ι : Type} (P : Nat → Prop) (program : System (Core × Mem) ι) : Prop :=
  ∀ s t i s', Same P s t → program.step s i s' → ∃ t', program.step t i t' ∧ Same P s' t'

/-- The instructions of a program, on the segment of the core aside. -/
@[simp]
def Instr.user : Instr → Bool
  | push _ | pop _ | pushf | mov _ _ | store .fs _ _ | load _ .fs _ | rdfsbase _ | add _ _ _ | zero _ _ | ret => true
  | _ => false

/-- The instruction reaches no memory but that of `P`. -/
def Instr.Within (P : Nat → Prop) (i : Instr) (k : Core) : Prop :=
  match i.access k with
  | .none => True
  | .push _ => P (k.reg .rsp - 8).toNat
  | .pop => P (k.reg .rsp).toNat
  | .store a _ | .load a => P a.toNat

section

variable {P : Nat → Prop} {s t u : Core × Mem} {i : Instr}

theorem Same.refl (s : Core × Mem) : Same P s s := ⟨rfl, rfl, rfl, rfl, fun _ _ => rfl⟩

theorem Same.trans (h : Same P s t) (h' : Same P t u) : Same P s u :=
  ⟨h.reg.trans h'.reg, h.rip.trans h'.rip, h.rflags.trans h'.rflags, h.fsbase.trans h'.fsbase,
    fun a ha => (h.mem a ha).trans (h'.mem a ha)⟩

theorem update_same {m n : Mem} (h : ∀ a, P a → m a = n a) (b : Nat) (w : Quad) (a : Nat) (ha : P a) :
    Function.update m b w a = Function.update n b w a := by
  by_cases hab : a = b
  · rw [hab, Function.update_self, Function.update_self]
  · rw [Function.update_of_ne hab, Function.update_of_ne hab]
    exact h a ha

theorem Same.exec (h : Same P s t) (hi : i.user = true) (hP : i.Within P t.1) : Same P (exec i s) (exec i t) := by
  obtain ⟨⟨reg, rip, rflags, _, _, fsbase, _⟩, m⟩ := s
  obtain ⟨k, n⟩ := t
  obtain ⟨hreg, hrip, hrflags, hfs, hmem⟩ := h
  simp only at hreg hrip hrflags hfs hmem
  subst hreg hrip hrflags hfs
  cases i with
  | push r => exact ⟨rfl, rfl, rfl, rfl, update_same hmem _ _⟩
  | pushf => exact ⟨rfl, rfl, rfl, rfl, update_same hmem _ _⟩
  | store sg disp r =>
    cases sg with
    | fs => exact ⟨rfl, rfl, rfl, rfl, update_same hmem _ _⟩
    | gs => cases hi
  | pop r =>
    have hw := hmem _ hP
    exact ⟨congrArg (fun w => Function.update (Function.update k.reg .rsp (k.reg .rsp + 8)) r w) hw,
      rfl, rfl, rfl, hmem⟩
  | load r sg disp =>
    cases sg with
    | fs => exact ⟨congrArg (fun w => Function.update k.reg r w) (hmem _ hP), rfl, rfl, rfl, hmem⟩
    | gs => cases hi
  | ret =>
    have hw := hmem _ hP
    exact ⟨rfl, hw, rfl, rfl, hmem⟩
  | mov | rdfsbase | add | zero => exact ⟨rfl, rfl, rfl, rfl, hmem⟩
  | _ => cases hi

theorem Instr.Within.congr {k k' : Core} (h : i.Within P k) (hi : i.user = true) (hreg : k'.reg = k.reg)
    (hfs : k'.fsbase = k.fsbase) : i.Within P k' := by
  unfold Within at h ⊢
  cases i with
  | store sg | load _ sg =>
    cases sg with
    | fs =>
      simp only [access, Core.base] at h ⊢
      rwa [hfs]
    | gs => cases hi
  | push | pushf | pop | ret =>
    simp only [access] at h ⊢
    rwa [hreg]
  | mov | rdfsbase | add | zero => trivial
  | _ => cases hi

end

end Kernel.Lib.X86
