import Kernel.Vmm.Bytes

/-!
# The task state segment (`per_core.h`, `core_main.cc`)

What `core_main` puts in the GDT for a core, and which ports user mode reaches with it.
-/

namespace Kernel

/-- `ist` has seven entries. The reserved fields and `iopb_offset` are never written. -/
structure TSS where
  _0 : BitVec 32 := 0
  rsp0 : Word := 0
  rsp1 : Word := 0
  rsp2 : Word := 0
  _1 : Word := 0
  ist : Nat → Word := fun _ => 0
  _2 : Word := 0
  _3 : BitVec 16 := 0
  iopb_offset : BitVec 16 := 0

def TSS.size : Nat := 104

/-- Byte `i` of the packed structure. -/
def TSS.byte (t : TSS) (i : Nat) : Byte :=
  if i < 4 then wordByte (t._0.setWidth 64) i
  else if i < 12 then wordByte t.rsp0 (i - 4)
  else if i < 20 then wordByte t.rsp1 (i - 12)
  else if i < 28 then wordByte t.rsp2 (i - 20)
  else if i < 36 then wordByte t._1 (i - 28)
  else if i < 92 then wordByte (t.ist ((i - 36) / 8)) ((i - 36) % 8)
  else if i < 100 then wordByte t._2 (i - 92)
  else if i < 102 then wordByte (t._3.setWidth 64) (i - 100)
  else wordByte (t.iopb_offset.setWidth 64) (i - 102)

structure TSSDescriptor where
  limit_15_0 : BitVec 16
  base_15_0 : BitVec 16
  base_23_16 : BitVec 8
  type : BitVec 4
  _1 : BitVec 1
  dpl : BitVec 2
  P : BitVec 1
  limit_19_16 : BitVec 4
  avl : BitVec 1
  _2 : BitVec 2
  G : BitVec 1
  base_31_24 : BitVec 8
  base_63_32 : BitVec 32
  _3 : BitVec 32

def TSSDescriptor.init (tss limit : Nat) : TSSDescriptor where
  limit_15_0 := BitVec.ofNat 16 limit
  limit_19_16 := BitVec.ofNat 4 (limit / 2 ^ 16)
  base_15_0 := BitVec.ofNat 16 tss
  base_23_16 := BitVec.ofNat 8 (tss / 2 ^ 16)
  base_31_24 := BitVec.ofNat 8 (tss / 2 ^ 24)
  base_63_32 := BitVec.ofNat 32 (tss / 2 ^ 32)
  type := 0x9
  _1 := 0
  dpl := 0
  P := 1
  avl := 0
  _2 := 0
  G := 1
  _3 := 0

/-- The descriptor that `core_main` writes for the TSS at `my_tss`. -/
def core_main_descriptor (my_tss : Nat) : TSSDescriptor := TSSDescriptor.init my_tss (TSS.size - 1)

/-! ## The processor -/

def TSSDescriptor.base (d : TSSDescriptor) : Nat :=
  d.base_15_0.toNat + 2 ^ 16 * d.base_23_16.toNat + 2 ^ 24 * d.base_31_24.toNat + 2 ^ 32 * d.base_63_32.toNat

def TSSDescriptor.limit (d : TSSDescriptor) : Nat := d.limit_15_0.toNat + 2 ^ 16 * d.limit_19_16.toNat

/-- The last byte of the segment: with `G` the limit counts pages. -/
def TSSDescriptor.effective_limit (d : TSSDescriptor) : Nat :=
  if d.G = 1 then d.limit * 2 ^ 12 + 0xFFF else d.limit

/-- The I/O map base, at byte 102 of the segment. -/
def TSSDescriptor.iopb (d : TSSDescriptor) (mem : Memory) : Nat :=
  (mem (add64 d.base 102)).toNat + 256 * (mem (add64 d.base 103)).toNat

/-- An `in` or `out` at `port` with CPL 3 and IOPL 0 is let through. -/
def TSSDescriptor.allows (d : TSSDescriptor) (mem : Memory) (port : Nat) : Prop :=
  let at_ := d.iopb mem + port / 8
  at_ ≤ d.effective_limit ∧ at_ + 1 ≤ d.effective_limit ∧ (mem (add64 d.base at_)).getLsbD (port % 8) = false

/-! ## A core that `core_main` set up -/

/-- The TSS is at `my_tss`, with the stack fields it has at the time. -/
structure CoreSetUp (my_tss : Nat) (rsp0 rsp1 rsp2 : Word) (ist : Nat → Word) (mem : Memory) : Prop where
  address : my_tss < 2 ^ 64
  bytes : ∀ i < TSS.size, mem (add64 my_tss i) = TSS.byte { rsp0, rsp1, rsp2, ist } i

/--
The bit that the processor finds for `port`: of a reserved field, of a stack field, or of the memory behind the TSS.
-/
def portBit (my_tss : Nat) (rsp0 rsp1 rsp2 : Word) (ist : Nat → Word) (mem : Memory) (port : Nat) : Bool :=
  if port < 32 then false
  else if port < 96 then rsp0.getLsbD (port - 32)
  else if port < 160 then rsp1.getLsbD (port - 96)
  else if port < 224 then rsp2.getLsbD (port - 160)
  else if port < 288 then false
  else if port < 736 then (ist ((port - 288) / 64)).getLsbD ((port - 288) % 64)
  else if port < 832 then false
  else (mem (add64 my_tss (port / 8))).getLsbD (port % 8)

section

variable {my_tss tss limit port : Nat} {rsp0 rsp1 rsp2 : Word} {ist : Nat → Word} {mem : Memory}

theorem init_base (h : tss < 2 ^ 64) : (TSSDescriptor.init tss limit).base = tss := by
  unfold TSSDescriptor.base TSSDescriptor.init
  simp only [BitVec.toNat_ofNat]
  omega

theorem init_limit (h : limit < 2 ^ 20) : (TSSDescriptor.init tss limit).limit = limit := by
  unfold TSSDescriptor.limit TSSDescriptor.init
  simp only [BitVec.toNat_ofNat]
  omega

/-- The limit of 103 bytes is taken for 103 pages more than one. -/
theorem core_main_limit : (core_main_descriptor my_tss).effective_limit = 104 * 2 ^ 12 - 1 := by
  unfold TSSDescriptor.effective_limit core_main_descriptor
  have hG : (TSSDescriptor.init my_tss (TSS.size - 1)).G = 1 := rfl
  rw [if_pos hG, init_limit (by decide)]
  rfl

theorem wordByte_getLsbD {w : Word} {k b : Nat} (hb : b < 8) : (wordByte w k).getLsbD b = w.getLsbD (8 * k + b) := by
  unfold wordByte
  rw [BitVec.getLsbD_setWidth, BitVec.getLsbD_ushiftRight]
  simp [hb]

theorem wordByte_zero (k : Nat) : wordByte 0 k = 0 := by
  simp [wordByte]

theorem tss_portBit (hport : port < 832) : (TSS.byte { rsp0, rsp1, rsp2, ist } (port / 8)).getLsbD (port % 8) =
    portBit my_tss rsp0 rsp1 rsp2 ist mem port := by
  have hmod : port % 8 < 8 := Nat.mod_lt _ (by omega)
  have hzero : ∀ w k, w = 0 → (wordByte w k).getLsbD (port % 8) = false := fun w k hw => by
    rw [hw, wordByte_zero]
    exact BitVec.getLsbD_zero
  unfold TSS.byte portBit
  have h₁₆ : ((0 : BitVec 16).setWidth 64) = 0 := by decide
  have h₃₂ : ((0 : BitVec 32).setWidth 64) = 0 := by decide
  -- One field of the structure after another.
  by_cases h₀ : port < 32
  · rw [if_pos (by omega), if_pos h₀]
    exact hzero _ _ h₃₂
  rw [if_neg (by omega), if_neg h₀]
  by_cases h₁ : port < 96
  · rw [if_pos (by omega), if_pos h₁, wordByte_getLsbD hmod]
    have hbit : 8 * (port / 8 - 4) + port % 8 = port - 32 := by omega
    rw [hbit]
  rw [if_neg (by omega), if_neg h₁]
  by_cases h₂ : port < 160
  · rw [if_pos (by omega), if_pos h₂, wordByte_getLsbD hmod]
    have hbit : 8 * (port / 8 - 12) + port % 8 = port - 96 := by omega
    rw [hbit]
  rw [if_neg (by omega), if_neg h₂]
  by_cases h₃ : port < 224
  · rw [if_pos (by omega), if_pos h₃, wordByte_getLsbD hmod]
    have hbit : 8 * (port / 8 - 20) + port % 8 = port - 160 := by omega
    rw [hbit]
  rw [if_neg (by omega), if_neg h₃]
  by_cases h₄ : port < 288
  · rw [if_pos (by omega), if_pos h₄]
    exact hzero _ _ rfl
  rw [if_neg (by omega), if_neg h₄]
  by_cases h₅ : port < 736
  · have hentry : (port / 8 - 36) / 8 = (port - 288) / 64 := by omega
    have hbit : 8 * ((port / 8 - 36) % 8) + port % 8 = (port - 288) % 64 := by omega
    rw [if_pos (by omega), if_pos h₅, wordByte_getLsbD hmod, hentry, hbit]
  rw [if_neg (by omega), if_neg h₅, if_pos hport]
  split_ifs
  · exact hzero _ _ rfl
  · exact hzero _ _ h₁₆
  · exact hzero _ _ h₁₆

/-- `iopb_offset` is 0: the bitmap starts where the TSS starts. -/
theorem CoreSetUp.iopb (h : CoreSetUp my_tss rsp0 rsp1 rsp2 ist mem) : (core_main_descriptor my_tss).iopb mem = 0 := by
  have hbyte : ∀ i, 102 ≤ i → TSS.byte { rsp0, rsp1, rsp2, ist } i = 0 := fun i hi => by
    unfold TSS.byte
    rw [if_neg (by omega), if_neg (by omega), if_neg (by omega), if_neg (by omega), if_neg (by omega),
      if_neg (by omega), if_neg (by omega), if_neg (by omega)]
    have hfield : ((0 : BitVec 16).setWidth 64) = 0 := by decide
    rw [hfield]
    exact wordByte_zero _
  unfold TSSDescriptor.iopb core_main_descriptor
  rw [init_base h.address, h.bytes 102 (by decide), h.bytes 103 (by decide), hbyte 102 (by omega), hbyte 103 (by omega)]
  rfl

/-- The processor finds a bit for every port, so the bit alone decides. -/
theorem io_refused_iff (h : CoreSetUp my_tss rsp0 rsp1 rsp2 ist mem) (hport : port < 2 ^ 16) :
    ¬ (core_main_descriptor my_tss).allows mem port ↔ portBit my_tss rsp0 rsp1 rsp2 ist mem port = true := by
  have hbase : (core_main_descriptor my_tss).base = my_tss := init_base h.address
  have hbit : (mem (add64 my_tss (port / 8))).getLsbD (port % 8) = portBit my_tss rsp0 rsp1 rsp2 ist mem port := by
    by_cases hin : port < 832
    · rw [h.bytes _ (by unfold TSS.size; omega), tss_portBit hin]
    · unfold portBit
      rw [if_neg (by omega), if_neg (by omega), if_neg (by omega), if_neg (by omega), if_neg (by omega),
        if_neg (by omega), if_neg hin]
  unfold TSSDescriptor.allows
  dsimp only
  rw [h.iopb, core_main_limit, hbase, Nat.zero_add, hbit]
  have hin : port / 8 ≤ 104 * 2 ^ 12 - 1 ∧ port / 8 + 1 ≤ 104 * 2 ^ 12 - 1 := by omega
  simp only [hin, true_and, Bool.not_eq_false]

end

/-! ## A port that is open -/

/-- A TSS of zeros at 0, and ones behind it. -/
def zeroTss : Memory := fun a => if a < TSS.size then 0 else 0xFF

theorem zeroTss_setUp : CoreSetUp 0 0 0 0 (fun _ => 0) zeroTss := by
  refine ⟨by omega, fun i hi => ?_⟩
  have hadd : add64 0 i = i := by
    unfold add64 TSS.size at *
    omega
  have hzero : TSS.byte { rsp0 := 0, rsp1 := 0, rsp2 := 0, ist := fun _ => 0 } i = 0 := by
    unfold TSS.byte
    split_ifs <;> exact wordByte_zero _
  rw [hadd, hzero]
  exact if_pos hi

/-- Port 1000 falls on a one behind the TSS. -/
theorem zeroTss_refused : ¬ (core_main_descriptor 0).allows zeroTss 1000 :=
  (io_refused_iff zeroTss_setUp (by decide)).mpr (by decide)

theorem zeroTss_open : ¬ ∀ (my_tss : Nat) (rsp0 rsp1 rsp2 : Word) (ist : Nat → Word) (mem : Memory) (port : Nat),
    CoreSetUp my_tss rsp0 rsp1 rsp2 ist mem → port < 2 ^ 16 → ¬ (core_main_descriptor my_tss).allows mem port := by
  intro hall
  refine hall 0 0 0 0 (fun _ => 0) zeroTss 0x64 zeroTss_setUp (by decide) ⟨?_, ?_, ?_⟩
  · decide
  · decide
  · decide

end Kernel
