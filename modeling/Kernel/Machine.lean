import Mathlib.Algebra.Group.Int.Defs
import Mathlib.Algebra.Group.Nat.Defs
import Kernel.Lib.Program

/-!
# Physical memory and the state the memory code works on

A frame is named by its number (`PPN`), and a frame is 512 words. The kernel
reaches frame `f` through the higher-half direct map, at `hhdm_offset + f * 4096`.
-/

namespace Kernel

open Lib

abbrev Word := BitVec 64

def LOG_FRAME_SIZE : Nat := 12
@[irreducible] def FRAME_SIZE : Nat := 4096

/-- One node of `PhysMem::free_ranges`. -/
structure Range where
  base : Nat
  length : Nat
deriving DecidableEq, Repr

/-- One node of a VME list. `addr` is where the node lives, `node` is 0 for an anonymous mapping. -/
structure VME where
  addr : Nat
  start : Nat
  «end» : Nat
  shared : Bool
  node : Nat
  offset : Nat
deriving DecidableEq, Repr

/--
The machine as one core sees it: memory, `physMem`, `cr3`, and the global and
thread-local variables of `vmm.cc`. A list of C nodes is a `List` here, head first.
-/
structure Machine where
  hhdm_offset : Nat
  common_cr3 : Nat
  mem : Nat → Nat → Word
  avail : Nat
  free_ranges : List Range
  cr3 : Nat
  n_active : Nat
  privateVmes : List VME
  sharedVmes : List VME
  heapStart : Nat
  heapBreak : Nat
  /-- The addresses of the live VME nodes, and where `operator new` puts the next one. -/
  vmeLive : List Nat
  newVme : List Nat → Nat
  /-- Ghost: the process for which the kernel runs, and the process each data page belongs to. -/
  acting : Nat
  owner : Nat → Option Nat

abbrev K (α : Type) := Prog Machine α

/-! ## 64-bit arithmetic -/

def add64 (a b : Nat) : Nat := (a + b) % 2 ^ 64
def sub64 (a b : Nat) : Nat := (a + (2 ^ 64 - b)) % 2 ^ 64

/-! ## `int` -/

/-- The value of an `int` that is given a `uint64_t`. -/
def int32 (n : Nat) : Int := (BitVec.ofNat 32 n).toInt

def uint64 (z : Int) : Nat := (z % 2 ^ 64).toNat

theorem int32_eq {n : Nat} (h : n < 2 ^ 31) : int32 n = n := by
  have hn : (BitVec.ofNat 32 n).toNat = n := by
    rw [BitVec.toNat_ofNat]
    omega
  rw [int32, BitVec.toInt_eq_toNat_of_lt (by omega), hn]

theorem uint64_int32 {n : Nat} (h : n < 2 ^ 31) : uint64 (int32 n) = n := by
  rw [uint64, int32_eq h]
  omega

/-! ## Addresses -/

/-- `VA::check_canonical`: the top 17 bits of an address are equal. -/
def canonical (va : Nat) : Prop := va < 2 ^ 47 ∨ 2 ^ 64 - 2 ^ 47 ≤ va

instance (va : Nat) : Decidable (canonical va) := by unfold canonical; infer_instance

/-- `PPN::PPN(uint64_t)` keeps 48 bits. -/
def PPN (val : Nat) : Nat := val % 2 ^ 48

/-- `PPN::PPN(const PA &)`, which does not mask. -/
def PPN.ofPA (pa : Nat) : Nat := pa / FRAME_SIZE

/-- `PA::PA(PPN)`. -/
def PA.ofPPN (ppn : Nat) : Nat := ppn * FRAME_SIZE % 2 ^ 64

/-- `VA::VA(uint64_t)`. -/
def VA (va : Nat) : K Nat := do
  Prog.assert (canonical va)
  pure va

/-- `VA::VA(PA)`: where the kernel sees a physical address. -/
def VA.ofPA (pa : Nat) : K Nat := do
  let s ← get
  VA (add64 pa s.hhdm_offset)

/-- `VA::VA(PPN)`. -/
def VA.ofPPN (ppn : Nat) : K Nat := VA.ofPA (PA.ofPPN ppn)

/-! ## Reads and writes through the direct map -/

def Machine.frameOf (s : Machine) (va : Nat) : Nat := (va - s.hhdm_offset) / FRAME_SIZE
def Machine.wordOf (s : Machine) (va : Nat) : Nat := (va - s.hhdm_offset) % FRAME_SIZE / 8

/-- Writes word `i` of frame `f`. -/
def Machine.poke (s : Machine) (f i : Nat) (w : Word) : Machine :=
  { s with mem := fun g j => if g = f ∧ j = i then w else s.mem g j }

/-- `ptr[i]` for a kernel pointer into the direct map. -/
def load (ptr i : Nat) : K Word := do
  let s ← get
  pure (s.mem (s.frameOf (ptr + 8 * i)) (s.wordOf (ptr + 8 * i)))

/-- `ptr[i] = w`. -/
def store (ptr i : Nat) (w : Word) : K Unit :=
  modify fun s => s.poke (s.frameOf (ptr + 8 * i)) (s.wordOf (ptr + 8 * i)) w

end Kernel
