import Kernel.File.Ext2
import Kernel.Vmm.Entries

/-!
# Frames as bytes

The kernel's byte pointers into the direct map, and the bytes of a user page.
-/

namespace Kernel

open Lib

/-- Byte `k` of a little-endian word. -/
def wordByte (w : Word) (k : Nat) : Byte := (w >>> (8 * k)).setWidth 8

/-- The word of eight bytes. -/
def wordOfBytes (f : Nat → Byte) : Word := BitVec.ofNat 64 (little ((List.range 8).map f))

theorem wordByte_toNat (w : Word) (k : Nat) : (wordByte w k).toNat = w.toNat / 2 ^ (8 * k) % 2 ^ 8 := by
  rw [wordByte, BitVec.toNat_setWidth, BitVec.toNat_ushiftRight, Nat.shiftRight_eq_div_pow]

theorem little_eight (f : Nat → Byte) : little ((List.range 8).map f) =
    (f 0).toNat + 256 * ((f 1).toNat + 256 * ((f 2).toNat + 256 * ((f 3).toNat + 256 * ((f 4).toNat +
      256 * ((f 5).toNat + 256 * ((f 6).toNat + 256 * (f 7).toNat)))))) := rfl

theorem wordOfBytes_congr {f g : Nat → Byte} (h : ∀ k, k < 8 → f k = g k) : wordOfBytes f = wordOfBytes g := by
  unfold wordOfBytes
  rw [List.map_congr_left fun k hk => h k (List.mem_range.mp hk)]

theorem wordByte_wordOfBytes (f : Nat → Byte) {k : Nat} (hk : k < 8) : wordByte (wordOfBytes f) k = f k := by
  apply BitVec.eq_of_toNat_eq
  have hlt : ∀ i, (f i).toNat < 256 := fun i => (f i).isLt
  have := hlt 0; have := hlt 1; have := hlt 2; have := hlt 3
  have := hlt 4; have := hlt 5; have := hlt 6; have := hlt 7
  rw [wordByte_toNat, wordOfBytes, BitVec.toNat_ofNat, little_eight]
  match k, hk with
  | 0, _ | 1, _ | 2, _ | 3, _ | 4, _ | 5, _ | 6, _ | 7, _ => omega

theorem wordOfBytes_wordByte (w : Word) : (wordOfBytes fun k => wordByte w k) = w := by
  apply BitVec.eq_of_toNat_eq
  have hlt := w.isLt
  rw [wordOfBytes, BitVec.toNat_ofNat, little_eight]
  simp only [wordByte_toNat]
  omega

/-- The direct map as bytes. -/
def Machine.bytes (s : Machine) : Memory := fun va =>
  wordByte (s.mem (s.frameOf va) (s.wordOf va)) ((va - s.hhdm_offset) % 8)

def Machine.setBytes (s : Machine) (m : Memory) : Machine :=
  { s with mem := fun f i => if i < 512 then wordOfBytes fun k => m (s.vaOf f + 8 * i + k) else s.mem f i }

/-- Runs a program that works on bytes. -/
def onBytes {α : Type} (c : Prog Memory α) : K α := fun s => (c.run s.bytes).map fun r => (r.1, s.setBytes r.2)

/-- Byte `j` of frame `f`. -/
def Machine.frameByte (s : Machine) (f j : Nat) : Byte := wordByte (s.mem f (j / 8)) (j % 8)

section

variable {s : Machine} {f j n : Nat} {g : Nat → Byte}

theorem bytes_vaOf (hj : j < 4096) : s.bytes (s.vaOf f + j) = s.frameByte f j := by
  have hframe : s.frameOf (s.vaOf f + j) = f := by
    simp only [Machine.frameOf, Machine.vaOf, FRAME_SIZE]; omega
  have hword : s.wordOf (s.vaOf f + j) = j / 8 := by
    simp only [Machine.wordOf, Machine.vaOf, FRAME_SIZE]; omega
  have hbyte : (s.vaOf f + j - s.hhdm_offset) % 8 = j % 8 := by
    simp only [Machine.vaOf, FRAME_SIZE]; omega
  unfold Machine.bytes Machine.frameByte
  rw [hframe, hword, hbyte]

theorem setBytes_other (hn : n ≤ 4096) {h : Nat} (hne : h ≠ f) :
    (s.setBytes (s.bytes.fill (s.vaOf f) n g)).mem h = s.mem h := by
  funext i
  show (if i < 512 then _ else _) = _
  split_ifs with hi
  · rw [← wordOfBytes_wordByte (s.mem h i)]
    apply wordOfBytes_congr
    intro k hk
    have hout : s.vaOf h + 8 * i + k < s.vaOf f ∨ s.vaOf f + n ≤ s.vaOf h + 8 * i + k := by
      simp only [Machine.vaOf, FRAME_SIZE]
      omega
    rw [Memory.fill_other g hout, Nat.add_assoc, bytes_vaOf (by omega), Machine.frameByte,
      show (8 * i + k) / 8 = i by omega, show (8 * i + k) % 8 = k by omega]
  · rfl

theorem setBytes_byte (hj : j < 4096) :
    (s.setBytes (s.bytes.fill (s.vaOf f) n g)).frameByte f j = if j < n then g j else s.frameByte f j := by
  have hword : (s.setBytes (s.bytes.fill (s.vaOf f) n g)).mem f (j / 8) =
      wordOfBytes fun k => s.bytes.fill (s.vaOf f) n g (s.vaOf f + 8 * (j / 8) + k) := if_pos (by omega)
  rw [Machine.frameByte, hword, wordByte_wordOfBytes _ (by omega), Nat.add_assoc, show 8 * (j / 8) + j % 8 = j by omega]
  split_ifs with hlt
  · exact Memory.fill_self g hlt
  · rw [Memory.fill_other g (by omega), bytes_vaOf hj]

end

/-- What the process reads at `va`, if its page is there. -/
def Machine.userByte (s : Machine) (root va : Nat) : Option Byte :=
  (s.pageEntry root (va / FRAME_SIZE)).map fun entry => s.frameByte (entryPpn entry) (va % FRAME_SIZE)

end Kernel
