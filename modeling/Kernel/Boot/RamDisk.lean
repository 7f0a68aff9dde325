import Kernel.File.Stores

/-!
# The RAM disk (`ramdisk.cc`)

A module that the boot loader has put in memory, as a device. The kernel makes it with no delay.
-/

namespace Kernel

open Lib

/-- The fields of a `limine_file` that the kernel uses. -/
structure LimineFile where
  path : List Byte
  address : Nat
  size : Nat

/-- The loop of `find_module`: the first module with the path. -/
def find_module : List LimineFile → List Byte → Option LimineFile
  | [], _ => none
  | m :: modules, module_name =>
      if cstring m.path = cstring module_name then some m else find_module modules module_name

def BlockIO.size_in_blocks (size_in_bytes block_size : Nat) : Nat :=
  sub32 (add32 size_in_bytes block_size) 1 / block_size

namespace RamDisk

def block_size : Nat := 512

def size_in_bytes (mod : LimineFile) : Nat := mod.size % 2 ^ 32

def read_block (memory : Memory) (mod : LimineFile) (block : Nat) : Option (List Byte) := do
  guard (block < BlockIO.size_in_blocks (size_in_bytes mod) block_size)
  let offset := mul32 block_size block
  pure (bytesOf memory (mod.address + offset) block_size)

/-- The disk as the `BlockIO` that it is. -/
def io (memory : Memory) (mod : LimineFile) : BlockIO where
  block_size := block_size
  size_in_bytes := size_in_bytes mod
  read_block := read_block memory mod

variable {memory : Memory} {mod : LimineFile} {block j : Nat}

theorem size_in_blocks_eq (h : mod.size + 511 < 2 ^ 32) :
    BlockIO.size_in_blocks (size_in_bytes mod) block_size = (mod.size + 511) / 512 := by
  unfold BlockIO.size_in_blocks size_in_bytes block_size add32 sub32
  omega

theorem read_block_run (h : mod.size + 511 < 2 ^ 32) (hb : block * 512 < mod.size) :
    read_block memory mod block = some (bytesOf memory (mod.address + block * 512) 512) := by
  have hmul : mul32 block_size block = block * 512 := by
    unfold mul32 block_size
    omega
  unfold read_block
  rw [size_in_blocks_eq h, hmul]
  simp only [guard, if_pos (show block < (mod.size + 511) / 512 by omega), Option.bind_eq_bind, Option.pure_def,
    Option.bind_some]
  rfl

/-- The size is rounded up in 32 bits, so a module that ends less than a block below 4 GiB has no blocks. -/
theorem io_delivers_iff (hsize : mod.size < 2 ^ 32) :
    (io memory mod).Delivers ↔ mod.size = 0 ∨ mod.size + 511 < 2 ^ 32 := by
  have hbytes : size_in_bytes mod = mod.size := Nat.mod_eq_of_lt hsize
  constructor
  · intro h
    by_contra hno
    have hpos : 0 < size_in_bytes mod := by
      rw [hbytes]
      omega
    obtain ⟨bytes, hread, -⟩ := h.block 0 (by rw [Nat.zero_mul]; exact hpos)
    have hread : read_block memory mod 0 = some bytes := hread
    have hnone : BlockIO.size_in_blocks (size_in_bytes mod) block_size = 0 := by
      rw [hbytes]
      unfold BlockIO.size_in_blocks block_size add32 sub32
      omega
    unfold read_block at hread
    rw [hnone] at hread
    simp [guard] at hread
  · intro h
    refine ⟨show 0 < 512 by omega, show 512 < 2 ^ 32 by omega, ?_, fun i hi => ?_⟩
    · show size_in_bytes mod < 2 ^ 32
      omega
    · have hi : i * 512 < size_in_bytes mod := hi
      exact ⟨_, read_block_run (by omega) (by omega), length_bytesOf⟩

theorem io_byte (h : mod.size + 511 < 2 ^ 32) (hj : j < mod.size) :
    (io memory mod).byte j = memory (mod.address + j) := by
  have hmod := Nat.mod_lt j (show 512 > 0 by omega)
  have hdm := Nat.div_add_mod' j 512
  unfold BlockIO.byte
  show ((read_block memory mod (j / 512)).getD []).getD (j % 512) 0 = _
  rw [read_block_run h (by omega)]
  unfold bytesOf
  simp only [Option.getD_some, List.getD_eq_getElem?_getD, List.getElem?_map, List.getElem?_range hmod, Option.map_some]
  rw [Nat.add_assoc, hdm]

end RamDisk

end Kernel
