import Kernel.File.Ext2
import Kernel.File.Strict

/-!
# Blocks of a node (`Node::read_block`)

What `read_block` gives for a block of a valid inode, and for a hole.
-/

namespace Kernel

open Lib

def BlockIO.bytesAt (d : BlockIO) (offset n : Nat) : List Byte := (List.range n).map fun i => d.byte (offset + i)

def BlockIO.word32 (d : BlockIO) (j : Nat) : Nat := little (d.bytesAt j 4)

/-- The block of the device that block `index` of the node is, or 0 for a hole. No block needs two pointers here. -/
def Node.pointer (node : Node) (index : Nat) : Nat :=
  if index < 12 then node.data.direct index
  else if node.data.indirect_1 = 0 then 0
  else node.device.word32 (node.data.indirect_1 * node.block_size + (index - 12) * 4)

/-- The block map of the node stays on the device. -/
structure Node.Valid (node : Node) : Prop where
  device : node.device.Delivers
  block_size : ∃ k, node.block_size = 2 ^ (k + 10)
  direct : ∀ i < 12, (node.data.direct i + 1) * node.block_size ≤ node.device.size_in_bytes
  indirect_1 : (node.data.indirect_1 + 1) * node.block_size ≤ node.device.size_in_bytes
  pointer : ∀ i < 12 + node.block_size / 4, (node.pointer i + 1) * node.block_size ≤ node.device.size_in_bytes

/-- The data and indirect blocks of a node that has no double-indirect one. -/
def Node.allocated (node : Node) : Nat :=
  ((List.range (12 + node.block_size / 4)).filter fun i => node.pointer i ≠ 0).length +
    if node.data.indirect_1 = 0 then 0 else 1

/-- What block `index` of the node holds. -/
def Node.block (node : Node) (index : Nat) : List Byte :=
  if node.pointer index = 0 then List.replicate node.block_size 0
  else node.device.bytesAt (node.pointer index * node.block_size) node.block_size

/--
The block of the device where `read_block` looks for a hole. Without an indirect block it takes a word of block 0
for the pointer.
-/
def Node.holeBlock (node : Node) (index : Nat) : Nat :=
  if 12 ≤ index ∧ node.data.indirect_1 = 0 then node.device.word32 ((index - 12) * 4) else 0

/-- The block of that number is on the device, where its address may have wrapped, and it is zero. -/
def Node.ZeroBlock (node : Node) (p : Nat) : Prop :=
  let start := mul32 p node.block_size
  start + node.block_size ≤ node.device.size_in_bytes ∧ ∀ i < node.block_size, node.device.byte (start + i) = 0

theorem mul32_eq {a b : Nat} (h : a * b < 2 ^ 32) : mul32 a b = a * b := Nat.mod_eq_of_lt h

section

variable {d : BlockIO} {node : Node} {offset n index : Nat}

theorem Memory.map_fill (m : Memory) (n : Nat) (f : Nat → Byte) :
    (List.range n).map (m.fill 0 n f) = (List.range n).map f := by
  refine List.map_congr_left fun i hi => ?_
  have hself : m.fill 0 n f (0 + i) = f i := Memory.fill_self f (List.mem_range.mp hi)
  rwa [Nat.zero_add] at hself

theorem readThing_eq {cnt : Int} {m : Memory} (h : (d.read_all offset n 0).run (fun _ => 0) = some (cnt, m)) :
    d.readThing offset n = if cnt = n then some ((List.range n).map m) else none := by
  unfold BlockIO.readThing
  rw [h]
  split_ifs with hcnt
  · simp [guard, hcnt]
  · simp [guard, hcnt]

theorem BlockIO.Delivers.readThing_spec (h : d.Delivers) (hn : n < 2 ^ 32) :
    d.readThing offset n = if n = 0 ∨ offset + n ≤ d.size_in_bytes then some (d.bytesAt offset n) else none := by
  have hread := (read_all_exact h hn offset 0 fun _ => 0).1
  unfold BlockIO.expected_read at hread
  by_cases hzero : n = 0
  · rw [if_pos hzero] at hread
    rw [readThing_eq hread, if_pos (by omega), if_pos (Or.inl hzero), hzero]
    rfl
  by_cases hgt : d.size_in_bytes < offset
  · rw [if_neg hzero, if_pos hgt] at hread
    rw [readThing_eq hread, if_neg (by omega), if_neg (by omega)]
  · rw [if_neg hzero, if_neg hgt] at hread
    rw [readThing_eq hread]
    by_cases hle : offset + n ≤ d.size_in_bytes
    · have hcount : min n (d.size_in_bytes - offset) = n := by omega
      rw [if_pos (by omega), if_pos (Or.inr hle), hcount, Memory.map_fill]
      rfl
    · rw [if_neg (by omega), if_neg (by omega)]

theorem BlockIO.Delivers.readThing_run (h : d.Delivers) (hin : offset + n ≤ d.size_in_bytes) :
    d.readThing offset n = some (d.bytesAt offset n) := by
  have hsize := h.size_lt
  rw [h.readThing_spec (by omega), if_pos (Or.inr hin)]

theorem bytesAt_eq_zeros : d.bytesAt offset n = List.replicate n 0 ↔ ∀ i < n, d.byte (offset + i) = 0 := by
  unfold BlockIO.bytesAt
  rw [List.eq_replicate_iff]
  simp

theorem Node.Valid.block_size_pos (h : node.Valid) : 0 < node.block_size := by
  obtain ⟨k, hk⟩ := h.block_size
  rw [hk]
  exact Nat.pow_pos (by omega)

theorem Node.Valid.read_block_run (h : node.Valid) (hi : index < 12 + node.block_size / 4)
    (hsectors : index < node.data.n_sectors / (node.block_size / 512)) :
    node.read_block index = node.device.readThing
      (mul32 (if node.pointer index = 0 then node.holeBlock index else node.pointer index) node.block_size)
      node.block_size := by
  have hsize := h.device.size_lt
  have hindirect := h.indirect_1
  unfold Node.read_block
  simp only [guard, if_pos hsectors, Option.bind_eq_bind, Option.pure_def, Option.bind_some]
  by_cases hdirect : index < 12
  · have hblock : (if node.pointer index = 0 then node.holeBlock index else node.pointer index) =
        node.data.direct index := by
      have hpointer : node.pointer index = node.data.direct index := if_pos hdirect
      have hhole : node.holeBlock index = 0 := if_neg fun hc => absurd hc.1 (by omega)
      rw [hpointer, hhole]
      split_ifs with hzero
      · exact hzero.symm
      · rfl
    rw [if_pos hdirect, hblock]
  · have hmul : node.data.indirect_1 * node.block_size + node.block_size ≤ node.device.size_in_bytes := by
      rwa [Nat.succ_mul] at hindirect
    have haddr : add32 (mul32 node.data.indirect_1 node.block_size) (mul32 (sub32 index 12) 4) =
        node.data.indirect_1 * node.block_size + (index - 12) * 4 := by
      rw [sub32_eq (by omega) (by omega), mul32_eq (by omega), mul32_eq (by omega), add32_eq (by omega)]
    have hblock : (if node.pointer index = 0 then node.holeBlock index else node.pointer index) =
        node.device.word32 (node.data.indirect_1 * node.block_size + (index - 12) * 4) := by
      by_cases hzero : node.data.indirect_1 = 0
      · have hpointer : node.pointer index = 0 := by
          unfold Node.pointer
          rw [if_neg hdirect, if_pos hzero]
        have hhole : node.holeBlock index = node.device.word32 ((index - 12) * 4) := if_pos ⟨by omega, hzero⟩
        rw [if_pos hpointer, hhole, hzero, Nat.zero_mul, Nat.zero_add]
      · have hpointer : node.pointer index =
            node.device.word32 (node.data.indirect_1 * node.block_size + (index - 12) * 4) := by
          unfold Node.pointer
          rw [if_neg hdirect, if_neg hzero]
        have hhole : node.holeBlock index = 0 := if_neg fun hc => hzero hc.2
        rw [hpointer, hhole]
        split_ifs with hword
        · exact hword.symm
        · rfl
    rw [if_neg hdirect, if_pos hi, haddr, h.device.readThing_run (by omega), hblock]
    rfl

/-- `read_block` fills the buffer with what block `index` of the node holds. -/
def Node.ReadsBlock (node : Node) (index : Nat) : Prop := node.read_block index = some (node.block index)

/-- A block is read right if it is below the count of blocks in use and, for a hole, the device is zero at its place. -/
theorem reads_block_iff (h : node.Valid) (hi : index < 12 + node.block_size / 4) :
    node.ReadsBlock index ↔ index < node.data.n_sectors / (node.block_size / 512) ∧
      (node.pointer index = 0 → node.ZeroBlock (node.holeBlock index)) := by
  have hsize := h.device.size_lt
  have hpos := h.block_size_pos
  have hpointer := h.pointer index hi
  unfold Node.ReadsBlock
  by_cases hsectors : index < node.data.n_sectors / (node.block_size / 512)
  · rw [h.read_block_run hi hsectors]
    unfold Node.block
    by_cases hhole : node.pointer index = 0
    · have hbs : node.block_size < 2 ^ 32 := by
        rw [hhole, Nat.zero_add, Nat.one_mul] at hpointer
        omega
      rw [if_pos hhole, if_pos hhole, h.device.readThing_spec hbs]
      unfold Node.ZeroBlock
      simp only [hsectors, hhole, true_and, forall_const, ← bytesAt_eq_zeros]
      split_ifs with hin
      · have hle := hin.resolve_left (by omega)
        simp [hle]
      · simp only [false_iff, not_and]
        intro hle
        exact absurd (Or.inr hle) hin
    · rw [Nat.succ_mul] at hpointer
      rw [if_neg hhole, if_neg hhole, mul32_eq (by omega), h.device.readThing_run hpointer]
      simp [hsectors, hhole]
  · have hnone : node.read_block index = none := by
      unfold Node.read_block
      simp [guard, hsectors]
    simp [hnone, hsectors]

end

/-! ## A file that starts with a hole -/

def sevens : BlockIO := ⟨1024, 2048, fun _ => some (List.replicate 1024 7)⟩

/-- Two blocks, of which the first is a hole. -/
def holed : Node where
  number := 12
  block_size := 1024
  data :=
    { mode := 8 * 2 ^ 12, size_low := 2048, n_sectors := 2, direct := fun i => if i = 1 then 1 else 0, indirect_1 := 0 }
  device := sevens

theorem sevens_delivers : sevens.Delivers :=
  ⟨by decide, by decide, by decide, fun _ _ => ⟨_, rfl, List.length_replicate⟩⟩

theorem holed_pointer (i : Nat) : holed.pointer i = if i = 1 then 1 else 0 := by
  unfold Node.pointer
  by_cases hi : i < 12
  · rw [if_pos hi]
    rfl
  · have hindirect : holed.data.indirect_1 = 0 := rfl
    rw [if_neg hi, if_pos hindirect, if_neg (by omega)]

theorem holed_valid : holed.Valid where
  device := sevens_delivers
  block_size := ⟨0, rfl⟩
  direct i _ := by
    show (((if i = 1 then 1 else 0) : Nat) + 1) * 1024 ≤ 2048
    split_ifs <;> decide
  indirect_1 := by decide
  pointer i _ := by
    rw [holed_pointer]
    show (((if i = 1 then 1 else 0) : Nat) + 1) * 1024 ≤ 2048
    split_ifs <;> decide

theorem holed_allocated : holed.data.n_sectors = holed.block_size / 512 * holed.allocated := by
  unfold Node.allocated
  simp only [holed_pointer]
  decide +kernel

theorem holed_not_read : ¬ ∀ (node : Node) (index : Nat), node.Valid →
    node.data.n_sectors = node.block_size / 512 * node.allocated →
    index < (node.data.size_low + node.block_size - 1) / node.block_size → index < 12 + node.block_size / 4 →
    node.ReadsBlock index := by
  intro h
  have hread := h holed 1 holed_valid holed_allocated (by decide) (by decide)
  have hnone : holed.read_block 1 = none := rfl
  unfold Node.ReadsBlock at hread
  rw [hnone] at hread
  cases hread

theorem holed_reads : ¬ holed.ReadsBlock 0 ∧ ¬ holed.ReadsBlock 1 := by
  constructor
  · intro hread
    have hzero := ((reads_block_iff holed_valid (by decide)).mp hread).2 (holed_pointer 0)
    have hbyte := hzero.2 0 (by decide)
    exact absurd hbyte (by decide)
  · intro hread
    exact absurd ((reads_block_iff holed_valid (by decide)).mp hread).1 (by decide)

end Kernel
