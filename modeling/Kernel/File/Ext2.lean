import Kernel.File.BlockIO
import Mathlib.Data.Option.Basic

/-!
# The file system (`ext2.h`, `ext2.cc`)

The image does not change, so a node is a value. `none` is a panic. The scan of
a directory takes a bound on its turns, and is `none` where it is not over by then.
-/

namespace Kernel

/-- The value of little-endian bytes. -/
def little (bytes : List Byte) : Nat := bytes.foldr (fun b n => b.toNat + 256 * n) 0

theorem little_lt (bytes : List Byte) : little bytes < 256 ^ bytes.length := by
  induction bytes with
  | nil => exact Nat.one_pos
  | cons b bytes ih =>
    have hb := b.isLt
    have hcons : little (b :: bytes) = b.toNat + 256 * little bytes := rfl
    rw [hcons, List.length_cons, Nat.pow_succ]
    omega

/-- `read(offset, thing)`: the `n` bytes of a local variable. -/
def BlockIO.readThing (d : BlockIO) (offset n : Nat) : Option (List Byte) := do
  let (cnt, m) ← (d.read_all offset n 0).run fun _ => 0
  guard (cnt = n)
  pure ((List.range n).map m)

structure NodeData where
  mode : Nat
  size_low : Nat
  n_sectors : Nat
  /-- `direct0` to `direct11`. -/
  direct : Nat → Nat
  indirect_1 : Nat

def NodeData.get_type (data : NodeData) : Nat := data.mode / 2 ^ 12

def NodeData.is_dir (data : NodeData) : Bool := data.get_type = 4

def NodeData.is_file (data : NodeData) : Bool := data.get_type = 8

/-- The fields of the 128 bytes that `get_node` reads. -/
def NodeData.ofBytes (bytes : List Byte) : NodeData where
  mode := little (bytes.take 2)
  size_low := little ((bytes.drop 4).take 4)
  n_sectors := little ((bytes.drop 28).take 4)
  direct i := little ((bytes.drop (40 + 4 * i)).take 4)
  indirect_1 := little ((bytes.drop 88).take 4)

structure Node where
  number : Nat
  block_size : Nat
  data : NodeData
  device : BlockIO

def Node.read_block (node : Node) (index : Nat) : Option (List Byte) := do
  guard (index < node.data.n_sectors / (node.block_size / 512))
  let refs_per_block := node.block_size / 4
  let block_index ←
    if index < 12 then pure (node.data.direct index)
    else if index < 12 + refs_per_block then do
      let bytes ← node.device.readThing
        (add32 (mul32 node.data.indirect_1 node.block_size) (mul32 (sub32 index 12) 4)) 4
      pure (little bytes)
    else failure
  node.device.readThing (mul32 block_index node.block_size) node.block_size

/-- A node as the `BlockIO` that it is. -/
def Node.io (node : Node) : BlockIO where
  block_size := node.block_size
  size_in_bytes := node.data.size_low
  read_block := node.read_block

/-- One turn of the loop of `entries`: the inode and the name for `work`, and the next offset. -/
def Node.entry (node : Node) (offset : Nat) : Option ((Nat × List Byte) × Nat) := do
  let inode ← node.io.readThing offset 4
  let total_size ← node.io.readThing (add32 offset 4) 2
  let name_length ← node.io.readThing (add32 offset 6) 1
  let name ← node.io.readThing (add32 offset 8) (little name_length)
  pure ((little inode, name), add32 offset (little total_size))

def Node.entries_loop (node : Node) : Nat → Nat → Option (List (Nat × List Byte))
  | 0, _ => none
  | turns + 1, offset =>
    if offset < node.data.size_low then do
      let (e, next) ← node.entry offset
      let rest ← node.entries_loop turns next
      pure (e :: rest)
    else pure []

/-- What `entries` calls `work` with. -/
def Node.entries (node : Node) (turns : Nat) : Option (List (Nat × List Byte)) := do
  guard node.data.is_dir
  node.entries_loop turns 0

/-- A string up to its NUL. -/
def cstring (bytes : List Byte) : List Byte := bytes.takeWhile (· ≠ 0)

/-- The last entry with the name counts. -/
def Node.find (node : Node) (turns : Nat) (name : List Byte) : Option Nat := do
  let entries ← node.entries turns
  pure (entries.foldl (fun out e => if cstring name = cstring e.2 then e.1 else out) 0)

structure Ext2 where
  device : BlockIO
  root : Node
  blockSize : Nat
  numberOfNodes : Nat
  numberOfBlocks : Nat
  iNodeSize : Nat
  nGroups : Nat
  iNodeTables : Nat → Nat
  iNodesPerGroup : Nat

def Ext2.get_node (fs : Ext2) (number : Nat) : Option Node := do
  guard (number > 0)
  guard (number ≤ fs.numberOfNodes)
  let index := sub32 number 1
  let groupIndex := index / fs.iNodesPerGroup
  guard (groupIndex < fs.nGroups)
  let indexInGroup := index % fs.iNodesPerGroup
  let iTableBase := fs.iNodeTables groupIndex
  guard (iTableBase ≤ fs.numberOfBlocks)
  let nodeOffset := add32 (mul32 iTableBase fs.blockSize) (mul32 indexInGroup fs.iNodeSize)
  let data ← fs.device.readThing nodeOffset 128
  pure ⟨number, fs.blockSize, NodeData.ofBytes data, fs.device⟩

/-- `some none` is a null reference. -/
def Ext2.find (fs : Ext2) (turns : Nat) (dir : Node) (name : List Byte) : Option (Option Node) := do
  let number ← dir.find turns name
  if number = 0 then pure none
  else do
    let node ← fs.get_node number
    pure (some node)

theorem Ext2.get_node_number {fs : Ext2} {number : Nat} {node : Node} (h : fs.get_node number = some node) :
    node.number = number ∧ 0 < number := by
  unfold Ext2.get_node at h
  simp only [Option.bind_eq_bind, Option.bind_eq_some_iff, Option.pure_def, Option.some.injEq,
    Option.guard_eq_some'] at h
  obtain ⟨-, hpos, -, -, -, -, -, -, -, -, rfl⟩ := h
  exact ⟨rfl, hpos⟩

theorem Ext2.find_node {fs : Ext2} {turns : Nat} {dir node : Node} {name : List Byte}
    (h : fs.find turns dir name = some (some node)) : fs.get_node node.number = some node ∧ node.number ≠ 0 := by
  unfold Ext2.find at h
  simp only [Option.bind_eq_bind, Option.bind_eq_some_iff, Option.pure_def] at h
  obtain ⟨number, -, h⟩ := h
  split_ifs at h
  · simp at h
  simp only [Option.bind_eq_some_iff, Option.some.injEq] at h
  obtain ⟨node', hnode, rfl⟩ := h
  obtain ⟨hnumber, hpos⟩ := Ext2.get_node_number hnode
  rw [hnumber]
  exact ⟨hnode, by omega⟩

end Kernel
