import Kernel.File.Holes

/-!
# Mounting, and where the inodes are (`Ext2::Ext2`, `Ext2::get_node`)

The `strict_` functions are the code with the machine stopped wherever a 32-bit
expression wraps.
-/

namespace Kernel

open Lib

structure SuperBlock where
  inodes_count : Nat
  blocks_count : Nat
  log_block_size : Nat
  blocks_per_group : Nat
  inodes_per_group : Nat
  inode_size : Nat
  deriving DecidableEq

/-- The fields that the constructor uses of the 140 bytes. -/
def SuperBlock.ofBytes (bytes : List Byte) : SuperBlock where
  inodes_count := little (bytes.take 4)
  blocks_count := little ((bytes.drop 4).take 4)
  log_block_size := little ((bytes.drop 24).take 4)
  blocks_per_group := little ((bytes.drop 32).take 4)
  inodes_per_group := little ((bytes.drop 40).take 4)
  inode_size := little ((bytes.drop 88).take 2)

/-- `groupTable[i].inode_table`, where a `BlockGroup` has 32 bytes. -/
def inode_table (groupTable : Memory) (i : Nat) : Nat :=
  little ((List.range 4).map fun j => groupTable (32 * i + 8 + j))

/-- `uint32_t(1) << n`, where the machine takes `n` modulo 32. -/
def shl32 (n : Nat) : Nat := 2 ^ (n % 32)

/-- A file system before its root is read. -/
def Ext2.ofSuperBlock (device : BlockIO) (sb : SuperBlock) (blockSize nGroups : Nat) (groupTable : Memory) : Ext2 where
  device := device
  root := ⟨0, blockSize, NodeData.ofBytes [], device⟩
  blockSize := blockSize
  numberOfNodes := sb.inodes_count
  numberOfBlocks := sb.blocks_count
  iNodeSize := sb.inode_size
  nGroups := nGroups
  iNodeTables := inode_table groupTable
  iNodesPerGroup := sb.inodes_per_group

/-- The constructor. -/
def Ext2.mount (device : BlockIO) : Option Ext2 := do
  let bytes ← device.readThing 1024 140
  let sb := SuperBlock.ofBytes bytes
  let blockSize := shl32 (add32 sb.log_block_size 10)
  -- A division by 0 traps.
  guard (0 < sb.blocks_per_group)
  let nGroups := sub32 (add32 sb.blocks_count sb.blocks_per_group) 1 / sb.blocks_per_group
  guard (mul32 nGroups sb.blocks_per_group ≥ sb.blocks_count)
  let superBlockNumber := 1024 / blockSize
  let groupTableNumber := add32 superBlockNumber 1
  let groupTableSize := 32 * nGroups
  let (cnt, groupTable) ←
    (device.read_all (mul32 groupTableNumber blockSize) (groupTableSize % 2 ^ 32) 0).run fun _ => 0
  guard (cnt = groupTableSize)
  let fs := Ext2.ofSuperBlock device sb blockSize nGroups groupTable
  let root ← fs.get_node 2
  pure { fs with root := root }

/-! ## Without wraps -/

def checked_add32 (a b : Nat) : Option Nat := if a + b < 2 ^ 32 then some (a + b) else none
def checked_sub32 (a b : Nat) : Option Nat := if b ≤ a then some (a - b) else none
def checked_mul32 (a b : Nat) : Option Nat := if a * b < 2 ^ 32 then some (a * b) else none

def BlockIO.strict_readThing (d : BlockIO) (offset n : Nat) : Option (List Byte) := do
  let (cnt, m) ← (d.read_all_strict offset n 0).run fun _ => 0
  guard (cnt = n)
  pure ((List.range n).map m)

def Ext2.strict_get_node (fs : Ext2) (number : Nat) : Option Node := do
  guard (number > 0)
  guard (number ≤ fs.numberOfNodes)
  let index ← checked_sub32 number 1
  let groupIndex := index / fs.iNodesPerGroup
  guard (groupIndex < fs.nGroups)
  let indexInGroup := index % fs.iNodesPerGroup
  let iTableBase := fs.iNodeTables groupIndex
  guard (iTableBase ≤ fs.numberOfBlocks)
  let tableOffset ← checked_mul32 iTableBase fs.blockSize
  let slotOffset ← checked_mul32 indexInGroup fs.iNodeSize
  let nodeOffset ← checked_add32 tableOffset slotOffset
  let data ← fs.device.strict_readThing nodeOffset 128
  pure ⟨number, fs.blockSize, NodeData.ofBytes data, fs.device⟩

def Ext2.strict_mount (device : BlockIO) : Option Ext2 := do
  let bytes ← device.strict_readThing 1024 140
  let sb := SuperBlock.ofBytes bytes
  let shift ← checked_add32 sb.log_block_size 10
  guard (shift < 32)
  let blockSize := shl32 shift
  guard (0 < sb.blocks_per_group)
  let sum ← checked_add32 sb.blocks_count sb.blocks_per_group
  let last ← checked_sub32 sum 1
  let nGroups := last / sb.blocks_per_group
  let covered ← checked_mul32 nGroups sb.blocks_per_group
  guard (covered ≥ sb.blocks_count)
  let superBlockNumber := 1024 / blockSize
  let groupTableNumber ← checked_add32 superBlockNumber 1
  let groupTableSize ← checked_mul32 32 nGroups
  let groupTableOffset ← checked_mul32 groupTableNumber blockSize
  let (cnt, groupTable) ← (device.read_all_strict groupTableOffset groupTableSize 0).run fun _ => 0
  guard (cnt = groupTableSize)
  let fs := Ext2.ofSuperBlock device sb blockSize nGroups groupTable
  let root ← fs.strict_get_node 2
  pure { fs with root := root }

section

variable {a b c n offset : Nat} {d : BlockIO}

@[simp] theorem guard_run {p : Prop} [Decidable p] (h : p) : (guard p : Option Unit) = some () := by
  simp [guard, h]

theorem checked_add32_eq (h : a + b < 2 ^ 32) : checked_add32 a b = some (add32 a b) := by
  rw [checked_add32, if_pos h, add32_eq h]

theorem checked_sub32_eq (h : b ≤ a) (ha : a < 2 ^ 32) : checked_sub32 a b = some (sub32 a b) := by
  rw [checked_sub32, if_pos h, sub32_eq h ha]

theorem checked_mul32_eq (h : a * b < 2 ^ 32) : checked_mul32 a b = some (mul32 a b) := by
  rw [checked_mul32, if_pos h, mul32_eq h]

theorem BlockIO.Delivers.strict_readThing_eq (h : d.Delivers) (hn : n < 2 ^ 32) :
    d.strict_readThing offset n = d.readThing offset n := by
  obtain ⟨hread, hstrict⟩ := read_all_exact h hn offset 0 fun _ => 0
  unfold BlockIO.strict_readThing BlockIO.readThing
  rw [hread, hstrict]

end

/-! ## The geometry of a file system -/

structure Layout where
  log_block_size : Nat
  blocks_count : Nat
  blocks_per_group : Nat
  inodes_per_group : Nat
  inode_size : Nat
  groups : Nat
  /-- The first block of the inode table of a group. -/
  table : Nat → Nat

namespace Layout

variable (g : Layout)

def block_size : Nat := 1024 * 2 ^ g.log_block_size

def inodes_count : Nat := g.inodes_per_group * g.groups

/-- The block of the superblock, which is at 1024. -/
def first_data_block : Nat := if g.log_block_size = 0 then 1 else 0

/-- The descriptors are in the block after the superblock's. -/
def descriptors : Nat := (g.first_data_block + 1) * g.block_size

/-- Where the record of inode `n` is. -/
def record (n : Nat) : Nat :=
  g.table ((n - 1) / g.inodes_per_group) * g.block_size + (n - 1) % g.inodes_per_group * g.inode_size

def superBlock : SuperBlock where
  inodes_count := g.inodes_count
  blocks_count := g.blocks_count
  log_block_size := g.log_block_size
  blocks_per_group := g.blocks_per_group
  inodes_per_group := g.inodes_per_group
  inode_size := g.inode_size

end Layout

/-- A valid layout of less than 4 GiB. -/
structure Geometry extends Layout where
  size_lt : blocks_count * toLayout.block_size < 2 ^ 32
  blocks_per_group_pos : 0 < blocks_per_group
  /-- No bitmap of one block has more bits, up to blocks of 256 MiB. -/
  blocks_per_group_le : blocks_per_group ≤ 2 ^ 31
  /-- With or without block 0, which may be in no group. -/
  groups_le : groups ≤ (blocks_count + blocks_per_group - 1) / blocks_per_group
  /-- There is a root directory. -/
  root : 2 ≤ toLayout.inodes_count
  inode_size_le : 128 ≤ inode_size
  descriptors_in : toLayout.descriptors + 32 * groups ≤ blocks_count * toLayout.block_size
  table_in : ∀ i < groups, table i * toLayout.block_size + inodes_per_group * inode_size ≤
    blocks_count * toLayout.block_size
  table_disjoint : ∀ i < groups, ∀ j < groups, i ≠ j →
    table i * toLayout.block_size + inodes_per_group * inode_size ≤ table j * toLayout.block_size ∨
    table j * toLayout.block_size + inodes_per_group * inode_size ≤ table i * toLayout.block_size

/-- The device has a file system of that geometry. -/
structure Geometry.On (g : Geometry) (d : BlockIO) : Prop where
  device : d.Delivers
  size : g.blocks_count * g.block_size ≤ d.size_in_bytes
  superBlock : SuperBlock.ofBytes (d.bytesAt 1024 140) = g.superBlock
  descriptor : ∀ i < g.groups, d.word32 (g.descriptors + 32 * i + 8) = g.table i

namespace Geometry

variable (g : Geometry) {n m : Nat}

theorem inodes_per_group_pos : 0 < g.inodes_per_group := by
  have hroot := g.root
  unfold Layout.inodes_count at hroot
  rcases Nat.eq_zero_or_pos g.inodes_per_group with hzero | hpos
  · rw [hzero, Nat.zero_mul] at hroot
    omega
  · exact hpos

theorem group_lt (hn : 1 ≤ n) (hle : n ≤ g.inodes_count) : (n - 1) / g.inodes_per_group < g.groups := by
  rw [Nat.div_lt_iff_lt_mul g.inodes_per_group_pos, Nat.mul_comm]
  unfold Layout.inodes_count at hle
  omega

theorem record_in_table (n : Nat) :
    g.record n + g.inode_size ≤
      g.table ((n - 1) / g.inodes_per_group) * g.block_size + g.inodes_per_group * g.inode_size := by
  have hslot := Nat.mod_lt (n - 1) g.inodes_per_group_pos
  have hmul := Nat.mul_le_mul_right g.inode_size hslot
  rw [Nat.succ_mul] at hmul
  unfold Layout.record
  omega

theorem record_in (hn : 1 ≤ n) (hle : n ≤ g.inodes_count) :
    g.record n + 128 ≤ g.blocks_count * g.block_size := by
  have htable := g.table_in _ (g.group_lt hn hle)
  have hrecord := g.record_in_table n
  have hsize := g.inode_size_le
  omega

theorem record_disjoint (hn : 1 ≤ n) (hnle : n ≤ g.inodes_count) (hm : 1 ≤ m) (hmle : m ≤ g.inodes_count)
    (hne : m ≠ n) : g.record n + 128 ≤ g.record m ∨ g.record m + 128 ≤ g.record n := by
  have hsize := g.inode_size_le
  have hrn := g.record_in_table n
  have hrm := g.record_in_table m
  by_cases hgroup : (n - 1) / g.inodes_per_group = (m - 1) / g.inodes_per_group
  · -- One table: the slots differ.
    have hdn := Nat.div_add_mod (n - 1) g.inodes_per_group
    have hdm := Nat.div_add_mod (m - 1) g.inodes_per_group
    rw [hgroup] at hdn
    unfold Layout.record
    rw [hgroup]
    rcases Nat.lt_or_gt_of_ne (show (n - 1) % g.inodes_per_group ≠ (m - 1) % g.inodes_per_group by omega) with hlt | hgt
    · have hmul := Nat.mul_le_mul_right g.inode_size hlt
      rw [Nat.succ_mul] at hmul
      omega
    · have hmul := Nat.mul_le_mul_right g.inode_size hgt
      rw [Nat.succ_mul] at hmul
      omega
  · have htables := g.table_disjoint _ (g.group_lt hn hnle) _ (g.group_lt hm hmle) hgroup
    unfold Layout.record at hrn hrm ⊢
    omega

/-! ## The constructor -/

def nGroups : Nat := (g.blocks_count + g.blocks_per_group - 1) / g.blocks_per_group

theorem groups_pos : 0 < g.groups := by
  have hroot := g.root
  unfold Layout.inodes_count at hroot
  rcases Nat.eq_zero_or_pos g.groups with hzero | hpos
  · rw [hzero, Nat.mul_zero] at hroot
    omega
  · exact hpos

theorem le_block_size : 1024 ≤ g.block_size := Nat.le_mul_of_pos_right _ (Nat.two_pow_pos _)

theorem first_data_block_lt : g.first_data_block + 1 < g.blocks_count := by
  have hin := g.descriptors_in
  have hpos := g.groups_pos
  unfold Layout.descriptors at hin
  exact Nat.lt_of_mul_lt_mul_right (a := g.block_size) (by omega)

theorem log_block_size_lt : g.log_block_size + 10 < 32 := by
  have hlt := g.size_lt
  have hblocks := g.first_data_block_lt
  have htwo := Nat.mul_le_mul_right g.block_size (show 2 ≤ g.blocks_count by omega)
  unfold Layout.block_size at hlt htwo
  by_contra hge
  have hpow := Nat.pow_le_pow_right (show 0 < 2 by omega) (show 22 ≤ g.log_block_size by omega)
  omega

theorem block_size_eq : shl32 (g.log_block_size + 10) = g.block_size := by
  unfold shl32 Layout.block_size
  rw [Nat.mod_eq_of_lt g.log_block_size_lt, Nat.pow_add, Nat.mul_comm]

theorem superBlockNumber_eq : 1024 / g.block_size = g.first_data_block := by
  unfold Layout.block_size Layout.first_data_block
  split_ifs with hzero
  · simp [hzero]
  · have hpow := Nat.pow_le_pow_right (show 0 < 2 by omega) (show 1 ≤ g.log_block_size by omega)
    exact Nat.div_eq_of_lt (by omega)

theorem nGroups_mul : g.blocks_count ≤ g.nGroups * g.blocks_per_group ∧
    g.nGroups * g.blocks_per_group ≤ g.blocks_count + g.blocks_per_group - 1 := by
  have hdm := Nat.div_add_mod' (g.blocks_count + g.blocks_per_group - 1) g.blocks_per_group
  have hmod := Nat.mod_lt (g.blocks_count + g.blocks_per_group - 1) g.blocks_per_group_pos
  unfold nGroups
  omega

/-- One descriptor for each group is on the image, also if the code counts a group too many. -/
theorem groupTable_in : g.descriptors + 32 * g.nGroups ≤ g.blocks_count * g.block_size := by
  have hblocks := g.first_data_block_lt
  have hle : g.nGroups ≤ g.blocks_count := by
    have hmul := Nat.le_mul_of_pos_right g.nGroups g.blocks_per_group_pos
    have hpos := g.blocks_per_group_pos
    unfold nGroups
    rw [Nat.div_le_iff_le_mul hpos]
    have hblock := Nat.le_mul_of_pos_right g.blocks_count hpos
    omega
  obtain ⟨rest, hrest⟩ := Nat.exists_eq_add_of_lt hblocks
  have hbs := g.le_block_size
  unfold Layout.descriptors
  rw [hrest] at hle ⊢
  have hmul := Nat.mul_le_mul_left (rest + 1) hbs
  have hsplit : (g.first_data_block + 1 + rest + 1) * g.block_size =
      (g.first_data_block + 1) * g.block_size + (rest + 1) * g.block_size := by
    rw [← Nat.add_mul, Nat.add_assoc]
  have hfirst : g.first_data_block ≤ 1 := by
    unfold Layout.first_data_block
    split_ifs <;> omega
  omega

/-- The object that the constructor makes. -/
structure Mounted (d : BlockIO) (fs : Ext2) : Prop where
  device : fs.device = d
  blockSize : fs.blockSize = g.block_size
  numberOfNodes : fs.numberOfNodes = g.inodes_count
  numberOfBlocks : fs.numberOfBlocks = g.blocks_count
  iNodeSize : fs.iNodeSize = g.inode_size
  nGroups : fs.nGroups = g.nGroups
  iNodesPerGroup : fs.iNodesPerGroup = g.inodes_per_group
  iNodeTables : ∀ i < g.groups, fs.iNodeTables i = g.table i

/-- Inode `n`, as it is on the device. -/
def inode (d : BlockIO) (n : Nat) : Node := ⟨n, g.block_size, NodeData.ofBytes (d.bytesAt (g.record n) 128), d⟩

variable {g} {d : BlockIO} {fs : Ext2}

theorem Mounted.get_node_run (h : g.Mounted d fs) (hon : g.On d) (hn : 1 ≤ n) (hle : n ≤ g.inodes_count)
    (hcount : g.inodes_count < 2 ^ 32) :
    fs.get_node n = some (g.inode d n) ∧ fs.strict_get_node n = some (g.inode d n) := by
  have hgroup := g.group_lt hn hle
  have hgroups : g.groups ≤ g.nGroups := g.groups_le
  have hrecord := g.record_in_table n
  have htable := g.table_in _ hgroup
  have hin := g.record_in hn hle
  have hsize := hon.size
  have hlt := g.size_lt
  have hbs := g.le_block_size
  have htable_le : g.table ((n - 1) / g.inodes_per_group) * g.block_size ≤ g.blocks_count * g.block_size := by omega
  have hbase : g.table ((n - 1) / g.inodes_per_group) ≤ g.blocks_count :=
    Nat.le_of_mul_le_mul_right htable_le (by omega)
  have hoffset : g.table ((n - 1) / g.inodes_per_group) * g.block_size +
      (n - 1) % g.inodes_per_group * g.inode_size = g.record n := rfl
  have hread := hon.device.readThing_run (show g.record n + 128 ≤ _ by omega)
  unfold Ext2.get_node Ext2.strict_get_node
  rw [h.numberOfNodes, h.iNodesPerGroup, h.nGroups, h.numberOfBlocks, h.blockSize, h.iNodeSize, h.device,
    checked_sub32_eq hn (by omega), sub32_eq hn (by omega)]
  simp only [Option.bind_eq_bind, Option.bind_some, guard_run (show n > 0 by omega), guard_run hle,
    guard_run (Nat.lt_of_lt_of_le hgroup hgroups), h.iNodeTables _ hgroup, guard_run hbase, Option.pure_def]
  have htable_lt : g.table ((n - 1) / g.inodes_per_group) * g.block_size < 2 ^ 32 := by omega
  have hslot_lt : (n - 1) % g.inodes_per_group * g.inode_size < 2 ^ 32 := by omega
  rw [checked_mul32_eq htable_lt, checked_mul32_eq hslot_lt, mul32_eq htable_lt, mul32_eq hslot_lt]
  simp only [Option.bind_some]
  rw [checked_add32_eq (by omega), add32_eq (by omega), hoffset, Option.bind_some,
    hon.device.strict_readThing_eq (by omega), hread]
  exact ⟨rfl, rfl⟩

theorem On.groupTable_run (hon : g.On d) : ∃ groupTable : Memory,
    (d.read_all g.descriptors (32 * g.nGroups) 0).run (fun _ => 0) =
      some (((32 * g.nGroups : Nat) : Int), groupTable) ∧
    (d.read_all_strict g.descriptors (32 * g.nGroups) 0).run (fun _ => 0) =
      some (((32 * g.nGroups : Nat) : Int), groupTable) ∧
    ∀ i < g.groups, inode_table groupTable i = g.table i := by
  have hsize := hon.size
  have hlt := g.size_lt
  have hin := g.groupTable_in
  have hgroups : g.groups ≤ g.nGroups := g.groups_le
  have hpos := g.groups_pos
  obtain ⟨hread, hstrict⟩ := read_all_exact hon.device (n := 32 * g.nGroups) (by omega) g.descriptors 0 fun _ => 0
  have hexpected : d.expected_read g.descriptors (32 * g.nGroups) 0 (fun _ => 0) = (((32 * g.nGroups : Nat) : Int),
      Memory.fill (fun _ => 0) 0 (32 * g.nGroups) fun i => d.byte (g.descriptors + i)) := by
    unfold BlockIO.expected_read
    rw [if_neg (by omega), if_neg (by omega), Nat.min_eq_left (by omega)]
  rw [hexpected] at hread hstrict
  refine ⟨_, hread, hstrict, fun i hi => ?_⟩
  have hbytes : (List.range 4).map (fun j => Memory.fill (fun _ => 0) 0 (32 * g.nGroups)
      (fun i => d.byte (g.descriptors + i)) (32 * i + 8 + j)) = d.bytesAt (g.descriptors + 32 * i + 8) 4 := by
    refine List.map_congr_left fun j hj => ?_
    have hj := List.mem_range.mp hj
    have hself := @Memory.fill_self (fun _ => 0) (32 * g.nGroups) 0
      (fun i => d.byte (g.descriptors + i)) (i := 32 * i + 8 + j) (by omega)
    rw [Nat.zero_add] at hself
    rw [hself]
    congr 1
    omega
  unfold inode_table
  rw [hbytes]
  exact hon.descriptor i hi

theorem On.inodes_count_lt (hon : g.On d) : g.inodes_count < 2 ^ 32 := by
  have hcount : little ((d.bytesAt 1024 140).take 4) = g.inodes_count :=
    congrArg SuperBlock.inodes_count hon.superBlock
  have hfield := little_lt ((d.bytesAt 1024 140).take 4)
  rw [hcount] at hfield
  exact Nat.lt_of_lt_of_le hfield (Nat.pow_le_pow_right (by omega) (List.length_take_le 4 _))

theorem On.superBlock_run (hon : g.On d) : d.readThing 1024 140 = some (d.bytesAt 1024 140) := by
  have hsize := hon.size
  have hblocks := g.first_data_block_lt
  have hbs := g.le_block_size
  have hmul := Nat.mul_le_mul_right g.block_size (show 2 ≤ g.blocks_count by omega)
  refine hon.device.readThing_run ?_
  omega

theorem On.mount_run (hon : g.On d) : ∃ fs, Ext2.mount d = some fs ∧ Ext2.strict_mount d = some fs ∧
    g.Mounted d fs := by
  obtain ⟨groupTable, hread, hstrict, htables⟩ := hon.groupTable_run
  set fs := Ext2.ofSuperBlock d g.superBlock g.block_size g.nGroups groupTable with hfs
  have hmounted : g.Mounted d fs := ⟨rfl, rfl, rfl, rfl, rfl, rfl, rfl, htables⟩
  obtain ⟨hroot, hroot_strict⟩ := hmounted.get_node_run hon (by omega) g.root hon.inodes_count_lt
  have hlt := g.size_lt
  have hin := g.groupTable_in
  have hblocks := g.first_data_block_lt
  have hmul := Nat.mul_le_mul_left g.blocks_count g.le_block_size
  have hper := g.blocks_per_group_le
  have hpos := g.blocks_per_group_pos
  obtain ⟨hcovers, hcover_le⟩ := g.nGroups_mul
  have hshift := g.log_block_size_lt
  have hgroups : (g.blocks_count + g.blocks_per_group - 1) / g.blocks_per_group = g.nGroups := rfl
  have hoffset : (g.first_data_block + 1) * g.block_size = g.descriptors := rfl
  have hshift_add : add32 g.log_block_size 10 = g.log_block_size + 10 := add32_eq (by omega)
  have hsum : add32 g.blocks_count g.blocks_per_group = g.blocks_count + g.blocks_per_group := add32_eq (by omega)
  have hlast : sub32 (g.blocks_count + g.blocks_per_group) 1 = g.blocks_count + g.blocks_per_group - 1 :=
    sub32_eq (by omega) (by omega)
  have hcovered : mul32 g.nGroups g.blocks_per_group = g.nGroups * g.blocks_per_group := mul32_eq (by omega)
  have hnumber : add32 g.first_data_block 1 = g.first_data_block + 1 := add32_eq (by omega)
  have htable_offset : mul32 (g.first_data_block + 1) g.block_size = g.descriptors := mul32_eq (by omega)
  have htable_size : 32 * g.nGroups % 2 ^ 32 = 32 * g.nGroups := Nat.mod_eq_of_lt (by omega)
  have hlog : g.superBlock.log_block_size = g.log_block_size := rfl
  have hcount : g.superBlock.blocks_count = g.blocks_count := rfl
  have hbpg : g.superBlock.blocks_per_group = g.blocks_per_group := rfl
  refine ⟨{ fs with root := g.inode d 2 }, ?_, ?_, ⟨rfl, rfl, rfl, rfl, rfl, rfl, rfl, htables⟩⟩
  · unfold Ext2.mount
    simp only [hon.superBlock_run, Option.bind_eq_bind, Option.bind_some, hon.superBlock, hlog, hcount, hbpg,
      guard_run hpos, hshift_add, g.block_size_eq, hsum, hlast, hgroups, hcovered, guard_run hcovers,
      g.superBlockNumber_eq, hnumber, htable_offset, htable_size, hread, guard_run, ← hfs, hroot, Option.pure_def]
  · unfold Ext2.strict_mount
    simp only [hon.device.strict_readThing_eq (show 140 < 2 ^ 32 by omega), hon.superBlock_run, Option.bind_eq_bind,
      Option.bind_some, hon.superBlock, hlog, hcount, hbpg, guard_run hpos,
      checked_add32_eq (show g.log_block_size + 10 < 2 ^ 32 by omega), hshift_add, guard_run hshift, g.block_size_eq,
      checked_add32_eq (show g.blocks_count + g.blocks_per_group < 2 ^ 32 by omega), hsum,
      checked_sub32_eq (show 1 ≤ g.blocks_count + g.blocks_per_group by omega)
        (show g.blocks_count + g.blocks_per_group < 2 ^ 32 by omega), hlast, hgroups,
      checked_mul32_eq (show g.nGroups * g.blocks_per_group < 2 ^ 32 by omega), hcovered, guard_run hcovers,
      g.superBlockNumber_eq, checked_add32_eq (show g.first_data_block + 1 < 2 ^ 32 by omega), hnumber,
      checked_mul32_eq (show 32 * g.nGroups < 2 ^ 32 by omega), mul32_eq (show 32 * g.nGroups < 2 ^ 32 by omega),
      checked_mul32_eq (show (g.first_data_block + 1) * g.block_size < 2 ^ 32 by omega), htable_offset, hstrict,
      guard_run, ← hfs, hroot_strict, Option.pure_def]

end Geometry

/--
The constructor takes the inode tables from the right descriptors, and `get_node` the right 128 bytes; nothing wraps
and no assertion fails. No two inodes share a byte.
-/
theorem mount_get_node (g : Geometry) {d : BlockIO} (h : g.On d) : ∃ fs, Ext2.mount d = some fs ∧
    Ext2.strict_mount d = some fs ∧ (∀ i < g.groups, fs.iNodeTables i = g.table i) ∧
    ∀ n, 1 ≤ n → n ≤ g.inodes_count →
      fs.get_node n = some (g.inode d n) ∧ fs.strict_get_node n = some (g.inode d n) ∧
      ∀ m, 1 ≤ m → m ≤ g.inodes_count → m ≠ n → g.record n + 128 ≤ g.record m ∨ g.record m + 128 ≤ g.record n := by
  obtain ⟨fs, hmount, hstrict, hmounted⟩ := h.mount_run
  refine ⟨fs, hmount, hstrict, hmounted.iNodeTables, fun n hn hle => ?_⟩
  obtain ⟨hget, hget_strict⟩ := hmounted.get_node_run h hn hle h.inodes_count_lt
  exact ⟨hget, hget_strict, fun m hm hmle hne => g.record_disjoint hn hle hm hmle hne⟩

/-! ## Two groups, which the code counts as three -/

def twoGroups : Geometry where
  log_block_size := 0
  blocks_count := 33
  blocks_per_group := 16
  inodes_per_group := 8
  inode_size := 128
  groups := 2
  table i := if i = 0 then 5 else 20
  size_lt := by decide
  blocks_per_group_pos := by decide
  blocks_per_group_le := by decide
  groups_le := by decide
  root := by decide
  inode_size_le := by decide
  descriptors_in := by decide
  table_in := by decide
  table_disjoint := by decide

def twoGroupsBlock (b : Nat) : List Byte :=
  let bytes : List Byte :=
    if b = 1 then [16, 0, 0, 0, 33, 0, 0, 0] ++ List.replicate 24 0 ++ [16, 0, 0, 0, 0, 0, 0, 0, 8, 0, 0, 0] ++
      List.replicate 44 0 ++ [128, 0]
    else if b = 2 then List.replicate 8 0 ++ [5, 0, 0, 0] ++ List.replicate 28 0 ++ [20, 0, 0, 0]
    else []
  bytes ++ List.replicate (1024 - bytes.length) 0

def twoGroupsDevice : BlockIO := ⟨1024, 33 * 1024, fun b => some (twoGroupsBlock b)⟩

theorem twoGroups_on : twoGroups.On twoGroupsDevice where
  device := ⟨by decide, by decide, by decide, fun b _ => ⟨_, rfl, by
    show (twoGroupsBlock b).length = 1024
    unfold twoGroupsBlock
    rw [List.length_append, List.length_replicate]
    apply Nat.add_sub_cancel'
    split_ifs <;> decide⟩⟩
  size := by decide
  superBlock := by decide +kernel
  descriptor := by decide +kernel

theorem twoGroups_get_node : ∃ fs, Ext2.mount twoGroupsDevice = some fs ∧
    fs.get_node 11 = some (twoGroups.inode twoGroupsDevice 11) := by
  obtain ⟨fs, hmount, -, -, hnodes⟩ := mount_get_node twoGroups twoGroups_on
  exact ⟨fs, hmount, (hnodes 11 (by decide) (by decide)).1⟩

end Kernel
