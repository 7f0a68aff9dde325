import Kernel.File.Holes

/-!
# What a node stores

The content of a node without holes, and what is read of it.
-/

namespace Kernel

open Lib

/-- `node` is a valid inode without holes, and `content` are its bytes. -/
structure Node.Stores (node : Node) (content : Nat → Byte) : Prop extends node.Valid where
  size_lt : node.data.size_low < 2 ^ 32
  /-- The sectors of every block are counted. -/
  sectors : ∀ i, i * node.block_size < node.data.size_low → i < node.data.n_sectors / (node.block_size / 512)
  mapped : ∀ i < 12 + node.block_size / 4, i * node.block_size < node.data.size_low → node.pointer i ≠ 0
  stored : ∀ i < 12 + node.block_size / 4, i * node.block_size < node.data.size_low → ∀ j < node.block_size,
    content (i * node.block_size + j) = node.device.byte (node.pointer i * node.block_size + j)

/-- The bytes that `read_block` can reach: no block behind a double-indirect pointer. -/
def Node.reach (node : Node) : Nat := (12 + node.block_size / 4) * node.block_size

def bytesOf (content : Nat → Byte) (offset n : Nat) : List Byte := (List.range n).map fun i => content (offset + i)

section

variable {d : BlockIO} {node : Node} {content : Nat → Byte} {offset n : Nat}

@[simp] theorem length_bytesOf : (bytesOf content offset n).length = n := by
  unfold bytesOf
  rw [List.length_map, List.length_range]

theorem readThing_block {bytes : List Byte} (hpos : 0 < d.block_size) (hblock : d.block_size < 2 ^ 32)
    (hsize : d.size_in_bytes < 2 ^ 32) (hbytes : d.read_block (offset / d.block_size) = some bytes)
    (hlen : bytes.length = d.block_size) (hin : offset % d.block_size + n ≤ d.block_size)
    (hend : offset + n ≤ d.size_in_bytes) : d.readThing offset n = some (d.bytesAt offset n) := by
  rcases Nat.eq_zero_or_pos n with rfl | hn
  · rfl
  have hread := BlockIO.read_run hpos hblock hsize hbytes hlen (by omega) n 0 fun _ => 0
  have hcount : min (d.block_size - offset % d.block_size) (min n (d.size_in_bytes - offset)) = n := by omega
  simp only [hcount] at hread
  have hall : (d.read_all offset n 0).run (fun _ => 0) =
      some ((n : Int), Memory.fill (fun _ => 0) 0 n fun i => d.byte (offset + i)) := by
    unfold BlockIO.read_all BlockIO.read_all_loop
    rw [if_pos hn, Prog.bind_run hread, if_neg (by omega), if_neg (by omega), Int.toNat_natCast,
      sub32_eq (Nat.le_refl n) (by omega), Nat.sub_self, Int.zero_add]
    cases n with
    | zero => omega
    | succ n => rfl
  rw [readThing_eq hall, if_pos rfl, Memory.map_fill]
  rfl

theorem readThing_none (hnone : d.read_block (offset / d.block_size) = none) (hn : 0 < n)
    (ho : offset < d.size_in_bytes) : d.readThing offset n = none := by
  have hblock : ∀ m, (d.block (offset / d.block_size)).run m = none := fun m => by
    unfold BlockIO.block
    rw [hnone]
    rfl
  have hread : ∀ m, (d.read offset n 0).run m = none := fun m => by
    rw [Option.eq_none_iff_forall_ne_some]
    rintro ⟨cnt, u⟩ hrun
    unfold BlockIO.read at hrun
    rw [if_neg (by omega), if_neg (by omega)] at hrun
    obtain ⟨-, hrun⟩ := Prog.assert_bind_some hrun
    obtain ⟨-, hrun⟩ := Prog.assert_bind_some hrun
    split_ifs at hrun
    · obtain ⟨-, hrun⟩ := Prog.assert_bind_some hrun
      obtain ⟨_, _, hb, -⟩ := Prog.run_bind.mp hrun
      rw [hblock] at hb
      cases hb
    · obtain ⟨-, hrun⟩ := Prog.assert_bind_some hrun
      obtain ⟨_, _, hb, -⟩ := Prog.run_bind.mp hrun
      rw [hblock] at hb
      cases hb
  unfold BlockIO.readThing BlockIO.read_all BlockIO.read_all_loop
  rw [if_pos hn, StateT.run_bind, hread]
  rfl

/-- The first `limit` bytes of the device can be read. -/
structure BlockIO.DeliversTo (d : BlockIO) (limit : Nat) : Prop where
  block_size_pos : 0 < d.block_size
  block_size_lt : d.block_size < 2 ^ 32
  size_lt : d.size_in_bytes < 2 ^ 32
  limit_le : limit ≤ d.size_in_bytes
  block : ∀ i, i * d.block_size < limit → ∃ bytes, d.read_block i = some bytes ∧ bytes.length = d.block_size

theorem BlockIO.DeliversTo.read_all_loop_run {limit turns buffer : Nat} (h : d.DeliversTo limit) (ht : n < turns)
    (hin : offset + n ≤ limit) (total : Int) (m : Memory) :
    (d.read_all_loop turns total offset n buffer).run m =
      some (total + n, m.fill buffer n fun i => d.byte (offset + i)) := by
  have hsize := h.size_lt
  have hlimit := h.limit_le
  induction turns generalizing total offset n buffer m with
  | zero => omega
  | succ turns ih =>
    unfold BlockIO.read_all_loop
    split_ifs with hpos
    · have hdiv := Nat.div_mul_le_self offset d.block_size
      obtain ⟨bytes, hbytes, hlen⟩ := h.block (offset / d.block_size) (by omega)
      have hread := BlockIO.read_run h.block_size_pos h.block_size_lt hsize hbytes hlen (by omega) n buffer m
      have hmod : offset % d.block_size < d.block_size := Nat.mod_lt _ h.block_size_pos
      set c := min (d.block_size - offset % d.block_size) (min n (d.size_in_bytes - offset)) with hc
      rw [Prog.bind_run hread, if_neg (by omega), if_neg (by omega), Int.toNat_natCast, add32_eq (by omega),
        sub32_eq (by omega) (by omega), ih (by omega) (by omega)]
      have hfill := Memory.fill_fill m buffer c (n - c) fun i => d.byte (offset + i)
      simp only [← Nat.add_assoc] at hfill
      rw [hfill, Nat.add_sub_cancel' (by omega)]
      congr 2
      omega
    · obtain rfl : n = 0 := by omega
      simp

theorem BlockIO.DeliversTo.read_all_run {limit buffer : Nat} (h : d.DeliversTo limit) (hin : offset + n ≤ limit)
    (m : Memory) : (d.read_all offset n buffer).run m =
      some ((n : Int), m.fill buffer n fun i => d.byte (offset + i)) := by
  unfold BlockIO.read_all
  rw [h.read_all_loop_run (Nat.lt_succ_self n) hin, Int.zero_add]

theorem BlockIO.DeliversTo.readThing_run {limit : Nat} (h : d.DeliversTo limit) (hin : offset + n ≤ limit) :
    d.readThing offset n = some (d.bytesAt offset n) := by
  rw [readThing_eq (h.read_all_run hin _), if_pos rfl, Memory.map_fill]
  rfl

theorem Node.Valid.block_size_lt (h : node.Valid) : node.block_size < 2 ^ 32 := by
  have hsize := h.device.size_lt
  have hle := h.indirect_1
  rw [Nat.succ_mul] at hle
  omega

theorem Node.Stores.read_block_run (h : node.Stores content) {i : Nat} (hi : i < 12 + node.block_size / 4)
    (hsize : i * node.block_size < node.data.size_low) :
    node.read_block i = some (bytesOf content (i * node.block_size) node.block_size) := by
  have hdevice := h.device.size_lt
  have hpointer := h.pointer i hi
  rw [Nat.succ_mul] at hpointer
  rw [h.toValid.read_block_run hi (h.sectors i hsize), if_neg (h.mapped i hi hsize), mul32_eq (by
    have := h.toValid.block_size_pos
    omega), h.device.readThing_run hpointer]
  unfold BlockIO.bytesAt bytesOf
  refine congrArg some (List.map_congr_left fun j hj => ?_)
  exact (h.stored i hi hsize j (List.mem_range.mp hj)).symm

theorem read_block_far {i : Nat} (hi : 12 + node.block_size / 4 ≤ i) : node.read_block i = none := by
  unfold Node.read_block
  by_cases hsectors : i < node.data.n_sectors / (node.block_size / 512)
  · simp only [guard, if_pos hsectors, Option.bind_eq_bind, Option.pure_def, Option.bind_some]
    rw [if_neg (by omega), if_neg (by omega)]
    rfl
  · simp [guard, hsectors]

theorem Node.Stores.byte (h : node.Stores content) (ho : offset < node.data.size_low) (hr : offset < node.reach) :
    node.io.byte offset = content offset := by
  have hpos := h.toValid.block_size_pos
  have hi : offset / node.block_size < 12 + node.block_size / 4 := (Nat.div_lt_iff_lt_mul hpos).mpr hr
  have hle := Nat.div_mul_le_self offset node.block_size
  have hread := h.read_block_run hi (by omega)
  have hmod := Nat.mod_lt offset hpos
  unfold BlockIO.byte
  show ((node.read_block (offset / node.block_size)).getD []).getD (offset % node.block_size) 0 = content offset
  rw [hread]
  unfold bytesOf
  simp only [Option.getD_some, List.getD_eq_getElem?_getD, List.getElem?_map, List.getElem?_range hmod,
    Option.map_some]
  rw [Nat.div_add_mod']

theorem Node.Stores.deliversTo (h : node.Stores content) :
    node.io.DeliversTo (min node.data.size_low node.reach) where
  block_size_pos := h.toValid.block_size_pos
  block_size_lt := h.toValid.block_size_lt
  size_lt := h.size_lt
  limit_le := Nat.min_le_left _ _
  block i hi := by
    have hi : i * node.block_size < min node.data.size_low node.reach := hi
    have hlt : i < 12 + node.block_size / 4 :=
      Nat.lt_of_mul_lt_mul_right (Nat.lt_of_lt_of_le hi (Nat.min_le_right _ _))
    exact ⟨_, h.read_block_run hlt (by omega), length_bytesOf⟩

theorem Node.Stores.bytesAt (h : node.Stores content) (hsize : offset + n ≤ node.data.size_low)
    (hreach : offset + n ≤ node.reach) : node.io.bytesAt offset n = bytesOf content offset n := by
  refine List.map_congr_left fun i hi => ?_
  have hi := List.mem_range.mp hi
  exact h.byte (by omega) (by omega)

theorem Node.Stores.readThing_run (h : node.Stores content) (hin : offset % node.block_size + n ≤ node.block_size)
    (hend : offset + n ≤ node.data.size_low) (ho : offset < node.data.size_low) (hr : offset < node.reach) :
    node.io.readThing offset n = some (bytesOf content offset n) := by
  have hpos := h.toValid.block_size_pos
  have hi : offset / node.block_size < 12 + node.block_size / 4 := (Nat.div_lt_iff_lt_mul hpos).mpr hr
  have hle := Nat.div_mul_le_self offset node.block_size
  have hbytes := h.read_block_run hi (by omega)
  have hread := readThing_block (d := node.io) hpos h.toValid.block_size_lt h.size_lt hbytes length_bytesOf hin hend
  rw [hread]
  refine congrArg some (List.map_congr_left fun j hj => ?_)
  have hj := List.mem_range.mp hj
  have hblock : offset + j < node.reach := by
    have hdm := Nat.div_add_mod' offset node.block_size
    have hmul : (offset / node.block_size + 1) * node.block_size ≤ node.reach := Nat.mul_le_mul_right _ hi
    rw [Nat.succ_mul] at hmul
    omega
  exact h.byte (by omega) hblock

end

/-! ## A directory of one block -/

def blockDir (bytes : List Byte) : Node where
  number := 2
  block_size := 1024
  data :=
    { mode := 4 * 2 ^ 12, size_low := 1024, n_sectors := 2, direct := fun i => if i = 0 then 1 else 0, indirect_1 := 0 }
  device := ⟨1024, 2048, fun _ => some bytes⟩

theorem blockDir_pointer (bytes : List Byte) (i : Nat) : (blockDir bytes).pointer i = if i = 0 then 1 else 0 := by
  unfold Node.pointer
  by_cases hi : i < 12
  · rw [if_pos hi]
    rfl
  · have hindirect : (blockDir bytes).data.indirect_1 = 0 := rfl
    rw [if_neg hi, if_pos hindirect, if_neg (by omega)]

theorem blockDir_stores {bytes : List Byte} (hlen : bytes.length = 1024) :
    (blockDir bytes).Stores fun j => bytes.getD j 0 := by
  have hzero : ∀ i, i * (blockDir bytes).block_size < (blockDir bytes).data.size_low → i = 0 := fun i hi => by
    have hi : i * 1024 < 1024 := hi
    omega
  have hmap : ∀ i, (((if i = 0 then 1 else 0) : Nat) + 1) * 1024 ≤ 2048 := fun i => by
    split_ifs <;> decide
  refine ⟨⟨⟨?_, ?_, ?_, fun _ _ => ⟨_, rfl, hlen⟩⟩, ⟨0, rfl⟩, fun i _ => hmap i, ?_, fun i _ => ?_⟩, ?_,
    fun i hi => ?_, fun i _ hi => ?_, fun i _ hi j hj => ?_⟩
  · show 0 < 1024
    decide
  · show 1024 < 2 ^ 32
    decide
  · show 2048 < 2 ^ 32
    decide
  · exact hmap 1
  · rw [blockDir_pointer]
    exact hmap i
  · show 1024 < 2 ^ 32
    decide
  · obtain rfl := hzero i hi
    show 0 < 2 / (1024 / 512)
    decide
  · obtain rfl := hzero i hi
    rw [blockDir_pointer, if_pos rfl]
    exact Nat.one_ne_zero
  · obtain rfl := hzero i hi
    rw [blockDir_pointer, if_pos rfl]
    have hj : j < 1024 := hj
    show bytes.getD (0 * 1024 + j) 0 = bytes.getD ((1 * 1024 + j) % 1024) 0
    congr 1
    omega

end Kernel
