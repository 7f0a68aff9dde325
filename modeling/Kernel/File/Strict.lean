import Kernel.File.BlockIO

/-!
# Block-split reads are exact

`read_strict` is `read` with the machine stopped wherever a 32-bit expression
wraps and wherever `read_block` is called past the last block.
-/

namespace Kernel

open Lib

def strict_add32 (a b : Nat) : Prog Memory Nat := do
  Prog.assert (a + b < 2 ^ 32)
  pure (add32 a b)

def strict_sub32 (a b : Nat) : Prog Memory Nat := do
  Prog.assert (b ≤ a)
  pure (sub32 a b)

/-- `⌈size / block_size⌉`. -/
def BlockIO.blocks (d : BlockIO) : Nat := (d.size_in_bytes + d.block_size - 1) / d.block_size

def BlockIO.strict_block (d : BlockIO) (block_number : Nat) : Prog Memory (List Byte) := do
  Prog.assert (block_number < d.blocks)
  d.block block_number

def BlockIO.read_strict (d : BlockIO) (offset desired_n buffer : Nat) : Prog Memory Int := do
  let sz := d.size_in_bytes
  if offset > sz then pure (-1)
  else if offset = sz then pure 0
  else
    let left ← strict_sub32 sz offset
    let n := min desired_n left
    let block_number := offset / d.block_size
    let offset_in_block := offset % d.block_size
    let room ← strict_sub32 d.block_size offset_in_block
    let actual_n := min room n
    Prog.assert (actual_n ≤ n)
    let last ← strict_add32 offset actual_n
    Prog.assert (last ≤ sz)
    if actual_n = d.block_size then do
      Prog.assert (offset_in_block = 0)
      let bytes ← d.strict_block block_number
      memcpy buffer bytes
      pure actual_n
    else do
      let last_in_block ← strict_add32 offset_in_block actual_n
      Prog.assert (last_in_block ≤ d.block_size)
      let temp ← d.strict_block block_number
      memcpy buffer ((temp.drop offset_in_block).take actual_n)
      pure actual_n

def BlockIO.read_all_strict_loop (d : BlockIO) : Nat → Int → Nat → Nat → Nat → Prog Memory Int
  | 0, _, _, _, _ => Prog.panic
  | turns + 1, total_count, offset, n, buffer =>
    if n > 0 then do
      let cnt ← d.read_strict offset n buffer
      if cnt < 0 then pure cnt
      else if cnt = 0 then pure total_count
      else do
        let offset ← strict_add32 offset cnt.toNat
        let n ← strict_sub32 n cnt.toNat
        d.read_all_strict_loop turns (total_count + cnt) offset n (buffer + cnt.toNat)
    else pure total_count

def BlockIO.read_all_strict (d : BlockIO) (offset n buffer : Nat) : Prog Memory Int :=
  d.read_all_strict_loop (n + 1) 0 offset n buffer

variable {m : Memory} {d : BlockIO} {offset n buffer : Nat}

theorem strict_add32_run {a b : Nat} (h : a + b < 2 ^ 32) : (strict_add32 a b).run m = some (a + b, m) := by
  unfold strict_add32
  rw [Prog.assert_bind_run h, add32_eq h]
  rfl

theorem strict_sub32_run {a b : Nat} (h : b ≤ a) (ha : a < 2 ^ 32) : (strict_sub32 a b).run m = some (a - b, m) := by
  unfold strict_sub32
  rw [Prog.assert_bind_run h, sub32_eq h ha]
  rfl

theorem strict_block_run {i : Nat} {bytes : List Byte} (hi : i < d.blocks) (h : d.read_block i = some bytes) :
    (d.strict_block i).run m = some (bytes, m) := by
  unfold BlockIO.strict_block
  rw [Prog.assert_bind_run hi, block_run h]

theorem BlockIO.Delivers.lt_blocks (h : d.Delivers) (ho : offset < d.size_in_bytes) :
    offset / d.block_size < d.blocks := by
  have hpos := h.block_size_pos
  unfold BlockIO.blocks
  rw [Nat.div_lt_iff_lt_mul hpos]
  have hlast := Nat.div_add_mod (d.size_in_bytes + d.block_size - 1) d.block_size
  have hmod := Nat.mod_lt (d.size_in_bytes + d.block_size - 1) hpos
  rw [Nat.mul_comm] at hlast
  omega

theorem BlockIO.Delivers.read_strict_spec (h : d.Delivers) (ho : offset < d.size_in_bytes) (n buffer : Nat)
    (m : Memory) : (d.read_strict offset n buffer).run m = (d.read offset n buffer).run m := by
  have hpos := h.block_size_pos
  have hmod : offset % d.block_size < d.block_size := Nat.mod_lt _ hpos
  have hsize := h.size_lt
  have hblock := h.block_size_lt
  have hdiv : offset / d.block_size * d.block_size < d.size_in_bytes := by
    have := Nat.div_mul_le_self offset d.block_size
    omega
  obtain ⟨bytes, hbytes, -⟩ := h.block _ hdiv
  have hlt := h.lt_blocks ho
  have hle := Nat.le_of_lt ho
  have hroom := Nat.le_of_lt hmod
  unfold BlockIO.read_strict BlockIO.read
  rw [if_neg (by omega), if_neg (by omega), if_neg (by omega), if_neg (by omega),
    Prog.bind_run (strict_sub32_run hle hsize)]
  simp only
  rw [Prog.bind_run (strict_sub32_run hroom hblock), sub32_eq hle hsize, sub32_eq hroom hblock]
  set c := min (d.block_size - offset % d.block_size) (min n (d.size_in_bytes - offset)) with hc
  have hn : c ≤ min n (d.size_in_bytes - offset) := Nat.min_le_right ..
  have hlast : offset + c ≤ d.size_in_bytes := by omega
  rw [Prog.assert_bind_run hn, Prog.assert_bind_run hn, Prog.bind_run (strict_add32_run (by omega)),
    Prog.assert_bind_run hlast, Prog.assert_bind_run (by rwa [add32_eq (by omega)])]
  split_ifs with hwhole
  · have hzero : offset % d.block_size = 0 := by omega
    rw [Prog.assert_bind_run hzero, Prog.assert_bind_run hzero, Prog.bind_run (strict_block_run hlt hbytes),
      Prog.bind_run (block_run hbytes)]
  · have hin : offset % d.block_size + c ≤ d.block_size := by omega
    rw [Prog.bind_run (strict_add32_run (by omega)), Prog.assert_bind_run hin,
      Prog.assert_bind_run (by rwa [add32_eq (by omega)]), Prog.bind_run (strict_block_run hlt hbytes),
        Prog.bind_run (block_run hbytes)]

theorem BlockIO.Delivers.read_all_strict_loop_spec (h : d.Delivers) {turns : Nat} (hn : n < 2 ^ 32) (total : Int)
    (m : Memory) :
    (d.read_all_strict_loop turns total offset n buffer).run m =
      (d.read_all_loop turns total offset n buffer).run m := by
  have hsize := h.size_lt
  induction turns generalizing total offset n buffer m with
  | zero => rfl
  | succ turns ih =>
    unfold BlockIO.read_all_strict_loop BlockIO.read_all_loop
    split_ifs with hpos
    · rcases Nat.lt_or_ge offset d.size_in_bytes with hlt | hge
      · have hread := h.read_spec hlt n buffer m
        have hmod : offset % d.block_size < d.block_size := Nat.mod_lt _ h.block_size_pos
        set c := min (d.block_size - offset % d.block_size) (min n (d.size_in_bytes - offset)) with hc
        rw [Prog.bind_run ((h.read_strict_spec hlt n buffer m).trans hread), Prog.bind_run hread,
          if_neg (by omega), if_neg (by omega), if_neg (by omega), if_neg (by omega), Int.toNat_natCast,
          Prog.bind_run (strict_add32_run (by omega)), Prog.bind_run (strict_sub32_run (by omega) hn),
          add32_eq (by omega), sub32_eq (by omega) hn]
        exact ih (by omega) _ _
      · -- Nothing is left to read: the loop ends here.
        have hend : ∃ cnt : Int, cnt ≤ 0 ∧ (d.read_strict offset n buffer).run m = some (cnt, m) ∧
            (d.read offset n buffer).run m = some (cnt, m) := by
          unfold BlockIO.read_strict BlockIO.read
          by_cases hgt : offset > d.size_in_bytes
          · exact ⟨-1, by omega, by rw [if_pos hgt]; rfl, by rw [if_pos hgt]; rfl⟩
          · have heq : offset = d.size_in_bytes := by omega
            exact ⟨0, by omega, by rw [if_neg hgt, if_pos heq]; rfl, by rw [if_neg hgt, if_pos heq]; rfl⟩
        obtain ⟨cnt, hcnt, hstrict, hread⟩ := hend
        rw [Prog.bind_run hstrict, Prog.bind_run hread]
        by_cases hzero : cnt = 0
        · rw [if_neg (by omega), if_pos hzero, if_neg (by omega), if_pos hzero]
        · rw [if_pos (by omega), if_pos (by omega)]
    · rfl

/-- What `read_all` returns, and the memory that it leaves. -/
def BlockIO.expected_read (d : BlockIO) (offset n buffer : Nat) (m : Memory) : Int × Memory :=
  if n = 0 then (0, m)
  else if d.size_in_bytes < offset then (-1, m)
  else
    let count := min n (d.size_in_bytes - offset)
    (count, m.fill buffer count fun i => d.byte (offset + i))

/-- `read_all` reads exactly what it should, and nothing wraps or goes out of range on the way. -/
theorem read_all_exact (h : d.Delivers) (hn : n < 2 ^ 32) (offset buffer : Nat) (m : Memory) :
    (d.read_all offset n buffer).run m = some (d.expected_read offset n buffer m) ∧
    (d.read_all_strict offset n buffer).run m = some (d.expected_read offset n buffer m) := by
  have hread : (d.read_all offset n buffer).run m = some (d.expected_read offset n buffer m) := by
    unfold BlockIO.expected_read
    split_ifs with hzero hgt
    · subst hzero
      rfl
    · unfold BlockIO.read_all BlockIO.read_all_loop BlockIO.read
      rw [if_pos (by omega), if_pos hgt]
      rfl
    · exact h.read_all_spec buffer hn (by omega) m
  refine ⟨hread, ?_⟩
  unfold BlockIO.read_all_strict
  rw [h.read_all_strict_loop_spec hn 0 m]
  exact hread

/-- Three bytes in blocks of two. -/
def threeBytes : BlockIO := ⟨2, 3, fun i => some [BitVec.ofNat 8 (2 * i), BitVec.ofNat 8 (2 * i + 1)]⟩

theorem threeBytes_delivers : threeBytes.Delivers :=
  ⟨by decide, by decide, by decide, fun _ _ => ⟨_, rfl, rfl⟩⟩

theorem threeBytes_read : (threeBytes.read_all 1 5 0).run (fun _ => 0) =
    some (2, Memory.fill (fun _ => 0) 0 2 fun i => threeBytes.byte (1 + i)) :=
  (read_all_exact threeBytes_delivers (by decide) 1 0 _).1

end Kernel
