import Kernel.Machine

/-!
# Block IO (`block_io.cc`)

Devices are read only. A buffer is an address in a memory of bytes.
-/

namespace Kernel

open Lib

abbrev Byte := BitVec 8

abbrev Memory := Nat → Byte

structure BlockIO where
  block_size : Nat
  size_in_bytes : Nat
  /-- The bytes that `read_block` puts in its buffer, or `none` where it panics. -/
  read_block : Nat → Option (List Byte)

/-! ## 32-bit arithmetic -/

def add32 (a b : Nat) : Nat := (a + b) % 2 ^ 32
def sub32 (a b : Nat) : Nat := (a + (2 ^ 32 - b)) % 2 ^ 32
def mul32 (a b : Nat) : Nat := a * b % 2 ^ 32

theorem add32_eq {a b : Nat} (h : a + b < 2 ^ 32) : add32 a b = a + b := Nat.mod_eq_of_lt h

theorem sub32_eq {a b : Nat} (h : b ≤ a) (ha : a < 2 ^ 32) : sub32 a b = a - b := by
  unfold sub32
  omega

/-! ## Reading -/

/-- `n` bytes of `f`, from address `buffer` on. -/
def Memory.fill (m : Memory) (buffer n : Nat) (f : Nat → Byte) : Memory :=
  fun a => if buffer ≤ a ∧ a < buffer + n then f (a - buffer) else m a

def memcpy (buffer : Nat) (bytes : List Byte) : Prog Memory Unit :=
  modify fun m => m.fill buffer bytes.length fun i => bytes.getD i 0

def BlockIO.block (d : BlockIO) (block_number : Nat) : Prog Memory (List Byte) :=
  match d.read_block block_number with
  | none => Prog.panic
  | some bytes => pure bytes

def BlockIO.read (d : BlockIO) (offset desired_n buffer : Nat) : Prog Memory Int := do
  let sz := d.size_in_bytes
  if offset > sz then pure (-1)
  else if offset = sz then pure 0
  else
    let n := min desired_n (sub32 sz offset)
    let block_number := offset / d.block_size
    let offset_in_block := offset % d.block_size
    let actual_n := min (sub32 d.block_size offset_in_block) n
    Prog.assert (actual_n ≤ n)
    Prog.assert (add32 offset actual_n ≤ sz)
    if actual_n = d.block_size then do
      Prog.assert (offset_in_block = 0)
      let bytes ← d.block block_number
      memcpy buffer bytes
      pure actual_n
    else do
      Prog.assert (add32 offset_in_block actual_n ≤ d.block_size)
      let temp ← d.block block_number
      memcpy buffer ((temp.drop offset_in_block).take actual_n)
      pure actual_n

/-- The loop of `read_all`. No turn is left over: one takes a byte or more, and the last takes none. -/
def BlockIO.read_all_loop (d : BlockIO) : Nat → Int → Nat → Nat → Nat → Prog Memory Int
  | 0, _, _, _, _ => Prog.panic
  | turns + 1, total_count, offset, n, buffer =>
    if n > 0 then do
      let cnt ← d.read offset n buffer
      if cnt < 0 then pure cnt
      else if cnt = 0 then pure total_count
      else d.read_all_loop turns (total_count + cnt) (add32 offset cnt.toNat) (sub32 n cnt.toNat) (buffer + cnt.toNat)
    else pure total_count

def BlockIO.read_all (d : BlockIO) (offset n buffer : Nat) : Prog Memory Int :=
  d.read_all_loop (n + 1) 0 offset n buffer

/-! ## What is read -/

/-- Every block of the device can be read. -/
structure BlockIO.Delivers (d : BlockIO) : Prop where
  block_size_pos : 0 < d.block_size
  block_size_lt : d.block_size < 2 ^ 32
  size_lt : d.size_in_bytes < 2 ^ 32
  block : ∀ i, i * d.block_size < d.size_in_bytes → ∃ bytes, d.read_block i = some bytes ∧ bytes.length = d.block_size

def BlockIO.byte (d : BlockIO) (j : Nat) : Byte :=
  ((d.read_block (j / d.block_size)).getD []).getD (j % d.block_size) 0

section

variable {m : Memory} {d : BlockIO} {offset n buffer k l : Nat}

@[simp] theorem Memory.fill_zero (f : Nat → Byte) : m.fill buffer 0 f = m := by
  funext a
  unfold Memory.fill
  exact if_neg (by omega)

theorem Memory.fill_other (f : Nat → Byte) {a : Nat} (h : a < buffer ∨ buffer + n ≤ a) : m.fill buffer n f a = m a :=
  if_neg (by omega)

theorem Memory.fill_self (f : Nat → Byte) {i : Nat} (h : i < n) : m.fill buffer n f (buffer + i) = f i := by
  unfold Memory.fill
  rw [if_pos (by omega), Nat.add_sub_cancel_left]

theorem Memory.fill_congr {f g : Nat → Byte} (h : ∀ i < n, f i = g i) : m.fill buffer n f = m.fill buffer n g := by
  funext a
  unfold Memory.fill
  split_ifs with ha
  · exact h _ (by omega)
  · rfl

theorem Memory.fill_fill (m : Memory) (buffer k l : Nat) (f : Nat → Byte) :
    (m.fill buffer k f).fill (buffer + k) l (fun i => f (k + i)) = m.fill buffer (k + l) f := by
  funext a
  unfold Memory.fill
  by_cases h : buffer + k ≤ a ∧ a < buffer + k + l
  · rw [if_pos h, if_pos (by omega)]
    exact congrArg f (by omega)
  · rw [if_neg h]
    by_cases h' : buffer ≤ a ∧ a < buffer + k
    · rw [if_pos h', if_pos (by omega)]
    · rw [if_neg h', if_neg (by omega)]

theorem memcpy_run {bytes : List Byte} :
    (memcpy buffer bytes).run m = some ((), m.fill buffer bytes.length fun i => bytes.getD i 0) := rfl

theorem block_run {i : Nat} {bytes : List Byte} (h : d.read_block i = some bytes) :
    (d.block i).run m = some (bytes, m) := by
  unfold BlockIO.block
  rw [h]
  rfl

theorem byte_block {bytes : List Byte} {i : Nat} (h : d.read_block (offset / d.block_size) = some bytes)
    (hi : offset % d.block_size + i < d.block_size) :
    d.byte (offset + i) = bytes.getD (offset % d.block_size + i) 0 := by
  have hsplit : offset + i = (offset % d.block_size + i) + d.block_size * (offset / d.block_size) := by
    have := Nat.mod_add_div offset d.block_size
    omega
  have hdiv : (offset + i) / d.block_size = offset / d.block_size := by
    rw [hsplit, Nat.add_mul_div_left _ _ (by omega), Nat.div_eq_of_lt hi, Nat.zero_add]
  have hmod : (offset + i) % d.block_size = offset % d.block_size + i := by
    rw [hsplit, Nat.add_mul_mod_self_left, Nat.mod_eq_of_lt hi]
  unfold BlockIO.byte
  rw [hdiv, hmod, h]
  rfl

theorem BlockIO.read_run {bytes : List Byte} (hpos : 0 < d.block_size) (hblock : d.block_size < 2 ^ 32)
    (hsize : d.size_in_bytes < 2 ^ 32) (hbytes : d.read_block (offset / d.block_size) = some bytes)
    (hlen : bytes.length = d.block_size) (ho : offset < d.size_in_bytes) (n buffer : Nat) (m : Memory) :
    let count := min (d.block_size - offset % d.block_size) (min n (d.size_in_bytes - offset))
    (d.read offset n buffer).run m = some ((count : Int), m.fill buffer count fun i => d.byte (offset + i)) := by
  intro count
  have hmod : offset % d.block_size < d.block_size := Nat.mod_lt _ hpos
  have hcount : min (sub32 d.block_size (offset % d.block_size)) (min n (sub32 d.size_in_bytes offset)) = count := by
    rw [sub32_eq (by omega) (by omega), sub32_eq (by omega) (by omega)]
  unfold BlockIO.read
  rw [if_neg (by omega), if_neg (by omega)]
  simp only [hcount]
  rw [Prog.assert_bind_run (by omega), Prog.assert_bind_run (by rw [add32_eq] <;> omega)]
  split_ifs with hwhole
  · have hzero : offset % d.block_size = 0 := by omega
    rw [Prog.assert_bind_run hzero, Prog.bind_run (block_run hbytes), Prog.bind_run memcpy_run, hlen, ← hwhole]
    apply Prog.run_pure.mpr
    refine ⟨rfl, Memory.fill_congr ?_⟩
    intro i hi
    rw [byte_block hbytes (by omega), hzero, Nat.zero_add]
  · rw [Prog.assert_bind_run (by rw [add32_eq] <;> omega), Prog.bind_run (block_run hbytes),
      Prog.bind_run memcpy_run]
    have htake : ((bytes.drop (offset % d.block_size)).take count).length = count := by
      rw [List.length_take, List.length_drop, hlen]
      omega
    rw [htake]
    apply Prog.run_pure.mpr
    refine ⟨rfl, Memory.fill_congr ?_⟩
    intro i hi
    rw [byte_block hbytes (by omega)]
    simp [List.getD_eq_getElem?_getD, hi]

theorem BlockIO.Delivers.read_spec (h : d.Delivers) (ho : offset < d.size_in_bytes) (n buffer : Nat) (m : Memory) :
    let count := min (d.block_size - offset % d.block_size) (min n (d.size_in_bytes - offset))
    (d.read offset n buffer).run m = some ((count : Int), m.fill buffer count fun i => d.byte (offset + i)) := by
  have hdiv : offset / d.block_size * d.block_size < d.size_in_bytes := by
    have := Nat.div_mul_le_self offset d.block_size
    omega
  obtain ⟨bytes, hbytes, hlen⟩ := h.block _ hdiv
  exact BlockIO.read_run h.block_size_pos h.block_size_lt h.size_lt hbytes hlen ho n buffer m

theorem BlockIO.Delivers.read_all_loop_spec (h : d.Delivers) {turns : Nat} (ht : n < turns) (hn : n < 2 ^ 32)
    (ho : offset ≤ d.size_in_bytes) (total : Int) (m : Memory) :
    let count := min n (d.size_in_bytes - offset)
    (d.read_all_loop turns total offset n buffer).run m =
      some (total + count, m.fill buffer count fun i => d.byte (offset + i)) := by
  have hsize := h.size_lt
  induction turns generalizing total offset n buffer m with
  | zero => omega
  | succ turns ih =>
    intro count
    unfold BlockIO.read_all_loop
    split_ifs with hpos
    · rcases Nat.lt_or_ge offset d.size_in_bytes with hlt | hge
      · have hread := h.read_spec hlt n buffer m
        set c := min (d.block_size - offset % d.block_size) (min n (d.size_in_bytes - offset)) with hc
        have hmod : offset % d.block_size < d.block_size := Nat.mod_lt _ h.block_size_pos
        have hcpos : 0 < c := by omega
        rw [Prog.bind_run hread, if_neg (by omega), if_neg (by omega), Int.toNat_natCast, add32_eq (by omega),
          sub32_eq (by omega) hn, ih (by omega) (by omega) (by omega)]
        have hcount : c + min (n - c) (d.size_in_bytes - (offset + c)) = count := by omega
        have hfill := Memory.fill_fill m buffer c (min (n - c) (d.size_in_bytes - (offset + c))) fun i =>
          d.byte (offset + i)
        simp only [← Nat.add_assoc] at hfill
        rw [hfill, hcount, ← hcount]
        congr 2
        push_cast
        omega
      · have hread : (d.read offset n buffer).run m = some (0, m) := by
          unfold BlockIO.read
          rw [if_neg (by omega), if_pos (by omega)]
          rfl
        have hzero : count = 0 := by omega
        rw [Prog.bind_run hread, if_neg (by omega), if_pos rfl, hzero]
        simp
    · have hzero : count = 0 := by omega
      rw [hzero]
      simp

theorem BlockIO.Delivers.read_all_spec (buffer : Nat) (h : d.Delivers) (hn : n < 2 ^ 32) (ho : offset ≤ d.size_in_bytes)
    (m : Memory) :
    (d.read_all offset n buffer).run m = some (((min n (d.size_in_bytes - offset) : Nat) : Int),
      m.fill buffer (min n (d.size_in_bytes - offset)) fun i => d.byte (offset + i)) := by
  unfold BlockIO.read_all
  rw [h.read_all_loop_spec (Nat.lt_succ_self n) hn ho, Int.zero_add]

end

/-- A file without bytes. -/
def emptyFile : BlockIO := ⟨1, 0, fun _ => none⟩

theorem emptyFile_delivers : emptyFile.Delivers :=
  ⟨Nat.one_pos, by decide, by decide, fun _ h => absurd h (Nat.not_lt_zero _)⟩

end Kernel
