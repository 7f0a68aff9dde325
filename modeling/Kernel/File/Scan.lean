import Kernel.File.Stores
import Kernel.Lib.Orbit

/-!
# The scan of any directory (`Node::entries`)

No block of the directory need be well formed, nor be there. A record that
cannot be read stops the machine, and with it the scan.
-/

namespace Kernel

open Lib

/-- One turn of the loop: the next offset, or `none` where the loop is over or an assertion stops it. -/
def Node.turn (node : Node) (offset : Nat) : Option Nat :=
  if offset < node.data.size_low then (node.entry offset).map Prod.snd else none

/-- The scan of the directory is over after some number of turns. -/
def Node.ScanEnds (node : Node) : Prop := ∃ k, orbit node.turn 0 k = none

section

variable {node : Node} {offset : Nat}

/-- The bound on the turns of a scan does not matter once the scan is over. -/
theorem scan_over {k more : Nat} (h : orbit node.turn offset k = none) :
    node.entries_loop (k + more) offset = node.entries_loop k offset := by
  induction k generalizing offset with
  | zero => cases h
  | succ k ih =>
    rw [Nat.succ_add]
    unfold Node.entries_loop
    by_cases hlt : offset < node.data.size_low
    · rw [if_pos hlt, if_pos hlt]
      cases hentry : node.entry offset with
      | none => rfl
      | some e =>
        have hturn : node.turn offset = some e.2 := by
          unfold Node.turn
          rw [if_pos hlt, hentry]
          rfl
        rw [orbit_turn, hturn] at h
        simp only [Option.bind_eq_bind, Option.bind_some, ih h]
    · rw [if_neg hlt, if_neg hlt]

theorem read_le {d : BlockIO} {n buffer : Nat} {m u : Memory} {cnt : Int}
    (h : (d.read offset n buffer).run m = some (cnt, u)) : cnt ≤ n := by
  unfold BlockIO.read at h
  by_cases hgt : offset > d.size_in_bytes
  · rw [if_pos hgt] at h
    obtain ⟨rfl, -⟩ := Prog.run_pure.mp h
    omega
  by_cases hend : offset = d.size_in_bytes
  · rw [if_neg hgt, if_pos hend] at h
    obtain ⟨rfl, -⟩ := Prog.run_pure.mp h
    omega
  rw [if_neg hgt, if_neg hend] at h
  obtain ⟨-, h⟩ := Prog.assert_bind_some h
  obtain ⟨-, h⟩ := Prog.assert_bind_some h
  split_ifs at h
  · obtain ⟨-, h⟩ := Prog.assert_bind_some h
    obtain ⟨_, _, -, h⟩ := Prog.run_bind.mp h
    obtain ⟨_, _, -, h⟩ := Prog.run_bind.mp h
    obtain ⟨rfl, -⟩ := Prog.run_pure.mp h
    omega
  · obtain ⟨-, h⟩ := Prog.assert_bind_some h
    obtain ⟨_, _, -, h⟩ := Prog.run_bind.mp h
    obtain ⟨_, _, -, h⟩ := Prog.run_bind.mp h
    obtain ⟨rfl, -⟩ := Prog.run_pure.mp h
    omega

/-- `read_all` ends on any device: the bound on its turns does not matter. -/
theorem read_all_over {d : BlockIO} {turns more n buffer : Nat} {total : Int} {m : Memory} (hn : n < 2 ^ 32)
    (ht : n < turns) : (d.read_all_loop (turns + more) total offset n buffer).run m =
      (d.read_all_loop turns total offset n buffer).run m := by
  induction turns generalizing offset n buffer total m with
  | zero => omega
  | succ turns ih =>
    rw [Nat.succ_add]
    unfold BlockIO.read_all_loop
    split_ifs with hpos
    · rw [StateT.run_bind, StateT.run_bind]
      cases hread : (d.read offset n buffer).run m with
      | none => rfl
      | some r =>
        obtain ⟨cnt, u⟩ := r
        have hle := read_le hread
        simp only [Option.bind_eq_bind, Option.bind_some]
        split_ifs
        · rfl
        · rfl
        · have hsub : sub32 n cnt.toNat = n - cnt.toNat := sub32_eq (by omega) hn
          exact ih (by omega) (by omega)
    · rfl

theorem readThing_length {d : BlockIO} {n : Nat} {bytes : List Byte} (h : d.readThing offset n = some bytes) :
    bytes.length = n := by
  unfold BlockIO.readThing at h
  simp only [Option.bind_eq_bind, Option.bind_eq_some_iff, Option.pure_def, Option.some.injEq] at h
  obtain ⟨⟨cnt, m⟩, -, -, -, rfl⟩ := h
  rw [List.length_map, List.length_range]

theorem turn_spec {next : Nat} (h : node.turn offset = some next) :
    offset < node.data.size_low ∧ ∃ total_size < 2 ^ 16, next = add32 offset total_size := by
  unfold Node.turn at h
  split_ifs at h with hlt
  · refine ⟨hlt, ?_⟩
    unfold Node.entry at h
    simp only [Option.bind_eq_bind, Option.map_eq_some_iff, Option.bind_eq_some_iff, Option.pure_def,
      Option.some.injEq] at h
    obtain ⟨-, ⟨-, -, total, htotal, -, -, -, -, rfl⟩, rfl⟩ := h
    have hbound := little_lt total
    rw [readThing_length htotal] at hbound
    exact ⟨_, hbound, rfl⟩

theorem offset_lt {k : Nat} (h : orbit node.turn 0 k = some offset) : offset < 2 ^ 32 := by
  cases k with
  | zero =>
    cases h
    decide
  | succ k =>
    rw [orbit_succ, Option.bind_eq_some_iff] at h
    obtain ⟨before, -, hturn⟩ := h
    obtain ⟨-, total, -, rfl⟩ := turn_spec hturn
    exact Nat.mod_lt _ (by decide)

theorem orbit_le {k last : Nat} (hsize : node.data.size_low + 2 ^ 16 ≤ 2 ^ 32)
    (h : orbit node.turn offset k = some last) : offset ≤ last := by
  induction k generalizing offset with
  | zero => exact Nat.le_of_eq (Option.some.inj h)
  | succ k ih =>
    rw [orbit_turn, Option.bind_eq_some_iff] at h
    obtain ⟨next, hturn, hrest⟩ := h
    obtain ⟨hlt, total, htotal, rfl⟩ := turn_spec hturn
    rw [add32_eq (by omega)] at hrest
    have := ih hrest
    omega

end

/--
The scan ends if and only if the chain of records that starts at offset 0 never leads back. In a directory whose size
leaves no room for a wrap, only a record of length 0 does.
-/
theorem scan_ends_iff (node : Node) :
    (node.ScanEnds ↔ ∀ i j offset, i < j → orbit node.turn 0 i = some offset → orbit node.turn 0 j ≠ some offset) ∧
    (node.data.size_low + 2 ^ 16 ≤ 2 ^ 32 →
      (node.ScanEnds ↔ ∀ i offset, orbit node.turn 0 i = some offset → node.turn offset ≠ some offset)) := by
  have hends := orbit_ends_iff (f := node.turn) (a := 0) (Set.finite_lt_nat (2 ^ 32)) fun k b hb => offset_lt hb
  refine ⟨hends, fun hsize => ?_⟩
  unfold Node.ScanEnds
  rw [hends]
  constructor
  · intro h i offset hi hturn
    exact h i (i + 1) offset (Nat.lt_succ_self i) hi (by rw [orbit_succ, hi]; exact hturn)
  · intro h i j offset hij hi hj
    -- From `offset` the chain goes forward and comes back: the record there has no length.
    obtain ⟨p, rfl⟩ := Nat.exists_eq_add_of_lt hij
    rw [Nat.add_assoc, orbit_add, hi] at hj
    have hj : (node.turn offset).bind (fun b => orbit node.turn b p) = some offset := hj
    rw [Option.bind_eq_some_iff] at hj
    obtain ⟨next, hturn, hback⟩ := hj
    have hle := orbit_le hsize hback
    obtain ⟨hlt, total, htotal, hnext⟩ := turn_spec hturn
    rw [add32_eq (by omega)] at hnext
    obtain rfl : next = offset := by omega
    exact h i next hi hturn

theorem zeroDir_scan : ¬ ∀ node : Node, node.data.is_dir = true → node.ScanEnds := by
  intro h
  have hstores : (blockDir (List.replicate 1024 0)).Stores _ := blockDir_stores List.length_replicate
  have hzero : ∀ j, (List.replicate 1024 (0 : Byte)).getD j 0 = 0 := fun j => by
    rw [List.getD_eq_getElem?_getD, List.getElem?_replicate]
    split_ifs <;> rfl
  have hthing : ∀ offset n, offset % 1024 + n ≤ 1024 → offset + n ≤ 1024 → offset < 1024 →
      (blockDir (List.replicate 1024 0)).io.readThing offset n = some (List.replicate n 0) := by
    intro offset n hin hend ho
    have hreach : (blockDir (List.replicate 1024 0)).reach = 268 * 1024 := rfl
    rw [hstores.readThing_run hin hend ho (by rw [hreach]; omega)]
    refine congrArg some (List.eq_replicate_iff.mpr ⟨length_bytesOf, fun b hb => ?_⟩)
    obtain ⟨i, -, rfl⟩ := List.mem_map.mp hb
    exact hzero _
  have hread : ∀ k n, k + n ≤ 1024 → k < 1024 →
      (blockDir (List.replicate 1024 0)).io.readThing (add32 0 k) n = some (List.replicate n 0) := by
    intro k n hk hlt
    rw [add32_eq (by omega), Nat.zero_add]
    exact hthing k n (by omega) hk hlt
  have hturn : (blockDir (List.replicate 1024 0)).turn 0 = some 0 := by
    have hentry : (blockDir (List.replicate 1024 0)).entry 0 = some ((0, []), 0) := by
      unfold Node.entry
      rw [hthing 0 4 (by decide) (by decide) (by decide), hread 4 2 (by decide) (by decide),
        hread 6 1 (by decide) (by decide)]
      have hname := hread 8 0 (by decide) (by decide)
      exact congrArg (Option.map fun name => ((0, name), 0)) hname
    unfold Node.turn
    rw [hentry]
    rfl
  obtain ⟨k, hk⟩ := h (blockDir (List.replicate 1024 0)) rfl
  have honce : orbit (blockDir (List.replicate 1024 0)).turn 0 1 = some 0 := by
    rw [orbit_turn, hturn]
    rfl
  have hcycle := orbit_cycle honce k
  rw [Nat.mul_one, hk] at hcycle
  cases hcycle

end Kernel
