import Kernel.File.Offsets

/-!
# `lseek` and its origins

Only the start of the file is an origin. The other two return -1, whatever the target.
-/

namespace Kernel

open Lib

/-- The `long` in a register. -/
def int64 (n : Nat) : Int := (BitVec.ofNat 64 n).toInt

theorem int64_cases {n : Nat} (h : n < 2 ^ 64) : int64 n = n ∧ n < 2 ^ 63 ∨ int64 n = n - 2 ^ 64 ∧ 2 ^ 63 ≤ n := by
  have hn : (BitVec.ofNat 64 n).toNat = n := by
    rw [BitVec.toNat_ofNat]
    omega
  unfold int64
  rw [BitVec.toInt_eq_toNat_cond, hn]
  split_ifs
  · left
    omega
  · right
    omega

/-- Where the standard seeks to: `SEEK_SET`, `SEEK_CUR` and `SEEK_END`. -/
def seekTarget (whence : Int) (o size : Nat) (d : Int) : Option Int :=
  if whence = 0 then some d
  else if whence = 1 then some (o + d)
  else if whence = 2 then some (size + d)
  else none

/-- A descriptor in use has a file. -/
structure Opened (fs : Ext2) (s : Caller) : Prop extends s.Ok where
  file : ∀ i, (s.fdTable i).used = true → (s.fdTable i).inode ≠ 0 ∧ ∃ node, fs.get_node (s.fdTable i).inode = some node

section

variable {fs : Ext2} {s t : Caller} {a : FileOp} {rdi rsi rdx : Nat} {r : Int}

/-! ## Every descriptor in use has a file -/

theorem Opened.ready (h : Opened fs s) : Opened fs s.ready := ⟨h.toOk.ready, h.file⟩

theorem Opened.set (h : Opened fs s) {i : Int} (hi : 3 ≤ i ∧ i < maxFds) {e : FileDescriptor}
    (he : e.used = true → e.inode ≠ 0 ∧ ∃ node, fs.get_node e.inode = some node) : Opened fs (s.ready.set i e) :=
  ⟨h.toOk.set hi e, Caller.each_set (P := fun e => e.inode ≠ 0 ∧ ∃ node, fs.get_node e.inode = some node) h.file he⟩

theorem Opened.memory (h : Opened fs s) (memory : Memory) : Opened fs { s with memory := memory } :=
  ⟨⟨h.fresh, h.range⟩, h.file⟩

theorem Ext2.get_node_size {number : Nat} {node : Node} (h : fs.get_node number = some node) :
    node.data.size_low < 2 ^ 32 := by
  unfold Ext2.get_node at h
  simp only [Option.bind_eq_bind, Option.bind_eq_some_iff, Option.pure_def, Option.some.injEq] at h
  obtain ⟨-, -, -, -, -, -, -, -, data, -, rfl⟩ := h
  refine Nat.lt_of_lt_of_le (little_lt ((data.drop 4).take 4)) ?_
  exact Nat.pow_le_pow_right (by decide) (List.length_take_le 4 _)

theorem onMemory_run {α : Type} {c : Prog Memory α} {a : α} (hrun : (onMemory c).run s = some (a, t)) :
    ∃ memory, t = { s with memory := memory } := by
  obtain ⟨⟨b, memory⟩, -, hb⟩ := Option.map_eq_some_iff.mp hrun
  exact ⟨memory, (Prod.mk.inj hb).2.symm⟩

theorem Opened.read (h : Opened fs s) {mapped : Nat → Nat → Bool}
    (hrun : (sys_read (some fs) mapped rdi rsi rdx).run s = some (r, t)) : Opened fs t := by
  unfold sys_read at hrun
  rw [Prog.bind_run h.init_run, Prog.get_bind_run] at hrun
  split_ifs at hrun with hbad hbuffer hnone
  · rw [(Prog.run_pure.mp hrun).2]
    exact h.ready
  · rw [(Prog.run_pure.mp hrun).2]
    exact h.ready
  · rw [(Prog.run_pure.mp hrun).2]
    exact h.ready
  · simp only [not_or, not_not, Caller.ready_fdTable] at hbad
    obtain ⟨hinode, node, hnode⟩ := h.file _ hbad.2.2
    dsimp only at hrun
    rw [Caller.ready_fdTable, Prog.bind_run (orPanic_run.mpr ⟨hnode, rfl⟩)] at hrun
    split_ifs at hrun
    · rw [(Prog.run_pure.mp hrun).2]
      exact h.ready
    all_goals
      obtain ⟨got, u, hread, hrun⟩ := Prog.run_bind.mp hrun
      obtain ⟨memory, rfl⟩ := onMemory_run hread
      rw [Prog.modify_bind_run] at hrun
      rw [(Prog.run_pure.mp hrun).2]
      exact (h.memory memory).set (h.range _ hbad.2.2) fun _ => ⟨hinode, node, hnode⟩

theorem Opened.step (h : Opened fs s) (hstep : FileStep fs s a t) : Opened fs t := by
  cases hstep with
  | opened hrun =>
    rcases sys_open_spec h.toOk hrun with ⟨-, rfl | rfl⟩ | ⟨node, hnode, hne, -, hlow, hhigh, -, rfl⟩
    · exact h
    · exact h.ready
    · exact h.set ⟨hlow, hhigh⟩ fun _ => ⟨hne, node, hnode⟩
  | read hrun => exact h.read hrun
  | close hrun =>
    rw [sys_close_spec h.toOk] at hrun
    split_ifs at hrun with hused
    · rw [← (Prod.mk.inj (Option.some.inj hrun)).2]
      exact h.set (h.range _ hused) nofun
    · rw [← (Prod.mk.inj (Option.some.inj hrun)).2]
      exact h.ready
  | @lseek _ rdi _ _ _ hrun =>
    by_cases hused : (s.fdTable (int32 rdi)).used = true
    · obtain ⟨hinode, node, hnode⟩ := h.file _ hused
      rw [sys_lseek_spec h.toOk node fun _ => ⟨hinode, hnode⟩] at hrun
      split_ifs at hrun
      · rw [← (Prod.mk.inj (Option.some.inj hrun)).2]
        exact h.set (h.range _ hused) fun _ => ⟨hinode, node, hnode⟩
      · rw [← (Prod.mk.inj (Option.some.inj hrun)).2]
        exact h.ready
    · rw [sys_lseek_spec h.toOk fs.root fun hu => absurd hu hused, if_neg fun hall => hused hall.1] at hrun
      rw [← (Prod.mk.inj (Option.some.inj hrun)).2]
      exact h.ready
  | user memory => exact h.memory memory

theorem opened_of_reachable (h : (fileSystem fs).Reachable s) : Opened fs s := by
  obtain ⟨s₀, l, ⟨-, hzero⟩, hrun⟩ := h
  refine hrun.preserves (fun _ _ _ hi hstep => hi.step hstep) ⟨⟨fun _ => hzero, fun i hi => ?_⟩, fun i hi => ?_⟩
  · simp [hzero i] at hi
  · simp [hzero i] at hi

/-! ## What a seek does -/

/-- The call returns -1 and leaves every descriptor as it was. -/
def SeekFails (fs : Ext2) (s : Caller) (rdi rsi rdx : Nat) : Prop :=
  ∃ t, (sys_lseek (some fs) rdi rsi rdx).run s = some (-1, t) ∧ t.fdTable = s.fdTable

/-- The call returns `p`, and its descriptor goes on from there. -/
def SeeksTo (fs : Ext2) (s : Caller) (rdi rsi rdx : Nat) (p : Int) : Prop :=
  ∃ t, (sys_lseek (some fs) rdi rsi rdx).run s = some (p, t) ∧
    t.fdTable = Function.update s.fdTable (int32 rdi) { s.fdTable (int32 rdi) with offset := p.toNat }

/-- **Seeking.** With `SEEK_SET` a displacement inside the file is the new offset. With the other origins, for an
unknown one and for a negative target the call returns -1 and changes nothing. -/
theorem lseek_origins (h : (fileSystem fs).Reachable s) (hused : (s.fdTable (int32 rdi)).used = true)
    (hrsi : rsi < 2 ^ 64) :
    ∃ node, fs.get_node (s.fdTable (int32 rdi)).inode = some node ∧
      (int32 rdx = 0 → 0 ≤ int64 rsi → int64 rsi ≤ node.data.size_low → SeeksTo fs s rdi rsi rdx (int64 rsi)) ∧
      (int32 rdx ≠ 0 → SeekFails fs s rdi rsi rdx) ∧
      ∀ p, seekTarget (int32 rdx) (s.fdTable (int32 rdi)).offset node.data.size_low (int64 rsi) = some p → p < 0 →
        SeekFails fs s rdi rsi rdx := by
  have ho := opened_of_reachable h
  obtain ⟨hinode, node, hnode⟩ := ho.file _ hused
  have hrun : (sys_lseek (some fs) rdi rsi rdx).run s =
      if (s.fdTable (int32 rdi)).used = true ∧ int32 rdx = 0 ∧ rsi ≤ node.data.size_low then
        some ((rsi : Int), s.ready.set (int32 rdi) { s.fdTable (int32 rdi) with offset := rsi })
      else some (-1, s.ready) := sys_lseek_spec ho.toOk node fun _ => ⟨hinode, hnode⟩
  have hfail : ¬ (int32 rdx = 0 ∧ rsi ≤ node.data.size_low) → SeekFails fs s rdi rsi rdx := fun hbad =>
    ⟨s.ready, hrun.trans (if_neg fun hall => hbad hall.2), rfl⟩
  refine ⟨node, hnode, fun hwhence hlow hhigh => ?_, fun hwhence => hfail fun hall => hwhence hall.1,
    fun p hp hneg => ?_⟩
  · have hd : int64 rsi = rsi := by
      rcases int64_cases hrsi with ⟨heq, -⟩ | ⟨heq, -⟩
      · exact heq
      · omega
    rw [hd] at hhigh ⊢
    refine ⟨_, hrun.trans (if_pos ⟨hused, hwhence, Int.ofNat_le.mp hhigh⟩), ?_⟩
    rw [Caller.set_fdTable, Int.toNat_natCast]
    rfl
  · apply hfail
    rintro ⟨hwhence, hle⟩
    have hsize := Ext2.get_node_size hnode
    rw [seekTarget, if_pos hwhence, Option.some.injEq] at hp
    rcases int64_cases hrsi with ⟨heq, -⟩ | ⟨-, hbig⟩ <;> omega

end

theorem smallFs_seeks : SeeksTo smallFs (smallCaller.ready.set 3 ⟨true, 12, 0⟩) 3 2 0 2 := by
  have hfd : int32 3 = 3 := int32_eq (by decide)
  have hself : (smallCaller.ready.set 3 ⟨true, 12, 0⟩).fdTable (int32 3) = ⟨true, 12, 0⟩ := by
    rw [hfd, Caller.set_fdTable, Function.update_self]
  have hused : ((smallCaller.ready.set 3 ⟨true, 12, 0⟩).fdTable (int32 3)).used = true := by
    rw [hself]
  obtain ⟨node, hnode, hset⟩ : ∃ node, smallFs.get_node
      ((smallCaller.ready.set 3 ⟨true, 12, 0⟩).fdTable (int32 3)).inode = some node ∧
      (int32 0 = 0 → 0 ≤ int64 2 → int64 2 ≤ node.data.size_low →
        SeeksTo smallFs (smallCaller.ready.set 3 ⟨true, 12, 0⟩) 3 2 0 (int64 2)) := by
    obtain ⟨node, hnode, hset, -⟩ := lseek_origins smallFs_opened.reachable hused (show 2 < 2 ^ 64 by decide)
    exact ⟨node, hnode, hset⟩
  obtain ⟨node', hnode', -, -, hsize, -⟩ := smallFs_node
  rw [hself] at hnode
  obtain rfl : node' = node := Option.some.inj (hnode'.symm.trans hnode)
  have hd : int64 2 = 2 := by decide
  rw [hd, hsize] at hset
  exact hset (int32_eq (by decide)) (by decide) (by decide)

/-- `SEEK_CUR` by 2 in the new descriptor has a target inside the file and fails. -/
theorem smallFs_current : ¬ ∀ (fs : Ext2) (s : Caller) (rdi rsi rdx : Nat) (node : Node), (fileSystem fs).Reachable s →
    (s.fdTable (int32 rdi)).used = true → rsi < 2 ^ 64 → fs.get_node (s.fdTable (int32 rdi)).inode = some node →
    ∀ p, seekTarget (int32 rdx) (s.fdTable (int32 rdi)).offset node.data.size_low (int64 rsi) = some p →
      0 ≤ p → p ≤ node.data.size_low → SeeksTo fs s rdi rsi rdx p := by
  intro hall
  have hfd : int32 3 = 3 := int32_eq (by decide)
  have hself : (smallCaller.ready.set 3 ⟨true, 12, 0⟩).fdTable (int32 3) = ⟨true, 12, 0⟩ := by
    rw [hfd, Caller.set_fdTable, Function.update_self]
  obtain ⟨node, hnode, -, -, hsize, -⟩ := smallFs_node
  have ho := opened_of_reachable smallFs_opened.reachable
  have hwhence : int32 1 = 1 := int32_eq (by decide)
  have hd : int64 2 = 2 := by decide
  obtain ⟨t, ht, -⟩ := hall smallFs _ 3 2 1 node smallFs_opened.reachable (by rw [hself]) (by decide)
    (by rw [hself]; exact hnode) 2
    (by rw [hself, hwhence, hd]; rfl) (by decide) (by rw [hsize]; decide)
  rw [sys_lseek_spec ho.toOk node fun _ => by rw [hself]; exact ⟨by decide, hnode⟩, hwhence,
    if_neg fun hcon => absurd hcon.2.1 (by decide)] at ht
  cases ht

end Kernel
