import Kernel.File.Runs

/-!
# What a process reads

A descriptor walks through its file: the reads of any run follow each other
without a gap, whatever the calls on other descriptors do in between.
-/

namespace Kernel

open Lib

section

variable {fs : Ext2} {s t : Caller} {a : FileOp} {fd : Int}

theorem FileEffect.other (h : FileEffect fs s a t) (hfd : a.fd ≠ some fd) : t.fdTable fd = s.fdTable fd := by
  cases h with
  | failed _ _ ht => rcases ht with rfl | rfl <;> rfl
  | user => rfl
  | opened | read | close | lseek => exact Function.update_of_ne (fun e => hfd (congrArg some e.symm)) _ _

theorem FileEffect.failed_table (h : FileEffect fs s a t) (hr : a.result = some (-1)) : t.fdTable = s.fdTable := by
  cases h with
  | failed _ _ ht => rcases ht with rfl | rfl <;> rfl
  | user => rfl
  | opened _ _ hrange =>
    simp only [FileOp.result, Option.some.injEq] at hr
    omega
  | read | lseek | close => simp [FileOp.result] at hr

theorem FileEffect.reads (h : FileEffect fs s a t) (hused : (s.fdTable fd).used = true) {node : Node}
    (hnode : fs.get_node (s.fdTable fd).inode = some node) (hstay : ¬ a.moves fd) :
    (t.fdTable fd).used = true ∧ (t.fdTable fd).inode = (s.fdTable fd).inode ∧
    ∃ k, a.dataOf fd = (List.range k).map (fun i => node.io.byte ((s.fdTable fd).offset + i)) ∧
      (t.fdTable fd).offset = (s.fdTable fd).offset + k := by
  have hkept : t.fdTable fd = s.fdTable fd → a.dataOf fd = [] → (t.fdTable fd).used = true ∧
      (t.fdTable fd).inode = (s.fdTable fd).inode ∧
      ∃ k, a.dataOf fd = (List.range k).map (fun i => node.io.byte ((s.fdTable fd).offset + i)) ∧
        (t.fdTable fd).offset = (s.fdTable fd).offset + k := by
    intro htable hdata
    rw [htable]
    exact ⟨hused, rfl, 0, hdata, rfl⟩
  by_cases hfd : a.fd = some fd
  · cases h with
    | failed _ hdata ht => exact hkept (by rcases ht with rfl | rfl <;> rfl) (hdata fd)
    | user => cases hfd
    | opened _ _ _ hfree =>
      obtain rfl := Option.some.inj hfd
      rw [hused] at hfree
      cases hfree
    | read _ hnode' =>
      obtain rfl := Option.some.inj hfd
      obtain rfl : node = _ := Option.some.inj (hnode.symm.trans hnode')
      unfold Caller.took
      simp only [Caller.set_fdTable, Function.update_self, FileOp.dataOf, if_true]
      exact ⟨hused, trivial, _, rfl, rfl⟩
    | close => exact absurd (Option.some.inj hfd) hstay
    | lseek => exact absurd (Option.some.inj hfd) hstay
  · refine hkept (h.other hfd) ?_
    cases a with
    | read rdi => exact if_neg fun e => hfd (congrArg some e)
    | _ => rfl

theorem FilesInv.reads (h : FilesInv fs s) {l : List FileOp} (hrun : (fileSystem fs).GuardedRun (OnDelivered fs) s l t)
    (hused : (s.fdTable fd).used = true) {node : Node} (hnode : fs.get_node (s.fdTable fd).inode = some node)
    (hstay : ∀ a ∈ l, ¬ a.moves fd) :
    (t.fdTable fd).used = true ∧ (t.fdTable fd).inode = (s.fdTable fd).inode ∧
    ∃ k, l.flatMap (FileOp.dataOf fd) = (List.range k).map (fun i => node.io.byte ((s.fdTable fd).offset + i)) ∧
      (t.fdTable fd).offset = (s.fdTable fd).offset + k := by
  induction hrun with
  | nil => exact ⟨hused, rfl, 0, rfl, rfl⟩
  | @snoc t u l a hrun hg hstep ih =>
    obtain ⟨htused, htinode, k, hdata, hoffset⟩ := ih fun b hb => hstay b (List.mem_append_left _ hb)
    have hinv : FilesInv fs t := hrun.preserves (fun _ _ _ hi hg hs => hi.step hg hs) h
    obtain ⟨huused, huinode, n, hmore, hnext⟩ := (hinv.effect hstep).reads htused (htinode ▸ hnode) (hstay a (by simp))
    refine ⟨huused, huinode.trans htinode, k + n, ?_, by omega⟩
    rw [List.flatMap_append, hdata, List.flatMap_singleton, hmore, hoffset, List.range_add, List.map_append,
      List.map_map]
    simp only [Function.comp_def, Nat.add_assoc]

end

/-- **Descriptor semantics.** A descriptor in use is one of 3 to 31 and its offset is inside its file. A read stores
the bytes at the offset and goes past them, so that reads follow each other in the file. A call changes no other
descriptor, and one that fails changes none. -/
theorem descriptor_semantics {fs : Ext2} {s : Caller} (h : (fileSystem fs).GuardedReachable (OnDelivered fs) s) :
    (∀ fd, (s.fdTable fd).used = true → 3 ≤ fd ∧ fd < maxFds ∧
      ∃ node, fs.get_node (s.fdTable fd).inode = some node ∧ (s.fdTable fd).offset ≤ node.data.size_low) ∧
    (∀ mapped rdi rsi rdx, (s.fdTable (int32 rdi)).used = true → is_valid_user_buffer rsi rdx = true →
      mapped rsi rdx = true → ∃ node, fs.get_node (s.fdTable (int32 rdi)).inode = some node ∧
        let got := min rdx (node.data.size_low - (s.fdTable (int32 rdi)).offset)
        (sys_read (some fs) mapped rdi rsi rdx).run s =
          some ((got : Int), s.took (int32 rdi) rsi got fun i => node.io.byte ((s.fdTable (int32 rdi)).offset + i))) ∧
    (∀ fd l t node, (s.fdTable fd).used = true → fs.get_node (s.fdTable fd).inode = some node →
      (fileSystem fs).GuardedRun (OnDelivered fs) s l t → (∀ a ∈ l, ¬ a.moves fd) →
      ∃ k, l.flatMap (FileOp.dataOf fd) = (List.range k).map (fun i => node.io.byte ((s.fdTable fd).offset + i)) ∧
        (t.fdTable fd).offset = (s.fdTable fd).offset + k) ∧
    (∀ rdi rsi rdx r t, FileStep fs s (.lseek rdi rsi rdx r) t → r ≠ -1 →
      r = rsi ∧ t.fdTable (int32 rdi) = { s.fdTable (int32 rdi) with offset := rsi }) ∧
    (∀ rdi inode r t, FileStep fs s (.opened rdi inode r) t → r ≠ -1 →
      (s.fdTable r).used = false ∧ t.fdTable r = ⟨true, inode, 0⟩) ∧
    ∀ a t, FileStep fs s a t → (∀ fd, a.fd ≠ some fd → t.fdTable fd = s.fdTable fd) ∧
      (a.result = some (-1) → t.fdTable = s.fdTable) := by
  have hi := filesInv_of_reachable h
  refine ⟨fun fd hused => ?_, fun mapped rdi rsi rdx hused hvalid hmapped => ?_,
    fun fd l t node hused hnode hrun hstay => ?_,
    fun rdi rsi rdx r t hstep hr => ?_, fun rdi inode r t hstep hr => ?_, fun a t hstep => ?_⟩
  · obtain ⟨-, node, hnode, -, hle⟩ := hi.file fd hused
    exact ⟨(hi.range fd hused).1, (hi.range fd hused).2, node, hnode, hle⟩
  · obtain ⟨hinode, node, hnode, hdelivers, hle⟩ := hi.file _ hused
    refine ⟨node, hnode, ?_⟩
    rw [sys_read_spec hi.toOk _ fun _ => ⟨hinode, hnode, hdelivers, hle⟩, if_pos ⟨hused, hvalid, hmapped⟩]
  · exact (hi.reads hrun hused hnode hstay).2.2
  · cases hi.effect hstep with
    | failed hres => exact absurd (Option.some.inj hres) hr
    | lseek hused hnode hle =>
      rw [Caller.set_fdTable, Function.update_self]
      exact ⟨rfl, rfl⟩
  · cases hi.effect hstep with
    | failed hres => exact absurd (Option.some.inj hres) hr
    | opened hnode hne hrange hfree =>
      rw [Caller.set_fdTable, Function.update_self]
      exact ⟨hfree, rfl⟩
  · exact ⟨fun fd hfd => (hi.effect hstep).other hfd, (hi.effect hstep).failed_table⟩

/-! ## A small image

Inode 12 is a file of five bytes, and the root directory has it under the name `a`.
-/

/-- The bytes of the image that are not zero. -/
def smallBytes : List (Nat × Byte) :=
  [(3457, 0x80), (3460, 5), (3484, 2), (3496, 5), (4096, 12), (4101, 4), (4102, 1), (4104, 0x61),
   (5120, 0x68), (5121, 0x65), (5122, 0x6C), (5123, 0x6C), (5124, 0x6F)]

def smallDisk : BlockIO where
  block_size := 512
  size_in_bytes := 8192
  read_block i := if i < 16 then some ((List.range 512).map fun j => (smallBytes.lookup (512 * i + j)).getD 0) else none

def smallFs : Ext2 where
  device := smallDisk
  root := ⟨2, 1024, ⟨0x4000, 1024, 2, fun i => if i = 0 then 4 else 0, 0⟩, smallDisk⟩
  blockSize := 1024
  numberOfNodes := 16
  numberOfBlocks := 8
  iNodeSize := 128
  nGroups := 1
  iNodeTables _ := 2
  iNodesPerGroup := 16

theorem smallFs_find : smallFs.root.find 2 [0x61] = some 12 := by decide +kernel

theorem smallFs_node : ∃ node, smallFs.get_node 12 = some node ∧ node.number = 12 ∧ node.data.is_file = true ∧
    node.data.size_low = 5 ∧ node.io.Delivers := by
  have hread : (smallFs.get_node 12).map
      (fun node => (node.data.is_file, node.data.size_low, node.block_size, (node.read_block 0).map List.length)) =
      some (true, 5, 1024, some 1024) := by decide +kernel
  obtain ⟨node, hnode, hfields⟩ := Option.map_eq_some_iff.mp hread
  simp only [Prod.mk.injEq] at hfields
  obtain ⟨hfile, hsize, hblock, hzero⟩ := hfields
  refine ⟨node, hnode, (Ext2.get_node_number hnode).1, hfile, hsize, ⟨?_, ?_, ?_, fun i hi => ?_⟩⟩
  · show 0 < node.block_size
    omega
  · show node.block_size < 2 ^ 32
    omega
  · show node.data.size_low < 2 ^ 32
    omega
  · have hi0 : i = 0 := by
      change i * node.block_size < node.data.size_low at hi
      rw [hblock, hsize] at hi
      omega
    obtain ⟨bytes, hbytes, hlen⟩ := Option.map_eq_some_iff.mp hzero
    rw [hi0]
    exact ⟨bytes, hbytes, hlen.trans hblock.symm⟩

def smallCaller : Caller := ⟨fun _ => ⟨false, 0, 0⟩, false, fun a => if a = 4096 then 0x61 else 0⟩

theorem smallFs_open : FileStep smallFs smallCaller (.opened 4096 12 3) (smallCaller.ready.set 3 ⟨true, 12, 0⟩) := by
  obtain ⟨node, hnode, hnumber, hfile, -, -⟩ := smallFs_node
  have hok : smallCaller.Ok := ⟨fun _ _ => rfl, nofun⟩
  have hpath : copy_user_cstring smallCaller.memory (fun _ _ => true) 4096 256 = some [0x61] := by decide +kernel
  have hfind : smallFs.find 2 smallFs.root [0x61] = some (some node) := by
    unfold Ext2.find
    rw [smallFs_find, Option.bind_eq_bind, Option.bind_some, if_neg (by decide), hnode]
    rfl
  have hrun : (sys_open (some smallFs) (fun _ _ => true) 2 4096).run smallCaller =
      some (3, smallCaller.ready.set 3 ⟨true, 12, 0⟩) := by
    unfold sys_open
    rw [Prog.get_bind_run, hpath]
    dsimp only
    rw [hfind, Prog.bind_run (orPanic_run.mpr ⟨rfl, rfl⟩)]
    dsimp only
    rw [if_neg (by simp [hfile]), hnumber]
    unfold allocate_fd
    rw [Prog.bind_run hok.init_run, Prog.get_bind_run]
    rfl
  have hinode : ((smallCaller.ready.set 3 ⟨true, 12, 0⟩).fdTable 3).inode = 12 := by
    rw [Caller.set_fdTable, Function.update_self]
  exact hinode ▸ FileStep.opened hrun

theorem smallFs_opened : (fileSystem smallFs).GuardedReachable (OnDelivered smallFs)
    (smallCaller.ready.set 3 ⟨true, 12, 0⟩) := by
  obtain ⟨node, hnode, -, -, -, hdelivers⟩ := smallFs_node
  have hguard : OnDelivered smallFs smallCaller (.opened 4096 12 3) := fun node' hnode' =>
    Option.some.inj (hnode.symm.trans hnode') ▸ hdelivers
  exact System.GuardedReachable.step ⟨smallCaller, [], ⟨rfl, fun _ => rfl⟩, .nil _⟩ hguard smallFs_open

theorem smallFs_reads : ∃ t, (sys_read (some smallFs) (fun _ _ => true) 3 4096 8).run
    (smallCaller.ready.set 3 ⟨true, 12, 0⟩) = some (5, t) := by
  have hfd : int32 3 = 3 := int32_eq (by decide)
  have hself : (smallCaller.ready.set 3 ⟨true, 12, 0⟩).fdTable (int32 3) = ⟨true, 12, 0⟩ := by
    rw [hfd, Caller.set_fdTable, Function.update_self]
  obtain ⟨node, hnode, hread⟩ := (descriptor_semantics smallFs_opened).2.1 (fun _ _ => true) 3 4096 8
    (by rw [hself]) (by decide) rfl
  obtain ⟨node', hnode', -, -, hsize, -⟩ := smallFs_node
  rw [hself] at hnode hread
  obtain rfl : node' = node := Option.some.inj (hnode'.symm.trans hnode)
  rw [hsize] at hread
  exact ⟨_, hread⟩

end Kernel
