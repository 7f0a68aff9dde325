import Kernel.Boot.Main
import Kernel.Elf.Load
import Kernel.File.Open
import Kernel.Process.Proofs

/-!
# The first process

From a proper image `kernel_main` starts `init` with its program, a stack of zeros and an empty heap.
-/

namespace Kernel

open Lib

/-- The image has an executable with the name `init` in its root directory, and its program leaves room for the stack.
-/
structure InitImage (d : BlockIO) (g : Geometry) (content : Nat → Byte) (l : List DirRecord) (inode : Nat)
    (text : Nat → Byte) (hdr : ElfHeader) : Prop where
  on : g.On d
  root : (g.inode d 2).Directory content l
  root_reach : (g.inode d 2).data.size_low ≤ (g.inode d 2).reach
  called : ∃ r ∈ l, r.Live ∧ r.Called init_name ∧ r.inode = inode
  current : NoneStale l init_name
  inode_le : inode ≤ g.inodes_count
  program : (g.inode d inode).Stores text
  program_reach : (g.inode d inode).data.size_low ≤ (g.inode d inode).reach
  executable : Executable text (g.inode d inode).data.size_low hdr
  below : ∀ q ∈ hdr.segments text, q.vaddr + q.memsz ≤ user_rsp - stack_size

/-- What the first process has in its address space. -/
structure InitReady (text : Nat → Byte) (segments : List ProgramHeader) (root : Nat) (t : Machine) : Prop where
  bytes : ∀ q ∈ segments, ∀ i < q.memsz,
    t.userByte root (q.vaddr + i) = some (if i < q.filesz then text (q.offset + i) else 0)
  stack : ∀ a, user_rsp - stack_size ≤ a → a < user_rsp → t.userByte root a = some 0
  only : ∀ v < 2 ^ 35, (t.pageEntry root v).isSome →
    (∃ q ∈ segments, touches q.vaddr q.memsz (v * FRAME_SIZE)) ∨
        touches (user_rsp - stack_size) stack_size (v * FRAME_SIZE)
  frames : ∀ v < 2 ^ 35, ∀ w < 2 ^ 35, ∀ e e', t.pageEntry root v = some e → t.pageEntry root w = some e' →
    entryPpn e = entryPpn e' → v = w
  heap : t.heapBreak = t.heapStart ∧ t.heapStart % FRAME_SIZE = 0
  above : ∀ q ∈ segments, q.vaddr + q.memsz ≤ t.heapStart
  /-- There is nothing between the heap and the stack. -/
  room : ∀ v, t.heapStart ≤ v * FRAME_SIZE → v * FRAME_SIZE < user_rsp - stack_size → t.pageEntry root v = none

section

variable {d : BlockIO} {g : Geometry} {content text : Nat → Byte} {l : List DirRecord} {inode turns : Nat}
  {hdr : ElfHeader} {fs : Ext2} {modules : List LimineFile} {memory : Memory} {mod : LimineFile}

theorem mount_root (h : Ext2.mount d = some fs) : fs.get_node 2 = some fs.root := by
  unfold Ext2.mount at h
  simp only [Option.bind_eq_bind, Option.bind_eq_some_iff, Option.pure_def, Option.some.injEq] at h
  obtain ⟨_, -, _, -, _, -, _, -, _, -, root, hroot, rfl⟩ := h
  exact hroot

theorem InitImage.find_run (h : InitImage d g content l inode text hdr) (ht : l.length < turns) :
    ∃ fs, Ext2.mount d = some fs ∧ fs.find turns fs.root init_name = some (some (g.inode d inode)) := by
  obtain ⟨fs, hmount, -, hmounted⟩ := h.on.mount_run
  have hcount := h.on.inodes_count_lt
  have hroot := mount_root hmount
  rw [(hmounted.get_node_run h.on (by omega) g.root hcount).1, Option.some.injEq] at hroot
  obtain ⟨r, hr, hlive, hcalled, rfl⟩ := h.called
  have hscan := h.root.entries_run h.root_reach ht
  have hlookup := (lookup_lastCalled h.root.names).mpr h.current
  have hfound : lastCalled init_name 0 l = r.inode := by
    rcases hlookup with ⟨r', hr', hlive', hcalled', hv⟩ | ⟨hnone, -⟩
    · by_cases hsame : r = r'
      · rw [hsame]
        exact hv
      · have hsymm : Std.Symm fun r s : DirRecord => r.Live → s.Live → cstring r.name ≠ cstring s.name :=
          ⟨fun a b hab hb ha he => hab ha hb he.symm⟩
        exact absurd (hcalled.symm.trans hcalled') (h.root.names.forall hr hr' hsame hlive hlive')
    · exact absurd hcalled (hnone r hr hlive)
  have hne : r.inode ≠ 0 := hlive
  refine ⟨fs, hmount, ?_⟩
  have hfold : (l.map fun r => (r.inode, r.name)).foldl
      (fun out e => if cstring init_name = cstring e.2 then e.1 else out) 0 = lastCalled init_name 0 l := List.foldl_map
  have hnode := (hmounted.get_node_run h.on (by omega) h.inode_le hcount).1
  unfold Ext2.find Node.find
  rw [← hroot, hscan]
  simp only [Option.bind_eq_bind, Option.bind_some, Option.pure_def, hfold, hfound, if_neg hne, hnode]

end

/-! ## Its address space -/

section

variable {text : Nat → Byte} {segments : List ProgramHeader} {s u t : Machine} {F F₁ F₂ D : Set Nat} {root c c' b : Nat}
  {M : Image}

def Machine.setHeap (s : Machine) (b : Nat) : Machine := { s with heapStart := b, heapBreak := b }

theorem Holding.heap (h : Holding s F D root u F₁ M c) (b : Nat) :
    Holding (u.setHeap b) F₁ (D ∪ F \ F₁) root (u.setHeap b) F₁ M 0 := by
  have hspace : Space (u.setHeap b) F₁ (D ∪ F \ F₁) (u.setHeap b).acting root := h.next.congr rfl rfl rfl rfl rfl
  have hzeros : HandsZeros (u.setHeap b) := h.zeros
  exact (Holding.refl hzeros hspace).congr h.bytes (Nat.le_refl 0)

theorem pagesOf_stack : pagesOf (user_rsp - stack_size) stack_size = 16 := by
  unfold pagesOf user_rsp stack_size
  rw [if_neg (by omega)]
  simp only [FRAME_SIZE]

theorem touches_stack {a : Nat} :
    touches (user_rsp - stack_size) stack_size a ↔ user_rsp - stack_size ≤ a ∧ a < user_rsp := by
  unfold touches user_rsp stack_size
  simp only [FRAME_SIZE]
  omega

theorem stack_aligned : (user_rsp - stack_size) % FRAME_SIZE = 0 := by
  simp only [FRAME_SIZE]
  decide

theorem stack_apart {q : ProgramHeader} {a : Nat} (hbelow : q.vaddr + q.memsz ≤ user_rsp - stack_size)
    (ha : user_rsp - stack_size ≤ a) : ¬ touches q.vaddr q.memsz a := by
  have haligned := stack_aligned
  unfold touches
  simp only [FRAME_SIZE] at haligned ⊢
  omega

theorem Holding.mapped (h : Holding s F D root t F₁ (M.extend (user_rsp - stack_size) stack_size) c)
    (hreads : Reads text segments M) {v : Nat} (hv : v < 2 ^ 35) (hsome : (t.pageEntry root v).isSome) :
    (∃ q ∈ segments, touches q.vaddr q.memsz (v * FRAME_SIZE)) ∨
      touches (user_rsp - stack_size) stack_size (v * FRAME_SIZE) := by
  by_contra hno
  rw [not_or] at hno
  have hlt : v * FRAME_SIZE < 2 ^ 47 := by
    simp only [FRAME_SIZE]
    omega
  have hdiv : v * FRAME_SIZE / FRAME_SIZE = v := by
    simp only [FRAME_SIZE]
    omega
  have hnone := h.bytes _ hlt
  rw [Image.extend, if_neg hno.2, hreads.outside _ fun q hq hqa => hno.1 ⟨q, hq, hqa⟩, Machine.userByte, hdiv] at hnone
  rw [Option.or_none, Option.map_eq_none_iff] at hnone
  rw [hnone] at hsome
  cases hsome

theorem initReady (h : Holding s F D root t F₁ (M.extend (user_rsp - stack_size) stack_size) c)
    (hreads : Reads text segments M) (huser : ∀ q ∈ segments, q.User)
    (hbelow : ∀ q ∈ segments, q.vaddr + q.memsz ≤ user_rsp - stack_size) (hbreak : t.heapBreak = t.heapStart)
    (haligned : t.heapStart % FRAME_SIZE = 0) (habove : ∀ q ∈ segments, q.vaddr + q.memsz ≤ t.heapStart) :
    InitReady text segments root t := by
  have hmax : user_rsp < 2 ^ 47 := by decide
  refine ⟨fun q hq i hi => ?_, fun a hlo hhi => ?_, fun v hv => h.mapped hreads hv, fun v hv w hw e e' he he' hframe =>
    h.space.frames_inj hv hw he he' hframe, ⟨hbreak, haligned⟩, habove, fun v hlo hhi => ?_⟩
  · have hend := (huser q hq).end_le
    rw [h.bytes _ (by omega), Image.extend, hreads.inside q hq _ ⟨by omega, by omega⟩]
    unfold ProgramHeader.byte
    rw [Nat.add_sub_cancel_left]
    rfl
  · rw [h.bytes a (by omega), Image.extend, hreads.outside a fun q hq => stack_apart (hbelow q hq) hlo,
      if_pos (touches_stack.mpr ⟨hlo, hhi⟩)]
    rfl
  · have hv : v < 2 ^ 35 := by
      simp only [FRAME_SIZE] at hhi
      omega
    by_contra hsome
    rcases h.mapped hreads hv (Option.isSome_iff_ne_none.mpr hsome) with ⟨q, hq, htouch⟩ | htouch
    · have hend := habove q hq
      unfold touches at htouch
      simp only [FRAME_SIZE] at htouch haligned hlo
      omega
    · have hin := (touches_stack.mp htouch).1
      omega

/-! ## All of it -/

/-- The first thread of the kernel has a root with a blank lower half, and the next frame is handed out as zeros. -/
structure FirstThread (s : Machine) (F D : Set Nat) (root : Nat) : Prop where
  space : Space s F D s.acting root
  onRoot : OnRoot s root
  blank : BlankRoot s root
  zeros : HandsZeros s

theorem FirstThread.holding (h : FirstThread s F D root) : Holding s F D root s F (fun _ => none) 0 :=
  (Holding.refl h.zeros h.space).congr (fun a ha => userByte_none
    (h.blank.pageEntry (by simp only [FRAME_SIZE]; omega)))
    (Nat.le_refl 0)

theorem firstThread_of_booted {entries : List MemmapEntry} {b : Machine} (hb : BootedKernel entries b)
    (hrun : init_thread.run b = some ((), s)) :
    ∃ F root, FirstThread s F {root} root ∧ {f | usableFrame entries f}.ncard = F.ncard + 1 := by
  obtain ⟨root, h⟩ := init_thread_spec hb hrun
  have hmaps : s.maps root :=
    (Machine.maps_congr (Machine.fixed_hhdm h.fixed) root).mpr (hb.booted.physWf.maps h.usable)
  have hblank : BlankRoot s root := fun i hi => by
    rw [h.blank i hi]
    exact not_present_zero
  have hforest : Forest s {root} s.acting 3 256 root := Forest.blank hblank
  have hspace : Space s ({f | usableFrame entries f} \ {root}) {root} s.acting root := by
    refine ⟨h.wf, ?_, rfl, hforest⟩
    rintro g rfl
    exact ⟨fun hg => hg.2 rfl, hmaps⟩
  refine ⟨_, root, ⟨hspace, h.cr3, hblank, handsZeros_of_avail h.avail⟩, ?_⟩
  have hmem : root ∈ {f | usableFrame entries f} := h.usable
  exact (Set.ncard_sdiff_singleton_add_one hmem (h.wf.finite.of_sdiff (Set.finite_singleton root))).symm

theorem first_break (huser : ∀ q ∈ segments, q.User) :
    ∃ b, (init_heap_break (initial_break (maxEnd segments 0))).run u =
    some ((), u.setHeap b) ∧ b % FRAME_SIZE = 0 ∧ ∀ q ∈ segments, q.vaddr + q.memsz ≤ b := by
  obtain ⟨-, -, haligned, habove⟩ := elfEnd_maxEnd huser
  refine ⟨_, rfl, ?_, fun q hq => ?_⟩
  · split_ifs
    · rw [FRAME_SIZE]
    · exact haligned
  · have hle := habove q hq
    split_ifs <;> omega

end

section

variable {α : Type} {a : α} {m t : Machine} {p q : Processes} {fs : Option Ext2} {rsp0 : Nat} {disabled : Bool}
  {pid : Int}

theorem vm_run {c : K α} (h : c.run m = some (a, t)) :
    (Boot.vm c).run ⟨m, p, fs, rsp0, disabled, pid⟩ = some (a, ⟨t, p, fs, rsp0, disabled, pid⟩) :=
  Prog.run_zoom.mpr ⟨t, h, rfl⟩

theorem table_run {c : P α} (h : c.run p = some (a, q)) :
    (Boot.table c).run ⟨m, p, fs, rsp0, disabled, pid⟩ = some (a, ⟨m, q, fs, rsp0, disabled, pid⟩) :=
  Prog.run_zoom.mpr ⟨q, h, rfl⟩

end

/-- **Boot.** From a proper image, and with frames enough, `kernel_main` comes to user mode: at the entry of `init`,
with its program, a stack of zeros and an empty heap in memory and nothing else, and as process 1 of an empty process
table. -/
theorem kernel_main_starts_init {g : Geometry} {content text : Nat → Byte} {l : List DirRecord}
    {inode turns stack_bottom : Nat} {hdr : ElfHeader} {modules : List LimineFile} {memory : Memory} {mod : LimineFile}
    (hmod : find_module modules ramdisk_name = some mod)
    (himage : InitImage (RamDisk.io memory mod) g content l inode text hdr)
    (hturns : l.length < turns) (nodes : Nat → BlockIO) {entries : List MemmapEntry} {m : Machine} {s : Boot}
    (hb : BootedKernel entries m) (hthread : init_thread.run m = some ((), s.machine))
    (hframes : 4 * ((hdr.segments text).map fun q => pagesOf q.vaddr q.memsz).sum + 65 ≤
        {f | usableFrame entries f}.ncard) :
    ∃ t, (kernel_main memory modules nodes turns stack_bottom).run s = some (⟨hdr.entry, user_rsp, 0x200⟩, t) ∧
      InitReady text (hdr.segments text) t.machine.root t.machine ∧ t.pid = 1 ∧ t.rsp0 = stack_bottom ∧
        t.disabled = true ∧
      t.processes.processTable 1 = ⟨true, 0, false, 0⟩ ∧
      ∀ c : Int, 0 ≤ c → c < maxProcesses → c ≠ 1 → (t.processes.processTable c).used = false := by
  obtain ⟨F, root, h, hcard⟩ := firstThread_of_booted hb hthread
  obtain ⟨fs, hmount, hfind⟩ := himage.find_run hturns
  obtain ⟨hdelivers, hbyte⟩ := himage.program.delivers himage.program_reach
  have hexe := himage.executable
  have hload := ELF.load_run hdelivers hbyte hexe
  have hstart : Reads text [] fun _ => none := reads_nil
  obtain ⟨hreads, hfits⟩ := hstart.addAll hexe.user hexe.apart
  have hcost : opsCost ((hdr.segments text).flatMap fun q => q.ops text) =
      4 * ((hdr.segments text).map fun q => pagesOf q.vaddr q.memsz).sum := opsCost_segments
  obtain ⟨u, hu⟩ := h.holding.runAll_returns nodes h.onRoot h.blank.lowerEntries h.blank.lowerEntries hfits (by omega)
  obtain ⟨F₁, hloaded⟩ := h.holding.runAll h.onRoot h.blank.lowerEntries hfits hu
  obtain ⟨b, hbreak, haligned, habove⟩ := first_break (u := u) hexe.user
  have hheap := hloaded.heap b
  have hroot : OnRoot (u.setHeap b) root := hloaded.onRoot h.onRoot
  have hstack : user_rsp - stack_size + stack_size ≤ 2 ^ 47 := by decide
  have hleft := hloaded.cost
  have hpages := pagesOf_stack
  obtain ⟨t, ht⟩ := hheap.zeros.map_range_returns hheap.next hroot hstack (by omega)
  obtain ⟨F₂, hmapped⟩ := hheap.zeros.map_range hheap.next hroot hstack ht
  have hregs : t.heapStart = b ∧ t.heapBreak = b :=
    ⟨congrArg Machine.heapStart hmapped.evolves.regs, congrArg Machine.heapBreak hmapped.evolves.regs⟩
  have hready : InitReady text (hdr.segments text) t.root t := by
    rw [(hmapped.onRoot hroot).root h.space.root_lt]
    refine initReady (hmapped.congr (fun a ha => ?_) (Nat.le_refl _)) hreads hexe.user himage.below
      (hregs.2.trans hregs.1.symm) (hregs.1 ▸ haligned) (hregs.1 ▸ habove)
    unfold Image.extend
    rw [hheap.bytes a ha]
  obtain ⟨p, hp, -, -, hone, hothers⟩ := register_process_pid1_spec (s := s.processes)
  have hperform : (Script.perform (LoadOp.act nodes)
      (ELF.load (g.inode (RamDisk.io memory mod) inode).io)).run s.machine =
      some ((hdr.entry, maxEnd (hdr.segments text) 0), u) := by
    rw [hload]
    exact Script.perform_of_run hu
  refine ⟨⟨t, p, some fs, stack_bottom, true, 1⟩, ?_, hready, rfl, rfl, rfl, hone, hothers⟩
  obtain ⟨m, processes, g_sys_fs_ptr, rsp0, disabled, pid⟩ := s
  unfold kernel_main
  rw [Prog.bind_run (orPanic_run.mpr ⟨hmod, rfl⟩), Prog.bind_run (orPanic_run.mpr ⟨hmount, rfl⟩), Prog.modify_bind_run,
    Prog.bind_run (orPanic_run.mpr ⟨hfind, rfl⟩), Prog.bind_run (orPanic_run.mpr ⟨rfl, rfl⟩),
      Prog.bind_run (vm_run hperform)]
  dsimp only
  rw [Prog.bind_run (vm_run hbreak), Prog.bind_run (vm_run ht), Prog.modify_bind_run, Prog.bind_run (table_run hp),
    Prog.modify_bind_run]
  exact Prog.run_pure.mpr ⟨rfl, rfl⟩

/-! ## An image with one file -/

section

variable {memory : Memory} {mod : LimineFile} {offset n : Nat}

theorem RamDisk.bytesAt_eq (hsize : mod.size + 511 < 2 ^ 32) (h : offset + n ≤ mod.size) :
    (RamDisk.io memory mod).bytesAt offset n = bytesOf memory (mod.address + offset) n := by
  refine List.map_congr_left fun i hi => ?_
  have hi := List.mem_range.mp hi
  rw [RamDisk.io_byte hsize (by omega), Nat.add_assoc]

theorem Node.stores_one {node : Node} {bytes : List Byte} {k : Nat} (hdevice : node.device.Delivers)
    (hblock : node.block_size = 1024) (hlow : node.data.size_low = 1024) (hsectors : node.data.n_sectors = 2)
    (hdirect : ∀ i < 12, node.data.direct i = if i = 0 then k else 0) (hindirect : node.data.indirect_1 = 0)
    (hk : k ≠ 0) (hin : (k + 1) * 1024 ≤ node.device.size_in_bytes)
    (hbytes : ∀ j < 1024, bytes.getD j 0 = node.device.byte (k * 1024 + j)) : node.Stores fun j => bytes.getD j 0 := by
  have hzero : ∀ i, i * node.block_size < node.data.size_low → i = 0 := fun i hi => by
    rw [hblock, hlow] at hi
    omega
  have hpointer : ∀ i, node.pointer i = if i = 0 then k else 0 := fun i => by
    unfold Node.pointer
    by_cases hi : i < 12
    · rw [if_pos hi, hdirect i hi]
    · rw [if_neg hi, if_pos hindirect, if_neg (by omega)]
  have hmap : ∀ i, ((if i = 0 then k else 0) + 1) * node.block_size ≤ node.device.size_in_bytes := fun i => by
    rw [hblock]
    by_cases hi : i = 0
    · rw [if_pos hi]
      exact hin
    · rw [if_neg hi]
      exact (Nat.mul_le_mul_right 1024 (by omega)).trans hin
  refine ⟨⟨hdevice, ⟨0, hblock⟩, fun i hi => ?_, ?_, fun i _ => ?_⟩, ?_, fun i hi => ?_, fun i _ hi => ?_,
    fun i _ hi j hj => ?_⟩
  · rw [hdirect i hi]
    exact hmap i
  · rw [hindirect]
    exact hmap 1
  · rw [hpointer]
    exact hmap i
  · rw [hlow]
    decide
  · obtain rfl := hzero i hi
    rw [hsectors, hblock]
    decide
  · obtain rfl := hzero i hi
    rw [hpointer, if_pos rfl]
    exact hk
  · obtain rfl := hzero i hi
    rw [hpointer, if_pos rfl, hblock, Nat.zero_mul, Nat.zero_add]
    exact hbytes j (by rwa [hblock] at hj)

end

def oneGroup : Geometry where
  log_block_size := 0
  blocks_count := 7
  blocks_per_group := 8
  inodes_per_group := 16
  inode_size := 128
  groups := 1
  table _ := 3
  size_lt := by decide
  blocks_per_group_pos := by decide
  blocks_per_group_le := by decide
  groups_le := by decide
  root := by decide
  inode_size_le := Nat.le.refl
  descriptors_in := by decide
  table_in i hi := by decide
  table_disjoint i hi j hj hne := absurd (by omega) hne

/-- An inode of one block: the mode, the size, the sectors and the block. -/
def inodeBytes (mode k : Byte) : List Byte :=
  [0, mode, 0, 0, 0, 4, 0, 0] ++ List.replicate 20 0 ++ [2, 0, 0, 0] ++ List.replicate 8 0 ++ [k, 0, 0, 0] ++
    List.replicate 84 0

def initDirBytes : List Byte := [3, 0, 0, 0, 0, 4, 4, 2] ++ init_name ++ List.replicate 1012 0

/-- The superblock, the descriptor, the inodes 1 to 3, the root directory and `init`. -/
def imageBlock (b : Nat) : List Byte :=
  if b = 1 then [16, 0, 0, 0, 7, 0, 0, 0] ++ List.replicate 24 0 ++ [8, 0, 0, 0, 0, 0, 0, 0, 16, 0, 0, 0] ++
    List.replicate 44 0 ++ [128, 0]
  else if b = 2 then List.replicate 8 0 ++ [3, 0, 0, 0]
  else if b = 3 then List.replicate 128 0 ++ inodeBytes 64 5 ++ inodeBytes 128 6
  else if b = 5 then initDirBytes
  else if b = 6 then sharedBytes
  else []

def imageMemory : Memory := fun a => (imageBlock (a / 1024)).getD (a % 1024) 0

def imageModule : LimineFile := ⟨ramdisk_name, 0, 7 * 1024⟩

def imageDisk : BlockIO := RamDisk.io imageMemory imageModule

theorem imageDisk_delivers : imageDisk.Delivers := (RamDisk.io_delivers_iff (by decide)).mpr (Or.inr (by decide))

theorem imageDisk_bytesAt {offset n : Nat} (h : offset + n ≤ 7 * 1024) :
    imageDisk.bytesAt offset n = bytesOf imageMemory offset n := by
  have hsize : imageModule.size = 7 * 1024 := rfl
  have haddress : imageModule.address = 0 := rfl
  unfold imageDisk
  rw [RamDisk.bytesAt_eq (by omega) (by omega), haddress, Nat.zero_add]

theorem imageDisk_byte {k j : Nat} (hk : k < 7) (hj : j < 1024) :
    imageDisk.byte (k * 1024 + j) = (imageBlock k).getD j 0 := by
  have hsize : imageModule.size = 7 * 1024 := rfl
  have haddress : imageModule.address = 0 := rfl
  unfold imageDisk
  rw [RamDisk.io_byte (by omega) (by omega), haddress, imageMemory, show (0 + (k * 1024 + j)) / 1024 = k by omega,
    show (0 + (k * 1024 + j)) % 1024 = j by omega]

theorem oneGroup_on : oneGroup.On imageDisk where
  device := imageDisk_delivers
  size := by decide
  superBlock := by
    rw [imageDisk_bytesAt (by decide)]
    decide +kernel
  descriptor i hi := by
    obtain rfl : i = 0 := Nat.lt_one_iff.mp hi
    unfold BlockIO.word32
    rw [imageDisk_bytesAt (by decide)]
    decide +kernel

theorem imageDisk_inode {n k : Nat} {mode : Nat} (h : (n, k, mode) = (2, 5, 64) ∨ (n, k, mode) = (3, 6, 128)) :
    (oneGroup.inode imageDisk n).data.mode = mode * 256 ∧ (oneGroup.inode imageDisk n).data.size_low = 1024 ∧
      (oneGroup.inode imageDisk n).data.n_sectors = 2 ∧ (oneGroup.inode imageDisk n).data.indirect_1 = 0 ∧
      ∀ i < 12, (oneGroup.inode imageDisk n).data.direct i = if i = 0 then k else 0 := by
  have hin : oneGroup.record n + 128 ≤ 7 * 1024 := by
    rcases h with h | h <;> cases h <;> decide
  have hdata : (oneGroup.inode imageDisk n).data = NodeData.ofBytes (bytesOf imageMemory (oneGroup.record n) 128) := by
    rw [← imageDisk_bytesAt hin]
    rfl
  rw [hdata]
  rcases h with h | h <;> cases h <;> decide +kernel

theorem imageDisk_stores {n k mode : Nat} (h : (n, k, mode) = (2, 5, 64) ∨ (n, k, mode) = (3, 6, 128)) :
    (oneGroup.inode imageDisk n).Stores fun j => (imageBlock k).getD j 0 := by
  obtain ⟨-, hlow, hsectors, hindirect, hdirect⟩ := imageDisk_inode h
  have hk : k = 5 ∨ k = 6 := by rcases h with h | h <;> cases h <;> decide
  have hsize : imageDisk.size_in_bytes = 7 * 1024 := rfl
  exact Node.stores_one imageDisk_delivers rfl hlow hsectors hdirect hindirect (by omega)
    ((Nat.mul_le_mul_right 1024 (show k + 1 ≤ 7 by omega)).trans_eq hsize.symm)
    fun j hj => (imageDisk_byte (by omega) hj).symm

theorem oneGroup_init : InitImage imageDisk oneGroup (fun j => initDirBytes.getD j 0) [⟨3, 1024, init_name⟩] 3
    (fun j => sharedBytes.getD j 0) sharedHeader where
  on := oneGroup_on
  root := by
    obtain ⟨hmode, hlow, -⟩ := imageDisk_inode (n := 2) (k := 5) (Or.inl rfl)
    refine ⟨imageDisk_stores (n := 2) (k := 5) (Or.inl rfl), ?_, ?_, List.pairwise_singleton _ _⟩
    · rw [NodeData.is_dir, NodeData.get_type, hmode]
      decide
    · rw [hlow]
      exact ⟨⟨by decide, by decide, by decide, by decide, by decide⟩, by decide, rfl⟩
  root_reach := by
    obtain ⟨-, hlow, -⟩ := imageDisk_inode (n := 2) (k := 5) (Or.inl rfl)
    rw [hlow]
    decide
  called := ⟨_, List.mem_singleton_self _, by decide, by decide, rfl⟩
  current l₁ r l₂ hl _ _ s hs := by
    have hlen := congrArg List.length hl
    rw [List.length_append, List.length_cons, List.length_cons, List.length_nil] at hlen
    have hpos := List.length_pos_of_mem hs
    omega
  inode_le := by decide
  program := imageDisk_stores (n := 3) (k := 6) (Or.inr rfl)
  program_reach := by
    obtain ⟨-, hlow, -⟩ := imageDisk_inode (n := 3) (k := 6) (Or.inr rfl)
    rw [hlow]
    decide
  executable := by
    obtain ⟨-, hlow, -⟩ := imageDisk_inode (n := 3) (k := 6) (Or.inr rfl)
    rw [hlow]
    exact sharedElf_executable
  below := by
    rw [sharedHeader_segments]
    decide

/-- 128 frames. -/
def onlyEntry : MemmapEntry := ⟨512 * 4096, 128 * 4096, LIMINE_MEMMAP_USABLE⟩

theorem wideEntry_frames : {f | usableFrame [onlyEntry] f}.ncard = 128 := by
  have hcoe : {f | usableFrame [onlyEntry] f} = Finset.Ico 512 640 := by
    ext f
    rw [Finset.coe_Ico, Set.mem_Ico]
    simp only [usableFrame, List.mem_singleton, exists_eq_left, MemmapEntry.usable, onlyEntry, MemmapEntry.range,
      Range.has, FRAME_SIZE, true_and, Set.mem_ofPred_eq]
    omega
  rw [hcoe, Set.ncard_coe_finset, Nat.card_Ico]

theorem imageDisk_starts : ∃ s t,
    (kernel_main imageMemory [imageModule] (fun _ => emptyFile) 2 0xFFFF800000010000).run s =
    some (⟨0x400000, user_rsp, 0x200⟩, t) ∧ t.machine.userByte t.machine.root 0x400001 = some 2 := by
  have hb : BootedKernel [onlyEntry] { bootMachine with free_ranges := [onlyEntry.range] } :=
    bootMachine_with (by decide) (by decide) (by decide)
  have hcard := wideEntry_frames
  obtain ⟨m, hm⟩ := init_thread_returns hb (Set.nonempty_of_ncard_ne_zero (by omega))
  have hpages : (sharedSegments.map fun q => pagesOf q.vaddr q.memsz).sum = 2 := by
    unfold sharedSegments pagesOf
    simp only [List.map_cons, List.map_nil, List.sum_cons, List.sum_nil, FRAME_SIZE]
    decide
  obtain ⟨t, ht, hready, -⟩ :=
    @kernel_main_starts_init oneGroup _ _ _ 3 2 0xFFFF800000010000 _ [imageModule] imageMemory
    imageModule rfl oneGroup_init (by decide) (fun _ => emptyFile) _ _
      ⟨m, ⟨fun _ => ⟨false, 0, false, 0⟩, 2, false⟩, none, 0, false, 0⟩
    hb hm (by
      rw [sharedHeader_segments, hpages]
      omega)
  refine ⟨_, t, ht.trans ?_, ?_⟩
  · rw [show sharedHeader.entry = 0x400000 by decide +kernel]
  · rw [sharedHeader_segments] at hready
    exact (hready.bytes ⟨1, 176, 0x400000, 4, 4⟩ (by decide) 1 (by decide)).trans (by decide +kernel)

end Kernel
