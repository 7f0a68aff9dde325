import Kernel.Elf.Segments
import Kernel.Vmm.Isolation

/-!
# What `ELF.load` leaves in memory
-/

namespace Kernel

open Lib

/-! ## The bytes after some segments -/

/-- The segments are in memory: their bytes, zeros in the rest of their pages, and no other page. -/
structure Reads (content : Nat → Byte) (segments : List ProgramHeader) (M : Image) : Prop where
  inside : ∀ q ∈ segments, ∀ a, q.has a → M a = some (q.byte content a)
  pages : ∀ a, (∀ q ∈ segments, ¬ q.has a) → (∃ q ∈ segments, touches q.vaddr q.memsz a) → M a = some 0
  outside : ∀ a, (∀ q ∈ segments, ¬ touches q.vaddr q.memsz a) → M a = none

section

variable {content : Nat → Byte} {segments done rest : List ProgramHeader} {q : ProgramHeader} {M : Image} {a i n : Nat}

theorem reads_nil : Reads content [] fun _ => none where
  inside q hq := by cases hq
  pages a _ h := by
    obtain ⟨q, hq, -⟩ := h
    cases hq
  outside _ _ := rfl

theorem ProgramHeader.has_touches (h : q.has a) : touches q.vaddr q.memsz a := by
  obtain ⟨hlo, hhi⟩ := h
  unfold touches
  simp only [FRAME_SIZE]
  omega

theorem foldl_ops : (q.ops content).foldl Image.after M = fun a =>
    if q.vaddr ≤ a ∧ a < q.vaddr + q.filesz then some (content (q.offset + (a - q.vaddr)))
    else Image.extend M q.vaddr q.memsz a := foldl_putAll

theorem fitsAll_ops (h : q.User) : FitsAll M (q.ops content) := by
  refine ⟨h.end_le, fitsAll_putAll fun i hi => ?_⟩
  have hle := h.filesz_le
  have hend := h.end_le
  have htouches : touches q.vaddr q.memsz (q.vaddr + i) := ProgramHeader.has_touches ⟨by omega, by omega⟩
  refine ⟨by omega, ?_⟩
  show ((M (q.vaddr + i)).or (if _ then _ else _)).isSome = true
  rw [if_pos htouches]
  cases M (q.vaddr + i) <;> rfl

/-- One segment more. In a page that it shares it finds zeros where no segment before it has a byte. -/
theorem Reads.add (h : Reads content done M) (huser : q.User) (hapart : ∀ p ∈ done, ∀ a, p.has a → ¬ q.has a) :
    Reads content (done ++ [q]) ((q.ops content).foldl Image.after M) := by
  have hle := huser.filesz_le
  rw [foldl_ops]
  refine ⟨fun p hp a ha => ?_, fun a hno hsome => ?_, fun a hno => ?_⟩
  · rcases List.mem_append.mp hp with hp | hp
    · have hout := hapart p hp a ha
      unfold ProgramHeader.has at hout
      rw [if_neg (by omega)]
      unfold Image.extend
      rw [h.inside p hp a ha]
      rfl
    · obtain rfl := List.mem_singleton.mp hp
      unfold ProgramHeader.byte
      by_cases hfile : a - p.vaddr < p.filesz
      · obtain ⟨hlo, -⟩ := ha
        rw [if_pos hfile, if_pos (by omega)]
      · rw [if_neg hfile, if_neg (by omega)]
        have hnone : ∀ r ∈ done, ¬ r.has a := fun r hr hra => hapart r hr a hra ha
        unfold Image.extend
        rw [if_pos (ProgramHeader.has_touches ha)]
        by_cases htouched : ∃ r ∈ done, touches r.vaddr r.memsz a
        · rw [h.pages a hnone htouched]
          rfl
        · rw [h.outside a fun r hr hra => htouched ⟨r, hr, hra⟩]
          rfl
  · have hq := hno q (List.mem_append_right _ List.mem_cons_self)
    unfold ProgramHeader.has at hq
    rw [if_neg (by omega)]
    have hdone : ∀ r ∈ done, ¬ r.has a := fun r hr => hno r (List.mem_append_left _ hr)
    unfold Image.extend
    by_cases htouched : ∃ r ∈ done, touches r.vaddr r.memsz a
    · rw [h.pages a hdone htouched]
      rfl
    · obtain ⟨p, hp, hpa⟩ := hsome
      rcases List.mem_append.mp hp with hp | hp
      · exact absurd ⟨p, hp, hpa⟩ htouched
      · obtain rfl := List.mem_singleton.mp hp
        rw [if_pos hpa, h.outside a fun r hr hra => htouched ⟨r, hr, hra⟩]
        rfl
  · have hq := hno q (List.mem_append_right _ List.mem_cons_self)
    rw [if_neg fun hc => hq (ProgramHeader.has_touches ⟨hc.1, by omega⟩)]
    unfold Image.extend
    rw [h.outside a fun r hr => hno r (List.mem_append_left _ hr), if_neg hq]
    rfl

theorem Reads.addAll (h : Reads content done M) (huser : ∀ q ∈ rest, q.User)
    (hapart : (done ++ rest).Pairwise fun p q => ∀ a, p.has a → ¬ q.has a) :
    Reads content (done ++ rest) ((rest.flatMap fun q => q.ops content).foldl Image.after M) ∧
      FitsAll M (rest.flatMap fun q => q.ops content) := by
  induction rest generalizing done M with
  | nil =>
    rw [List.append_nil]
    exact ⟨h, trivial⟩
  | cons q rest ih =>
    have hbefore : ∀ p ∈ done, ∀ a, p.has a → ¬ q.has a := fun p hp =>
      (List.pairwise_append.mp hapart).2.2 p hp q List.mem_cons_self
    have hlist : done ++ q :: rest = (done ++ [q]) ++ rest := by rw [List.append_assoc]; rfl
    rw [hlist] at hapart ⊢
    obtain ⟨hreads, hfits⟩ := ih (h.add (huser q List.mem_cons_self) hbefore)
      (fun p hp => huser p (List.mem_cons_of_mem _ hp)) hapart
    rw [List.flatMap_cons, List.foldl_append, fitsAll_append]
    exact ⟨hreads, fitsAll_ops (huser q List.mem_cons_self), hfits⟩

/-! ## The largest end -/

theorem maxEnd_le (h : ∀ q ∈ segments, q.vaddr + q.memsz ≤ a) (hn : n ≤ a) : maxEnd segments n ≤ a := by
  induction segments generalizing n with
  | nil => exact hn
  | cons q qs ih =>
    exact ih (fun p hp => h p (List.mem_cons_of_mem _ hp)) (max_le hn (h q List.mem_cons_self))

theorem le_maxEnd : n ≤ maxEnd segments n ∧ ∀ q ∈ segments, q.vaddr + q.memsz ≤ maxEnd segments n := by
  induction segments generalizing n with
  | nil => exact ⟨Nat.le_refl n, fun _ hq => by cases hq⟩
  | cons q qs ih =>
    obtain ⟨hstart, hrest⟩ := ih (n := max n (q.vaddr + q.memsz))
    refine ⟨(le_max_left _ _).trans hstart, fun p hp => ?_⟩
    rcases List.mem_cons.mp hp with rfl | hp
    · exact (le_max_right _ _).trans hstart
    · exact hrest p hp

theorem maxEnd_attained : maxEnd segments n = n ∨ ∃ q ∈ segments, maxEnd segments n = q.vaddr + q.memsz := by
  induction segments generalizing n with
  | nil => exact Or.inl rfl
  | cons q qs ih =>
    rcases ih (n := max n (q.vaddr + q.memsz)) with h | ⟨p, hp, h⟩
    · have hstep : maxEnd (q :: qs) n = max n (q.vaddr + q.memsz) := h
      rcases le_total n (q.vaddr + q.memsz) with hle | hle
      · rw [max_eq_right hle] at hstep
        exact Or.inr ⟨q, List.mem_cons_self, hstep⟩
      · rw [max_eq_left hle] at hstep
        exact Or.inl hstep
    · exact Or.inr ⟨p, List.mem_cons_of_mem _ hp, h⟩

theorem opsCost_segments : opsCost (segments.flatMap fun q => q.ops content) =
    4 * (segments.map fun q => pagesOf q.vaddr q.memsz).sum := by
  induction segments with
  | nil => rfl
  | cons q qs ih =>
    have hput : opsCost (putAll q.vaddr q.filesz fun i => content (q.offset + i)) = 0 := opsCost_putAll
    unfold opsCost at *
    rw [List.flatMap_cons, List.map_append, List.sum_append, ih, List.map_cons, List.sum_cons, Nat.mul_add]
    unfold ProgramHeader.ops
    rw [List.map_cons, List.sum_cons, hput]
    rfl

end

/-! ## The file -/

section

variable {node : Node} {content : Nat → Byte}

theorem Node.Stores.delivers (h : node.Stores content) (hreach : node.data.size_low ≤ node.reach) :
    node.io.Delivers ∧ ∀ j < node.io.size_in_bytes, node.io.byte j = content j := by
  have hpos := h.toValid.block_size_pos
  refine ⟨⟨hpos, h.toValid.block_size_lt, h.size_lt, fun i hi => ?_⟩, fun j hj =>
    h.byte hj (Nat.lt_of_lt_of_le hj hreach)⟩
  have hi : i * node.block_size < node.data.size_low := hi
  have hlt : i < 12 + node.block_size / 4 := Nat.lt_of_mul_lt_mul_right (Nat.lt_of_lt_of_le hi hreach)
  exact ⟨_, h.read_block_run hlt hi, length_bytesOf⟩

end

/-! ## The address space -/

/-- What is in the address space after the load, with `F` the frames that were free before. -/
structure ElfLoaded (content : Nat → Byte) (segments : List ProgramHeader) (F : Set Nat) (root : Nat) (t : Machine) :
    Prop where
  bytes : ∀ q ∈ segments, ∀ i < q.memsz,
    t.userByte root (q.vaddr + i) = some (if i < q.filesz then content (q.offset + i) else 0)
  mapped : ∀ q ∈ segments, ∀ a, touches q.vaddr q.memsz a → (t.pageEntry root (a / FRAME_SIZE)).isSome
  only : ∀ v < 2 ^ 35, (t.pageEntry root v).isSome → ∃ q ∈ segments, touches q.vaddr q.memsz (v * FRAME_SIZE)
  /-- Two pages are on two frames. -/
  frames : ∀ v < 2 ^ 35, ∀ w < 2 ^ 35, ∀ e e', t.pageEntry root v = some e → t.pageEntry root w = some e' →
    entryPpn e = entryPpn e' → v = w
  /-- Every frame that was taken is a table or a page of the space: none was mapped and then replaced. -/
  once : ∃ F' ⊆ F, PhysWf t F' ∧ F \ F' ⊆ t.lowerFrames root

/-- The end, and the break that `kernel_main` makes of it. -/
structure ElfEnd (segments : List ProgramHeader) (loaded_end : Nat) : Prop where
  upper : ∀ q ∈ segments, q.vaddr + q.memsz ≤ loaded_end
  attained : loaded_end = 0 ∨ ∃ q ∈ segments, loaded_end = q.vaddr + q.memsz
  aligned : initial_break loaded_end % FRAME_SIZE = 0
  above : ∀ q ∈ segments, q.vaddr + q.memsz ≤ initial_break loaded_end

section

variable {content : Nat → Byte} {segments : List ProgramHeader} {s t : Machine} {F F' D : Set Nat} {root c : Nat}
  {M : Image}

theorem Holding.elfLoaded (h : Holding s F D root t F' M c) (hreads : Reads content segments M)
    (huser : ∀ q ∈ segments, q.User) : ElfLoaded content segments F root t := by
  refine ⟨fun q hq i hi => ?_, fun q hq a ha => ?_, fun v hv hsome => ?_, fun v hv w hw e e' he he' hframe =>
    h.space.frames_inj hv hw he he' hframe, F', h.sub, h.space.wf, fun g hg => h.frames (Or.inr hg)⟩
  · have hend := (huser q hq).end_le
    rw [h.bytes _ (by omega), hreads.inside q hq _ ⟨by omega, by omega⟩]
    unfold ProgramHeader.byte
    rw [Nat.add_sub_cancel_left]
  · have hlt : a < 2 ^ 47 := by
      have hend := (huser q hq).end_le
      obtain ⟨hne, -, hle⟩ := ha
      simp only [FRAME_SIZE] at hle
      omega
    have hthere : (t.userByte root a).isSome := by
      rw [h.bytes a hlt]
      by_cases hin : ∃ p ∈ segments, p.has a
      · obtain ⟨p, hp, hpa⟩ := hin
        rw [hreads.inside p hp a hpa]
        rfl
      · rw [hreads.pages a (fun p hp hpa => hin ⟨p, hp, hpa⟩) ⟨q, hq, ha⟩]
        rfl
    unfold Machine.userByte at hthere
    rwa [Option.isSome_map] at hthere
  · by_contra hno
    have hlt : v * FRAME_SIZE < 2 ^ 47 := by
      simp only [FRAME_SIZE]
      omega
    have hnone := h.bytes _ hlt
    have hpage : v * FRAME_SIZE / FRAME_SIZE = v := by
      simp only [FRAME_SIZE]
      omega
    rw [hreads.outside _ fun q hq hqa => hno ⟨q, hq, hqa⟩, Machine.userByte, hpage, Option.map_eq_none_iff] at hnone
    rw [hnone] at hsome
    cases hsome

theorem elfEnd_maxEnd (huser : ∀ q ∈ segments, q.User) : ElfEnd segments (maxEnd segments 0) := by
  have hle : maxEnd segments 0 ≤ 2 ^ 47 := maxEnd_le (fun q hq => (huser q hq).end_le) (Nat.zero_le _)
  have hround : initial_break (maxEnd segments 0) = (maxEnd segments 0 + 4095) / 4096 * 4096 := by
    unfold initial_break roundUpPage add64
    simp only [FRAME_SIZE]
    omega
  have hends : ∀ q ∈ segments, q.vaddr + q.memsz ≤ maxEnd segments 0 := le_maxEnd.2
  refine ⟨hends, maxEnd_attained, ?_, fun q hq => (hends q hq).trans ?_⟩
  · rw [hround]
    simp only [FRAME_SIZE]
    omega
  · rw [hround]
    omega

end

/--
**Loading.** The file is an executable without holes in blocks that its pointers reach, no page of the lower half is
there, and the next frame is handed out as zeros: then so is every later one. If the load comes to its end, each
segment is in memory, in the pages of the segments and no others; and it comes to its end if there are frames enough,
and the tables that are there let the kernel write, as those of `map` do.
-/
theorem elf_loads {node : Node} {content : Nat → Byte} {hdr : ElfHeader} (hstores : node.Stores content)
    (hreach : node.data.size_low ≤ node.reach) (hexe : Executable content node.data.size_low hdr)
    (nodes : Nat → BlockIO) {s : Machine} {F D : Set Nat} {root : Nat} (h : Space s F D s.acting root)
    (hr : OnRoot s root) (hempty : EmptyLower s root)
    (hzero : ∀ f u, PhysMem.alloc.run s = some (f, u) → ∀ i, i < 512 → u.mem f i = 0) :
    (∀ entry end_addr t, (Script.perform (LoadOp.act nodes) (ELF.load node.io)).run s = some ((entry, end_addr), t) →
      ElfLoaded content (hdr.segments content) F root t ∧ entry = hdr.entry ∧
        ElfEnd (hdr.segments content) end_addr) ∧
    (StoreOpen s root → 4 * ((hdr.segments content).map fun q => pagesOf q.vaddr q.memsz).sum ≤ F.ncard →
      ∃ r t, (Script.perform (LoadOp.act nodes) (ELF.load node.io)).run s = some (r, t)) := by
  obtain ⟨hdelivers, hbyte⟩ := hstores.delivers hreach
  have hrun := ELF.load_run hdelivers hbyte hexe
  have hstart : Holding s F D root s F (fun _ => none) 0 := by
    refine (Holding.refl ((handsZeros_iff h.wf).mpr hzero) h).congr (fun a ha => ?_) (Nat.le_refl 0)
    exact userByte_none (hempty.pageEntry (by simp only [FRAME_SIZE]; omega))
  obtain ⟨hreads, hfits⟩ := reads_nil.addAll hexe.user hexe.apart
  rw [hrun]
  constructor
  · intro entry end_addr t hload
    obtain ⟨hresult, hops⟩ := Script.perform_run hload
    obtain ⟨F', hfinal⟩ := hstart.runAll hr hempty.smallOnly hfits hops
    obtain ⟨rfl, rfl⟩ := Prod.mk.inj (Option.some.inj hresult)
    exact ⟨hfinal.elfLoaded hreads hexe.user, rfl, elfEnd_maxEnd hexe.user⟩
  · intro ho hF
    obtain ⟨t, ht⟩ := hstart.runAll_returns nodes hr hempty.smallOnly ho hfits (by rw [opsCost_segments]; omega)
    exact ⟨_, t, Script.perform_of_run ht⟩

/-! ## Two segments in one page -/

/-- The `k` bytes of a little-endian number. -/
def bytesLE (k n : Nat) : List Byte := (List.range k).map fun i => BitVec.ofNat 8 (n / 256 ^ i)

/-- An ELF header of 64 bytes: the fields that nothing reads are zero. -/
def elfHeaderBytes (entry phoff phentsize phnum : Nat) : List Byte :=
  [0x7f, 0x45, 0x4c, 0x46] ++ List.replicate 20 0 ++ bytesLE 8 entry ++ bytesLE 8 phoff ++ List.replicate 14 0 ++
    bytesLE 2 phentsize ++ bytesLE 2 phnum ++ List.replicate 6 0

/-- A program header of 56 bytes. -/
def programHeaderBytes (phdr : ProgramHeader) : List Byte :=
  bytesLE 4 phdr.type ++ List.replicate 4 0 ++ bytesLE 8 phdr.offset ++ bytesLE 8 phdr.vaddr ++ List.replicate 8 0 ++
    bytesLE 8 phdr.filesz ++ bytesLE 8 phdr.memsz ++ List.replicate 8 0

/-- Four bytes of text, and behind them in the same page two bytes of data and two of bss. -/
def sharedSegments : List ProgramHeader := [⟨1, 176, 0x400000, 4, 4⟩, ⟨1, 180, 0x400004, 2, 4⟩]

def sharedBytes : List Byte :=
  elfHeaderBytes 0x400000 64 56 2 ++ sharedSegments.flatMap programHeaderBytes ++ [1, 2, 3, 4, 5, 6] ++
    List.replicate 842 0

def sharedElf : Node := blockDir sharedBytes

theorem sharedBytes_length : sharedBytes.length = 1024 := by
  decide +kernel

def sharedHeader : ElfHeader := ElfHeader.ofBytes (bytesOf (fun j => sharedBytes.getD j 0) 0 64)

theorem sharedHeader_fields : sharedHeader.phoff = 64 ∧ sharedHeader.phentsize = 56 ∧ sharedHeader.phnum = 2 := by
  decide +kernel

theorem sharedHeader_segments : sharedHeader.segments (fun j => sharedBytes.getD j 0) = sharedSegments := by
  decide +kernel

theorem sharedElf_executable : Executable (fun j => sharedBytes.getD j 0) sharedElf.data.size_low sharedHeader := by
  have hsize : sharedElf.data.size_low = 1024 := rfl
  obtain ⟨hoff, hentsize, hnum⟩ := sharedHeader_fields
  refine ⟨rfl, by rw [hsize]; omega, fun i hi => ?_, ?_, ?_, ?_⟩
  · rw [hnum] at hi
    rw [hoff, hentsize, hsize]
    omega
  · rw [sharedHeader_segments]
    intro phdr hphdr
    rcases List.mem_cons.mp hphdr with rfl | hphdr
    · exact ⟨by decide, by decide, by decide⟩
    · obtain rfl := List.mem_singleton.mp hphdr
      exact ⟨by decide, by decide, by decide⟩
  · rw [sharedHeader_segments, hsize]
    decide
  · rw [sharedHeader_segments]
    refine List.pairwise_cons.mpr ⟨fun q hq a ha => ?_, List.pairwise_singleton _ _⟩
    obtain rfl := List.mem_singleton.mp hq
    have hend : a < 0x400000 + 4 := ha.2
    rintro ⟨hstart, -⟩
    have hstart : 0x400004 ≤ a := hstart
    omega

theorem fresh_space : ∃ (s : Machine) (F D : Set Nat) (root : Nat), Space s F D s.acting root ∧ OnRoot s root ∧
    BlankRoot s root ∧ s.avail = 0 ∧ 9 ≤ F.ncard := by
  obtain ⟨t, hrun⟩ := init_thread_returns bootMachine_booted (Set.nonempty_of_ncard_ne_zero (by
    have := bootMachine_frames
    omega))
  obtain ⟨r, hroot⟩ := init_thread_spec bootMachine_booted hrun
  obtain ⟨w, hw⟩ := hroot.fresh bootMachine_booted hrun
  obtain ⟨F, D, hinv⟩ := worldInv_of_clean hw.reach
  obtain rfl := hinv.wf.unique hw.wf
  have hP := hinv.procs 0 _ hw.proc
  obtain ⟨hspace, hr, -⟩ := hP.enter
  rw [hP.root_eq rfl] at hspace hr
  have hused : r ∈ {f | usableFrame [bootEntry] f} := hw.usable
  have hcard := Set.ncard_sdiff_singleton_add_one hused (hspace.wf.finite.of_sdiff (Set.finite_singleton r))
  have hframes := bootMachine_frames
  refine ⟨_, _, _, r, hspace, hr, fun i hi => ?_, hw.avail, by omega⟩
  have hblank : (w.m.enter 0 ⟨r * FRAME_SIZE, [], 0, 0⟩).mem r i = 0 := hw.blank i hi
  rw [hblank]
  exact not_present_zero

theorem sharedElf_loads : ∃ (s t : Machine) (root : Nat),
    (Script.perform (LoadOp.act fun _ => emptyFile) (ELF.load sharedElf.io)).run s = some ((0x400000, 0x400008), t) ∧
      t.userByte root 0x400001 = some 2 ∧ t.userByte root 0x400004 = some 5 ∧ t.userByte root 0x400006 = some 0 := by
  obtain ⟨s, F, D, root, h, hr, hblank, havail, hF⟩ := fresh_space
  have hstores : sharedElf.Stores fun j => sharedBytes.getD j 0 := blockDir_stores sharedBytes_length
  have hloads := elf_loads hstores (by decide) sharedElf_executable
    (fun _ => emptyFile) h hr hblank.emptyLower fun f u halloc => (alloc_cleared h.wf havail halloc).2
  rw [sharedHeader_segments] at hloads
  have hpages : (sharedSegments.map fun q => pagesOf q.vaddr q.memsz).sum = 2 := by
    unfold sharedSegments pagesOf
    simp only [List.map_cons, List.map_nil, List.sum_cons, List.sum_nil, FRAME_SIZE]
    decide
  obtain ⟨⟨entry, end_addr⟩, t, hrun⟩ := hloads.2 hblank.lowerEntries (by rw [hpages]; omega)
  obtain ⟨hloaded, hentry, hend⟩ := hloads.1 entry end_addr t hrun
  have hentry : entry = 0x400000 := hentry.trans (by decide +kernel)
  have hend : end_addr = 0x400008 := by
    have hsecond := hend.upper ⟨1, 180, 0x400004, 2, 4⟩ (by decide)
    rcases hend.attained with h0 | ⟨q, hq, hqend⟩
    · rw [h0] at hsecond
      exact absurd hsecond (by decide)
    · rcases List.mem_cons.mp hq with rfl | hq
      · rw [hqend] at hsecond
        exact absurd hsecond (by decide)
      · obtain rfl := List.mem_singleton.mp hq
        exact hqend
  rw [hentry, hend] at hrun
  refine ⟨s, t, root, hrun, ?_, ?_, ?_⟩
  · exact (hloaded.bytes ⟨1, 176, 0x400000, 4, 4⟩ (by decide) 1 (by decide)).trans (by decide +kernel)
  · exact (hloaded.bytes ⟨1, 180, 0x400004, 2, 4⟩ (by decide) 0 (by decide)).trans (by decide +kernel)
  · exact (hloaded.bytes ⟨1, 180, 0x400004, 2, 4⟩ (by decide) 2 (by decide)).trans (by decide +kernel)

end Kernel
