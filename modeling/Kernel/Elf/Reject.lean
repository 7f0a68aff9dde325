import Kernel.Elf.Effects

/-!
# Which files `ELF.load` rejects

No field is checked, so a file is rejected only if none of its headers asks for a page or
for a byte.
-/

namespace Kernel

open Lib

/-! ## The requirement -/

/-- The file starts with the ELF magic, and every `PT_LOAD` segment is inside the user range and has its file bytes in
its memory. -/
structure WellFormedElf (file : BlockIO) : Prop where
  magic : ∃ hdr, file.elf_header = some hdr ∧ hdr.magic = [0x7f, 0x45, 0x4c, 0x46]
  segments : ∀ hdr, file.elf_header = some hdr → ∀ i < hdr.phnum, ∀ phdr,
    file.program_header (hdr.headerOffset i) = some phdr → phdr.type = 1 →
    phdr.vaddr + phdr.memsz ≤ 2 ^ 47 ∧ phdr.filesz ≤ phdr.memsz

/--
From `s`, the loader maps no page and writes no byte unless the file is well-formed, and it writes only inside the
user-half range of one of the segments.
-/
structure Rejects (nodes : Nat → BlockIO) (file : BlockIO) (s : Machine) : Prop where
  effect : Script.Meets (LoadOp.act nodes) LoadOp.Acts (ELF.load file).ops s → WellFormedElf file
  inside : ∀ p, Script.Meets (LoadOp.act nodes) (fun u o => (∃ b, o = .put p b) ∧ o.Acts u) (ELF.load file).ops s →
    p < 2 ^ 47 ∧ ∃ hdr, file.elf_header = some hdr ∧ ∃ i < hdr.phnum, ∃ phdr,
      file.program_header (hdr.headerOffset i) = some phdr ∧ phdr.type = 1 ∧ phdr.has p

/-- No header takes anything before the loader stops. -/
def TakesNothing (file : BlockIO) (s : Machine) : Prop :=
  ∀ hdr, file.elf_header = some hdr → ∀ i < hdr.phnum, (∀ j < i, HeaderPasses file s (hdr.headerOffset j)) →
    ¬ HeaderTakes file s (hdr.headerOffset i)

section

variable {nodes : Nat → BlockIO} {file : BlockIO} {s : Machine}

theorem takesNothing_iff (nodes : Nat → BlockIO) :
    TakesNothing file s ↔ ¬ Script.Meets (LoadOp.act nodes) LoadOp.Acts (ELF.load file).ops s := by
  rw [meets_load]
  constructor
  · rintro h ⟨hdr, hhdr, i, hi, hbefore, htakes⟩
    exact h hdr hhdr i hi hbefore htakes
  · exact fun h hdr hhdr i hi hbefore htakes => h ⟨hdr, hhdr, i, hi, hbefore, htakes⟩

theorem rejects_of_wellFormed (h : WellFormedElf file) : Rejects nodes file s := by
  refine ⟨fun _ => h, fun p hp => ?_⟩
  have hmem : ∃ b, LoadOp.put p b ∈ (ELF.load file).ops := by
    by_contra hno
    refine Script.not_meets (fun o ho u hu => ?_) hp
    obtain ⟨⟨b, rfl⟩, -⟩ := hu
    exact hno ⟨b, ho⟩
  obtain ⟨b, hput⟩ := hmem
  obtain ⟨hdr, hhdr, i, hi, phdr, hphdr, htype, k, hk, rfl⟩ := load_puts hput
  obtain ⟨hend, hfilesz⟩ := h.segments hdr hhdr i hi phdr hphdr htype
  have hle := Nat.mod_le phdr.filesz (2 ^ 32)
  have hadd : add64 phdr.vaddr k = phdr.vaddr + k := Nat.mod_eq_of_lt (by omega)
  rw [hadd]
  exact ⟨by omega, hdr, hhdr, i, hi, phdr, hphdr, htype, by omega, by omega⟩

/-- Nothing is checked: from `s` the loader rejects a file that is not well-formed only if no header takes anything. -/
theorem rejects_iff : Rejects nodes file s ↔ WellFormedElf file ∨ TakesNothing file s := by
  constructor
  · intro h
    by_cases hwf : WellFormedElf file
    · exact Or.inl hwf
    · exact Or.inr ((takesNothing_iff nodes).mpr fun hmeets => hwf (h.effect hmeets))
  · rintro (hwf | hnothing)
    · exact rejects_of_wellFormed hwf
    · have hno := (takesNothing_iff nodes).mp hnothing
      exact ⟨fun h => absurd h hno, fun p hp => absurd (Script.meets_mono (fun o _ u hu => hu.2) hp) hno⟩

end

/-! ## What a header asks for -/

/-- `map_range` comes to a page of the segment. -/
def ProgramHeader.CoversPage (phdr : ProgramHeader) : Prop :=
  phdr.memsz ≠ 0 ∧ phdr.vaddr + phdr.memsz ≤ 2 ^ 64 - FRAME_SIZE

/--
`map_range` goes through no page. Behind the last page of the address space is address 0, so the loop from the first
page to the last one ends at once.
-/
def ProgramHeader.CoversNone (phdr : ProgramHeader) : Prop :=
  phdr.memsz = 0 ∨ phdr.vaddr < FRAME_SIZE ∧ 2 ^ 64 - FRAME_SIZE < phdr.vaddr + phdr.memsz ∧
    phdr.vaddr + phdr.memsz ≤ 2 ^ 64

/-- The loader goes on behind the segment in every state, and has done nothing for it. -/
def ProgramHeader.Inert (file : BlockIO) (phdr : ProgramHeader) : Prop :=
  canonical phdr.vaddr ∧ phdr.CoversNone ∧ ReadsNothing file phdr

/-- The segment has a page to map, or a byte to store at an address of `A`. -/
def ProgramHeader.Asks (file : BlockIO) (A : Set Nat) (phdr : ProgramHeader) : Prop :=
  canonical phdr.vaddr ∧ (phdr.CoversPage ∨ phdr.CoversNone ∧ ReadsByte file phdr ∧ phdr.vaddr ∈ A)

/-- No `PT_LOAD` header that the loader reaches behind inert ones has a page to map, or a byte to store in `A`. -/
def Refused (A : Set Nat) (file : BlockIO) : Prop :=
  ∀ hdr, file.elf_header = some hdr → ∀ i < hdr.phnum,
    (∀ j < i, ∃ phdr, file.program_header (hdr.headerOffset j) = some phdr ∧ (phdr.type = 1 → phdr.Inert file)) →
    ∀ phdr, file.program_header (hdr.headerOffset i) = some phdr → phdr.type = 1 → ¬ phdr.Asks file A

section

variable {file : BlockIO} {s : Machine} {phdr : ProgramHeader} {A : Set Nat} {hoff : Nat}

theorem program_header_memsz (h : file.program_header hoff = some phdr) : phdr.memsz < 2 ^ 64 := by
  obtain ⟨bytes, -, rfl⟩ := Option.map_eq_some_iff.mp h
  exact little_quad_lt _

theorem ProgramHeader.coversPage_iff (hv : phdr.vaddr < 2 ^ 64) (hm : phdr.memsz < 2 ^ 64) :
    phdr.CoversPage ↔ phdr.memsz ≠ 0 ∧ rangeOk phdr.vaddr phdr.memsz ∧ 0 < mapTurns phdr.vaddr phdr.memsz := by
  simp only [CoversPage, rangeOk, mapTurns, pageCount, mapEnd, add64, sub64, FRAME_SIZE]
  omega

theorem ProgramHeader.coversNone_iff (hv : phdr.vaddr < 2 ^ 64) (hm : phdr.memsz < 2 ^ 64) :
    phdr.CoversNone ↔
      (phdr.memsz ≠ 0 → rangeOk phdr.vaddr phdr.memsz ∧ mapTurns phdr.vaddr phdr.memsz = 0) := by
  simp only [CoversNone, rangeOk, mapTurns, pageCount, mapEnd, add64, sub64, FRAME_SIZE]
  omega

theorem MapsPage.coversPage (hv : phdr.vaddr < 2 ^ 64) (hm : phdr.memsz < 2 ^ 64)
    (h : MapsPage s phdr.vaddr phdr.memsz) : phdr.CoversPage := by
  obtain ⟨hne, hok, ⟨k, hk, -⟩, -⟩ := h
  exact (ProgramHeader.coversPage_iff hv hm).mpr ⟨hne, hok, Nat.zero_lt_of_lt hk⟩

theorem AllThere.covers (hv : phdr.vaddr < 2 ^ 64) (hm : phdr.memsz < 2 ^ 64)
    (h : AllThere s phdr.vaddr phdr.memsz) : phdr.CoversPage ∨ phdr.CoversNone := by
  rw [ProgramHeader.coversPage_iff hv hm, ProgramHeader.coversNone_iff hv hm]
  by_cases hturns : mapTurns phdr.vaddr phdr.memsz = 0
  · exact Or.inr fun hne => ⟨(h hne).1, hturns⟩
  · by_cases hne : phdr.memsz = 0
    · exact Or.inr fun h => absurd hne h
    · exact Or.inl ⟨hne, (h hne).1, Nat.pos_of_ne_zero hturns⟩

theorem ProgramHeader.CoversNone.allThere (hv : phdr.vaddr < 2 ^ 64) (hm : phdr.memsz < 2 ^ 64) (h : phdr.CoversNone) :
    AllThere s phdr.vaddr phdr.memsz := by
  intro hne
  obtain ⟨hok, hturns⟩ := (coversNone_iff hv hm).mp h hne
  exact ⟨hok, fun k hk => absurd hk (by omega)⟩

theorem Takes.asks (hv : phdr.vaddr < 2 ^ 64) (hm : phdr.memsz < 2 ^ 64) (hA : ∀ p, StoreActs s p → p ∈ A)
    (h : Takes file s phdr) : phdr.Asks file A := by
  obtain ⟨hc, hmaps | ⟨hthere, hreads, hstore⟩⟩ := h
  · exact ⟨hc, Or.inl (hmaps.coversPage hv hm)⟩
  · exact ⟨hc, (hthere.covers hv hm).imp_right fun hnone => ⟨hnone, hreads, hA _ hstore⟩⟩

theorem Passes.inert (hv : phdr.vaddr < 2 ^ 64) (hm : phdr.memsz < 2 ^ 64) (hno : ¬ phdr.Asks file A)
    (h : Passes file s phdr) : phdr.Inert file := by
  obtain ⟨hc, hthere, hnothing⟩ := h
  rcases hthere.covers hv hm with hpage | hnone
  · exact absurd ⟨hc, Or.inl hpage⟩ hno
  · exact ⟨hc, hnone, hnothing⟩

theorem Refused.takesNothing (h : Refused A file) (hA : ∀ p, StoreActs s p → p ∈ A) : TakesNothing file s := by
  intro hdr hhdr i hi hbefore ⟨phdr, hphdr, htype, htakes⟩
  have hinert : ∀ j ≤ i, ∀ k < j, ∃ q, file.program_header (hdr.headerOffset k) = some q ∧
    (q.type = 1 → q.Inert file) := by
    intro j
    induction j with
    | zero => exact fun _ k hk => absurd hk (Nat.not_lt_zero k)
    | succ j ih =>
      intro hj k hk
      obtain ⟨q, hq, hpass⟩ := hbefore k (by omega)
      refine ⟨q, hq, fun htype => ?_⟩
      have hno := h hdr hhdr k (by omega) (fun l hl => ih (by omega) l (by omega)) q hq htype
      exact (hpass htype).inert (program_header_vaddr hq) (program_header_memsz hq) hno
  exact h hdr hhdr i hi (hinert i (Nat.le_refl i)) phdr hphdr htype
    (htakes.asks (program_header_vaddr hphdr) (program_header_memsz hphdr) hA)

/-- The state lets the loader have what it asks for: no page is there, a frame is left, and stores in `A` are made. -/
structure Gives (A : Set Nat) (s : Machine) : Prop where
  missing : ∀ va, canonical va → (isMapped va).run s = some (false, s)
  frame : FrameLeft s
  stores : ∀ p ∈ A, p < 2 ^ 64 → canonical p → StoreActs s p

theorem ProgramHeader.Asks.takes (hv : phdr.vaddr < 2 ^ 64) (hm : phdr.memsz < 2 ^ 64) (hs : Gives A s)
    (h : phdr.Asks file A) : Takes file s phdr := by
  obtain ⟨hc, hpage | ⟨hnone, hreads, hmem⟩⟩ := h
  · obtain ⟨hne, hok, hturns⟩ := (coversPage_iff hv hm).mp hpage
    have hfirst : canonical (phdr.vaddr / FRAME_SIZE * FRAME_SIZE + 0 * FRAME_SIZE) := by
      simp only [canonical, FRAME_SIZE] at hc ⊢
      omega
    exact ⟨hc, Or.inl ⟨hne, hok, ⟨0, hturns, fun j hj => absurd hj (Nat.not_lt_zero j), hs.missing _ hfirst⟩, hs.frame⟩⟩
  · exact ⟨hc, Or.inr ⟨hnone.allThere hv hm, hreads, hs.stores _ hmem hv hc⟩⟩

theorem TakesNothing.refused (hs : Gives A s) (h : TakesNothing file s) : Refused A file := by
  intro hdr hhdr i hi hbefore phdr hphdr htype hasks
  refine h hdr hhdr i hi (fun j hj => ?_)
    ⟨phdr, hphdr, htype, hasks.takes (program_header_vaddr hphdr) (program_header_memsz hphdr) hs⟩
  obtain ⟨q, hq, hinert⟩ := hbefore j hj
  refine ⟨q, hq, fun htype => ?_⟩
  obtain ⟨hc, hnone, hnothing⟩ := hinert htype
  exact ⟨hc, hnone.allThere (program_header_vaddr hq) (program_header_memsz hq), hnothing⟩

end

/-! ## A machine that gives what is asked for -/

/--
Frame 1 is a table of 1 GiB pages, all of the same GiB, and every word of the root from `start` on leads to it.
`leafPte` takes such a page for a table and goes on in frame 0, which is empty.
-/
def directMachine (start : Nat) : Machine :=
  { bootMachine with
    mem := fun f i =>
      if f = 1 then mkEntry 0 (leafFlags false true ||| largeBit)
      else if f = 2 ∧ start ≤ i then mkEntry 1 tableFlags
      else 0
    free_ranges := [⟨3 * 4096, 4096⟩]
    cr3 := 2 * 4096 }

section

variable {start f g i p : Nat} {π : List Nat} {A : Set Nat}

theorem directMachine_root : (directMachine start).root = 2 := by
  simp only [Machine.root, directMachine, PPN, FRAME_SIZE]
  omega

theorem directMachine_edge (h : (directMachine start).edge f i = some g) : g < f ∧ f ≤ 2 := by
  obtain ⟨-, hp, rfl⟩ := Machine.edge_some.mp h
  simp only [directMachine] at hp ⊢
  split_ifs at hp ⊢ with hone htwo
  · have hppn : entryPpn (mkEntry 0 (leafFlags false true ||| largeBit)) = 0 := by decide
    omega
  · rw [entryPpn_mkEntry (by omega) tableFlags_masked]
    omega
  · exact absurd hp not_present_zero

theorem directMachine_walk (h : walk (directMachine start).edge f π = some g) : g + π.length ≤ f := by
  induction π generalizing f with
  | nil =>
    obtain rfl := Option.some.inj h
    exact Nat.le_refl f
  | cons i π ih =>
    obtain ⟨c, hc, h⟩ := walk_cons_eq_some.mp h
    have hle := ih h
    have hlt := (directMachine_edge hc).1
    rw [List.length_cons]
    omega

theorem directMachine_hhdm : HhdmOk (directMachine start) where
  high := by simp only [directMachine, bootMachine]; omega
  aligned := by simp only [directMachine, bootMachine, FRAME_SIZE]

theorem directMachine_missing (hp : canonical p) :
    (isMapped p).run (directMachine start) = some (false, directMachine start) := by
  have hmaps : ∀ π g, π <+: tablePath (p / FRAME_SIZE) 3 →
      walk (directMachine start).edge (directMachine start).root π = some g → (directMachine start).maps g := by
    intro π g _ hw
    rw [directMachine_root] at hw
    have hle := directMachine_walk hw
    simp only [Machine.maps, directMachine, bootMachine, FRAME_SIZE]
    omega
  have hnone : (directMachine start).pageEntry (directMachine start).root (p / FRAME_SIZE) = none := by
    refine Option.eq_none_iff_forall_ne_some.mpr fun entry he => ?_
    obtain ⟨last, hw, -⟩ := Machine.pageEntry_some.mp he
    rw [directMachine_root] at hw
    have hle := directMachine_walk hw
    rw [tablePath_length] at hle
    omega
  rw [isMapped_path directMachine_hhdm hp hmaps, hnone]
  rfl

theorem directMachine_target (hp : canonical p) (hi : start ≤ vpnIndex (p / FRAME_SIZE) 3) :
    ((directMachine start).storeTarget p).isSome := by
  have htop : (directMachine start).mem 2 (vpnIndex (p / FRAME_SIZE) 3) = mkEntry 1 tableFlags := by
    simp only [directMachine]
    rw [if_neg (by decide), if_pos ⟨trivial, hi⟩]
  have hbelow : (directMachine start).mem 1 (vpnIndex (p / FRAME_SIZE) 2) =
      mkEntry 0 (leafFlags false true ||| largeBit) := rfl
  have hwords : (directMachine start).translate (directMachine start).root (p / FRAME_SIZE) =
      some [mkEntry 1 tableFlags, mkEntry 0 (leafFlags false true ||| largeBit)] := by
    rw [directMachine_root, Machine.translate, Machine.words_below (by rw [htop]; decide) (by rw [htop]; decide), htop,
      entryPpn_mkEntry (by omega) tableFlags_masked, Machine.words, hbelow]
    rfl
  have hwritable : ∀ entry ∈ [mkEntry 1 tableFlags, mkEntry 0 (leafFlags false true ||| largeBit)], writable entry := by
    intro entry he
    rcases List.mem_cons.mp he with rfl | he
    · decide
    · obtain rfl := List.mem_singleton.mp he
      decide
  unfold Machine.storeTarget
  rw [if_pos hp, hwords, Option.bind_some, if_pos hwritable]
  rfl

theorem directMachine_frame : FrameLeft (directMachine start) := by
  have hok : Range.Ok (directMachine start) ⟨3 * 4096, 4096⟩ := by
    refine ⟨?_, ?_, by decide, ?_⟩
    · simp only [FRAME_SIZE]
    · simp only [FRAME_SIZE]
    · simp only [directMachine, bootMachine]
      omega
  exact ⟨_, _, alloc_range directMachine_hhdm rfl rfl hok⟩

theorem directMachine_gives (hA : ∀ p ∈ A, p < 2 ^ 64 → canonical p → start ≤ vpnIndex (p / FRAME_SIZE) 3) :
    Gives A (directMachine start) where
  missing _ := directMachine_missing
  frame := directMachine_frame
  stores p hp hlt hc := Or.inl (directMachine_target hc (hA p hp hlt hc))

end

/-! ## The files that are rejected -/

/-- The lower half of the root is blank, and the process has no mapping: so `init_thread` leaves the first process. -/
structure FreshSpace (s : Machine) : Prop where
  blank : BlankRoot s s.root
  private_vmes : s.privateVmes = []
  shared_vmes : s.sharedVmes = []

section

variable {nodes : Nat → BlockIO} {file : BlockIO} {s : Machine} {A : Set Nat}

theorem FirstRoot.freshSpace {entries : List MemmapEntry} {b : Machine} {root : Nat} (hb : BootedKernel entries b)
    (hshared : b.sharedVmes = []) (h : FirstRoot entries b s root) : FreshSpace s := by
  have hmaps := hb.booted.physWf.maps h.usable
  have hroot : s.root = root := OnRoot.root h.cr3 (Machine.maps_lt hb.booted.physWf.hhdm hmaps)
  refine ⟨fun i hi => ?_, congrArg Process.privateVmes h.process, h.shared_vmes.trans hshared⟩
  rw [hroot, h.blank i hi]
  exact not_present_zero

/-- In the lower half every store faults, and no handler helps. -/
theorem FreshSpace.upper {p : Nat} (h : FreshSpace s) (hp : StoreActs s p) : 2 ^ 47 ≤ p := by
  by_contra hlt
  rcases hp with htarget | ⟨-, hvme, -⟩
  · have hnone : s.translate s.root (p / FRAME_SIZE) = none :=
      Machine.words_absent (h.blank _ (vpnIndex_lower (by simp only [FRAME_SIZE]; omega)))
    rw [Machine.storeTarget, hnone, Option.bind_none, ite_self] at htarget
    cases htarget
  · rw [Machine.vmeFor, h.private_vmes, h.shared_vmes] at hvme
    cases hvme

/-- If one of the states gives what is asked for in `A`, and none lets a store act elsewhere, the fields of the file
decide. -/
theorem all_reject_iff {P : Machine → Prop} {m : Machine} (hm : P m) (hgives : Gives A m)
    (hA : ∀ s, P s → ∀ p, StoreActs s p → p ∈ A) :
    (∀ s, P s → Rejects nodes file s) ↔ WellFormedElf file ∨ Refused A file := by
  constructor
  · exact fun h => (rejects_iff.mp (h m hm)).imp_right (TakesNothing.refused hgives)
  · exact fun h s hs => rejects_iff.mpr (h.imp_right fun hrefused => hrefused.takesNothing (hA s hs))

theorem directMachine_fresh : FreshSpace (directMachine 256) := by
  refine ⟨fun i hi => ?_, rfl, rfl⟩
  rw [directMachine_root]
  have hzero : (directMachine 256).mem 2 i = 0 := by
    simp only [directMachine]
    rw [if_neg (by decide), if_neg (by omega)]
  rw [hzero]
  exact not_present_zero

theorem directMachine_fresh_gives : Gives {a | 2 ^ 47 ≤ a} (directMachine 256) := by
  refine directMachine_gives fun p hp hlt hc => ?_
  have hp : 2 ^ 47 ≤ p := hp
  have hpow : 2 ^ (9 * 3) = 134217728 := by decide
  simp only [vpnIndex, canonical, FRAME_SIZE, hpow] at hc ⊢
  omega

/--
Nothing is checked. The loader rejects a file that is not well-formed, from every state or from every fresh space,
only if no header asks for a page or for a byte that some such state lets it store.
-/
theorem elf_rejects_iff (nodes : Nat → BlockIO) (file : BlockIO) :
    ((∀ s, Rejects nodes file s) ↔ WellFormedElf file ∨ Refused Set.univ file) ∧
    ((∀ s, FreshSpace s → Rejects nodes file s) ↔ WellFormedElf file ∨ Refused {a | 2 ^ 47 ≤ a} file) := by
  constructor
  · have hgives : Gives Set.univ (directMachine 0) := directMachine_gives fun _ _ _ _ => Nat.zero_le _
    have hiff : (∀ s, True → Rejects nodes file s) ↔ WellFormedElf file ∨ Refused Set.univ file :=
      all_reject_iff trivial hgives fun _ _ _ _ => Set.mem_univ _
    exact ⟨fun h => hiff.mp fun s _ => h s, fun h s => hiff.mpr h s trivial⟩
  · exact all_reject_iff directMachine_fresh directMachine_fresh_gives fun _ hs _ => hs.upper

end

/-! ## A file that is no ELF file -/

def plainHeader : ElfHeader := ⟨[0, 0, 0, 0], 0x400000, 64, 56, 1⟩

/-- One page at 4 MiB, under a header without the magic. -/
def plainBytes : List Byte :=
  List.replicate 4 0 ++ (elfHeaderBytes 0x400000 64 56 1).drop 4 ++ programHeaderBytes ⟨1, 0, 0x400000, 0, 4096⟩ ++
    List.replicate 904 0

def plainFile : Node := blockDir plainBytes

theorem plainFile_headers : plainFile.io.elf_header = some plainHeader ∧
    plainFile.io.program_header 64 = some ⟨1, 0, 0x400000, 0, 4096⟩ := by
  have hstores : plainFile.Stores fun j => plainBytes.getD j 0 := blockDir_stores (by decide +kernel)
  have hheader : plainFile.io.readThing 0 64 = _ :=
    hstores.readThing_run (by decide) (by decide) (by decide) (by decide)
  have hprogram : plainFile.io.readThing 64 56 = _ :=
    hstores.readThing_run (by decide) (by decide) (by decide) (by decide)
  unfold BlockIO.elf_header BlockIO.program_header
  rw [hheader, hprogram]
  decide +kernel

theorem WellFormedElf.magic_eq {file : BlockIO} {hdr : ElfHeader} (h : WellFormedElf file)
    (hheader : file.elf_header = some hdr) : hdr.magic = [0x7f, 0x45, 0x4c, 0x46] := by
  obtain ⟨hdr', hheader', hmagic⟩ := h.magic
  obtain rfl := Option.some.inj (hheader.symm.trans hheader')
  exact hmagic

theorem plainHeader_takes (nodes : Nat → BlockIO) {file : BlockIO} (hheader : file.elf_header = some plainHeader)
    (hprogram : file.program_header 64 = some ⟨1, 0, 0x400000, 0, 4096⟩) :
    ¬ Rejects nodes file (directMachine 256) := by
  intro hrejects
  rcases rejects_iff.mp hrejects with hwf | hnothing
  · exact absurd (hwf.magic_eq hheader) (by decide)
  · have hasks : (⟨1, 0, 0x400000, 0, 4096⟩ : ProgramHeader).Asks file {a | 2 ^ 47 ≤ a} := by
      refine ⟨Or.inl (show 0x400000 < 2 ^ 47 by omega), Or.inl ⟨by decide, ?_⟩⟩
      simp only [FRAME_SIZE]
      omega
    exact (hnothing.refused directMachine_fresh_gives) plainHeader hheader 0 Nat.one_pos
      (fun j hj => absurd hj (Nat.not_lt_zero j)) _ hprogram rfl hasks

theorem plainFile_not_rejected :
    ¬ ∀ (nodes : Nat → BlockIO) (file : BlockIO) (s : Machine), FreshSpace s → Rejects nodes file s := by
  intro hall
  obtain ⟨hheader, hprogram⟩ := plainFile_headers
  exact plainHeader_takes (fun _ => emptyFile) hheader hprogram (hall _ _ _ directMachine_fresh)

end Kernel
