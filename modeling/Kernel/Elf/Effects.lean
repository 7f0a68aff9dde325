import Kernel.Elf.Load

/-!
# What `ELF.load` does to memory before it stops

The first header that asks for a page or a byte decides: the headers before it have
changed nothing.
-/

namespace Kernel

open Lib

/-! ## `isMapped` only reads -/

section

variable {s t : Machine} {b : Bool} {va p vpn level table : Nat} {r : Option (Nat × Nat)}

theorem VA_same (h : (VA p).run s = some (va, t)) : t = s := by
  unfold VA at h
  obtain ⟨-, h⟩ := Prog.assert_bind_some h
  exact (Prog.run_pure.mp h).2

theorem VA.ofPPN_same {ppn : Nat} (h : (VA.ofPPN ppn).run s = some (va, t)) : t = s := by
  unfold VA.ofPPN VA.ofPA at h
  rw [Prog.get_bind_run] at h
  exact VA_same h

theorem load_same {w : Word} {i : Nat} (h : (load p i).run s = some (w, t)) : t = s := by
  unfold load at h
  rw [Prog.get_bind_run] at h
  exact (Prog.run_pure.mp h).2

theorem leafPteFrom_same (h : (leafPteFrom vpn level table).run s = some (r, t)) : t = s := by
  induction level generalizing table with
  | zero => exact (Prog.run_pure.mp h).2
  | succ level ih =>
    unfold leafPteFrom at h
    obtain ⟨entry, u, hload, hrest⟩ := Prog.run_bind.mp h
    obtain rfl := load_same hload
    rcases Prog.run_ite.mp hrest with ⟨-, hrest⟩ | ⟨-, hrest⟩
    · obtain ⟨child, v, hchild, hbelow⟩ := Prog.run_bind.mp hrest
      obtain rfl := VA.ofPPN_same hchild
      exact ih hbelow
    · exact (Prog.run_pure.mp hrest).2

theorem leafPte_same (h : (leafPte va).run s = some (r, t)) : t = s := by
  unfold leafPte at h
  obtain ⟨_, u, hva, hrest⟩ := Prog.run_bind.mp h
  obtain rfl := VA_same hva
  dsimp only at hrest
  rw [Prog.get_bind_run] at hrest
  obtain ⟨root, v, hroot, hwalk⟩ := Prog.run_bind.mp hrest
  obtain rfl := VA.ofPPN_same hroot
  exact leafPteFrom_same hwalk

theorem isMapped_same (h : (isMapped va).run s = some (b, t)) : t = s := by
  unfold isMapped at h
  obtain ⟨pte, u, hpte, hrest⟩ := Prog.run_bind.mp h
  obtain rfl := leafPte_same hpte
  cases pte with
  | none => exact (Prog.run_pure.mp hrest).2
  | some entry =>
    obtain ⟨w, v, hload, hlast⟩ := Prog.run_bind.mp hrest
    obtain rfl := load_same hload
    exact (Prog.run_pure.mp hlast).2

end

/-! ## When an operation has an effect -/

/-- The assertions of `map_range` hold. -/
def rangeOk (start size : Nat) : Prop :=
  start ≤ sub64 (add64 start size) 1 ∧ start / FRAME_SIZE * FRAME_SIZE ≤ mapEnd start size

/-- Page `k` of the range is there, or it is not. -/
def pageThere (s : Machine) (start k : Nat) (there : Bool) : Prop :=
  (isMapped (start / FRAME_SIZE * FRAME_SIZE + k * FRAME_SIZE)).run s = some (there, s)

/-- The number of turns of `map_range`. -/
def mapTurns (start size : Nat) : Nat := pageCount (start / FRAME_SIZE * FRAME_SIZE) (mapEnd start size)

/-- There is a frame for a page. -/
def FrameLeft (s : Machine) : Prop := ∃ f t, PhysMem.alloc.run s = some (f, t)

/-- `map_range` comes to a page that is not there, and takes a frame for it. -/
def MapsPage (s : Machine) (start size : Nat) : Prop :=
  size ≠ 0 ∧ rangeOk start size ∧
    (∃ k < mapTurns start size, (∀ j < k, pageThere s start j true) ∧ pageThere s start k false) ∧ FrameLeft s

/-- `map_range` finds every page there. -/
def AllThere (s : Machine) (start size : Nat) : Prop :=
  size ≠ 0 → rangeOk start size ∧ ∀ k < mapTurns start size, pageThere s start k true

/-- The handler of a page fault at `p` has a VME and a frame for the page. -/
def FaultMaps (s : Machine) (p : Nat) : Prop :=
  (isMapped (p / FRAME_SIZE * FRAME_SIZE)).run s = some (false, s) ∧
    (s.vmeFor (p / FRAME_SIZE * FRAME_SIZE)).isSome ∧ FrameLeft s

/-- A store at `p` is made, or its fault maps a page. -/
def StoreActs (s : Machine) (p : Nat) : Prop := (s.storeTarget p).isSome ∨ FaultMaps s p

/-- From `s` the operation maps a page or writes a byte. -/
def LoadOp.Acts (s : Machine) : LoadOp → Prop
  | .map_range start size => MapsPage s start size
  | .put p _ => StoreActs s p

section

variable {nodes : Nat → BlockIO} {s : Machine} {start size p n : Nat} {b : Byte}

theorem pages_there (h : ∀ k < n, pageThere s start k true) : (Prog.forRange n fun k =>
    mapPage true true (start / FRAME_SIZE * FRAME_SIZE + k * FRAME_SIZE)).run s = some ((), s) :=
  Prog.forRange_trace (fun _ => s) fun k hk => by
    unfold mapPage
    exact Prog.bind_run (h k hk)

theorem map_range_there (h : AllThere s start size) : (map_range start size true true).run s = some ((), s) := by
  unfold map_range
  by_cases hsize : size = 0
  · rw [if_pos hsize]
    rfl
  · obtain ⟨⟨hlast, hend⟩, hpages⟩ := h hsize
    rw [if_neg hsize, Prog.assert_bind_run hlast]
    exact (Prog.assert_bind_run hend).trans (pages_there hpages)

theorem mapPage_stuck {va : Nat} (hva : (isMapped va).run s = some (false, s)) (hno : ¬ FrameLeft s) :
    (mapPage true true va).run s = none := by
  have halloc : PhysMem.alloc.run s = none := by
    rw [Option.eq_none_iff_forall_ne_some]
    exact fun r hr => hno ⟨r.1, r.2, hr⟩
  unfold mapPage
  rw [Prog.bind_run hva]
  exact Prog.bind_none halloc

theorem pages_stuck
    (hno : ¬ ((∃ k < n, (∀ j < k, pageThere s start j true) ∧ pageThere s start k false) ∧ FrameLeft s)) :
    (∀ k < n, pageThere s start k true) ∨ (Prog.forRange n fun k =>
      mapPage true true (start / FRAME_SIZE * FRAME_SIZE + k * FRAME_SIZE)).run s = none := by
  induction n with
  | zero => exact Or.inl fun _ hk => absurd hk (Nat.not_lt_zero _)
  | succ n ih =>
    rcases ih fun ⟨⟨k, hk, h⟩, hleft⟩ => hno ⟨⟨k, Nat.lt_succ_of_lt hk, h⟩, hleft⟩ with hall | hnone
    · rw [Prog.forRange_succ, Prog.bind_run (pages_there hall)]
      cases hrun : (isMapped (start / FRAME_SIZE * FRAME_SIZE + n * FRAME_SIZE)).run s with
      | none => exact Or.inr (Prog.bind_none hrun)
      | some r =>
        obtain ⟨there, t⟩ := r
        obtain rfl := isMapped_same hrun
        cases there with
        | false => exact Or.inr (mapPage_stuck hrun fun hleft => hno ⟨⟨n, Nat.lt_succ_self n, hall, hrun⟩, hleft⟩)
        | true =>
          refine Or.inl fun k hk => ?_
          rcases Nat.lt_succ_iff_lt_or_eq.mp hk with hlt | rfl
          · exact hall k hlt
          · exact hrun
    · rw [Prog.forRange_succ]
      exact Or.inr (Prog.bind_none hnone)

theorem map_range_stuck (hno : ¬ MapsPage s start size) (hthere : ¬ AllThere s start size) :
    (map_range start size true true).run s = none := by
  have hsize : size ≠ 0 := fun h => hthere fun hne => absurd h hne
  unfold map_range
  rw [if_neg hsize]
  by_cases hlast : sub64 (add64 start size) 1 ≥ start
  swap
  · exact Prog.assert_bind_none hlast
  rw [Prog.assert_bind_run hlast]
  by_cases hend : mapEnd start size ≥ start / FRAME_SIZE * FRAME_SIZE
  swap
  · exact Prog.assert_bind_none hend
  refine (Prog.assert_bind_run hend).trans ?_
  rcases pages_stuck fun h => hno ⟨hsize, ⟨hlast, hend⟩, h⟩ with hall | hnone
  · exact absurd (fun _ => ⟨⟨hlast, hend⟩, hall⟩) hthere
  · exact hnone

theorem ensureMappedPage_quiet {pageVa : Nat} {t : Machine} (h : (ensureMappedPage nodes pageVa).run s = some (true, t))
    (hno : ¬ ((isMapped pageVa).run s = some (false, s) ∧ (s.vmeFor pageVa).isSome ∧ FrameLeft s)) : t = s := by
  unfold ensureMappedPage at h
  obtain ⟨there, u, hthere, h⟩ := Prog.run_bind.mp h
  obtain rfl := isMapped_same hthere
  cases there with
  | true => exact (Prog.run_pure.mp h).2
  | false =>
    -- With a VME the page would be asked for again, and then a frame.
    have hfill : ∀ vme, u.vmeFor pageVa = some vme →
      (mapPageFromVme nodes vme pageVa).run u = some (true, t) → t = u := by
      intro vme hvme hrun
      unfold mapPageFromVme at hrun
      rw [Prog.bind_run hthere] at hrun
      obtain ⟨f, v, halloc, -⟩ := Prog.run_bind.mp hrun
      exact absurd ⟨hthere, Option.isSome_iff_exists.mpr ⟨vme, hvme⟩, f, v, halloc⟩ hno
    unfold Machine.vmeFor at hfill
    rw [if_neg Bool.false_ne_true, Prog.get_bind_run] at h
    cases hprivate : findVme u.privateVmes pageVa with
    | some vme =>
      rw [hprivate] at h
      exact hfill vme (by rw [hprivate, Option.some_or]) h
    | none =>
      rw [hprivate] at h
      cases hshared : findVme u.sharedVmes pageVa with
      | some vme =>
        rw [hshared] at h
        exact hfill vme (by rw [hprivate, hshared, Option.none_or]) h
      | none =>
        rw [hshared] at h
        exact absurd (Prog.run_pure.mp h).1 (by decide)

theorem putByte_stuck (h : ¬ StoreActs s p) : (putByte nodes p b).run s = none := by
  obtain ⟨htarget, hfault⟩ := not_or.mp h
  have htarget : s.storeTarget p = none := Option.not_isSome_iff_eq_none.mp htarget
  refine Prog.bind_none (Option.eq_none_iff_forall_ne_some.mpr ?_)
  rintro ⟨f, t⟩ hrun
  unfold storeFrame at hrun
  rw [Prog.get_bind_run] at hrun
  simp only [htarget] at hrun
  obtain ⟨mapped, u, hu, hchecked⟩ := Prog.run_bind.mp hrun
  obtain ⟨rfl, hagain⟩ := Prog.assert_bind_some hchecked
  obtain rfl := ensureMappedPage_quiet hu hfault
  rw [Prog.get_bind_run] at hagain
  simp only [htarget] at hagain
  exact Prog.run_panic.mp hagain

end

/-! ## One segment -/

/-- `read_all` of the segment delivers a byte. -/
def ReadsByte (file : BlockIO) (phdr : ProgramHeader) : Prop :=
  0 < phdr.filesz % 2 ^ 32 ∧ ∃ cnt m,
    (file.read (phdr.offset % 2 ^ 32) (phdr.filesz % 2 ^ 32) 0).run (fun _ => 0) = some (cnt, m) ∧ 0 < cnt

/-- `read_all` of the segment returns what the loader expects, and delivers no byte: -1 is `filesz` as a `uint32_t`. -/
def ReadsNothing (file : BlockIO) (phdr : ProgramHeader) : Prop :=
  phdr.filesz % 2 ^ 32 = 0 ∨ file.size_in_bytes < phdr.offset % 2 ^ 32 ∧ phdr.filesz % 2 ^ 32 = 2 ^ 32 - 1

/-- From `s` the loader maps a page or writes a byte for the segment. -/
def Takes (file : BlockIO) (s : Machine) (phdr : ProgramHeader) : Prop :=
  canonical phdr.vaddr ∧ (MapsPage s phdr.vaddr phdr.memsz ∨
    AllThere s phdr.vaddr phdr.memsz ∧ ReadsByte file phdr ∧ StoreActs s phdr.vaddr)

/-- The loader goes on behind the segment and has done nothing for it. -/
def Passes (file : BlockIO) (s : Machine) (phdr : ProgramHeader) : Prop :=
  canonical phdr.vaddr ∧ AllThere s phdr.vaddr phdr.memsz ∧ ReadsNothing file phdr

section

variable {nodes : Nat → BlockIO} {file : BlockIO} {s : Machine} {phdr : ProgramHeader} {offset n buffer turns : Nat}
  {total : Int}

theorem read_count {m m' : Memory} {cnt : Int} (h : (file.read offset n buffer).run m = some (cnt, m')) :
    cnt = -1 ∧ file.size_in_bytes < offset ∨ 0 ≤ cnt ∧ cnt ≤ n ∧ ¬ file.size_in_bytes < offset := by
  unfold BlockIO.read at h
  dsimp only at h
  split_ifs at h with hgt heq hwhole
  · obtain ⟨rfl, -⟩ := Prog.run_pure.mp h
    exact Or.inl ⟨rfl, hgt⟩
  · obtain ⟨rfl, -⟩ := Prog.run_pure.mp h
    exact Or.inr ⟨by omega, by omega, hgt⟩
  -- A whole block, or a part of one.
  all_goals
    obtain ⟨hle, h⟩ := Prog.assert_bind_some h
    obtain ⟨-, h⟩ := Prog.assert_bind_some h
    obtain ⟨-, h⟩ := Prog.assert_bind_some h
    obtain ⟨_, _, -, h⟩ := Prog.run_bind.mp h
    obtain ⟨_, _, -, h⟩ := Prog.run_bind.mp h
    obtain ⟨rfl, -⟩ := Prog.run_pure.mp h
    exact Or.inr ⟨by omega, by omega, hgt⟩

/-- What a read that delivers no byte returns, against what the loader expects. -/
theorem readsNothing_iff {cnt : Int} (hpos : 0 < phdr.filesz % 2 ^ 32)
    (hcnt : cnt = -1 ∧ file.size_in_bytes < phdr.offset % 2 ^ 32 ∨
      cnt = 0 ∧ ¬ file.size_in_bytes < phdr.offset % 2 ^ 32) :
    (cnt % 2 ^ 32).toNat = phdr.filesz % 2 ^ 32 ↔ ReadsNothing file phdr := by
  unfold ReadsNothing
  rcases hcnt with ⟨rfl, hend⟩ | ⟨rfl, hend⟩ <;> omega

theorem read_behind_end (h : file.size_in_bytes < offset) (m : Memory) :
    (file.read offset n buffer).run m = some (-1, m) := by
  unfold BlockIO.read
  rw [if_pos h]
  rfl

theorem read_all_quiet (buffer : Nat) (hno : ¬ ReadsByte file phdr) :
    (ELF.read_all file (phdr.offset % 2 ^ 32) (phdr.filesz % 2 ^ 32) buffer).ops = [] ∧
      ((∃ n, (ELF.read_all file (phdr.offset % 2 ^ 32) (phdr.filesz % 2 ^ 32) buffer).result = some n ∧
        (n % 2 ^ 32).toNat = phdr.filesz % 2 ^ 32) ↔ ReadsNothing file phdr) := by
  unfold ELF.read_all ELF.read_all_loop
  by_cases hpos : phdr.filesz % 2 ^ 32 > 0
  · rw [if_pos hpos]
    cases hread : (file.read (phdr.offset % 2 ^ 32) (phdr.filesz % 2 ^ 32) 0).run fun _ => 0 with
    | none =>
      rw [Script.ofOption_none_bind]
      refine ⟨rfl, iff_of_false ?_ ?_⟩
      · rintro ⟨n, hn, -⟩
        cases hn
      · rintro (h | ⟨h, -⟩)
        · omega
        · rw [read_behind_end h] at hread
          cases hread
    | some r =>
      obtain ⟨cnt, m⟩ := r
      have hle : ¬ 0 < cnt := fun h => hno ⟨hpos, cnt, m, hread, h⟩
      have htoNat : cnt.toNat = 0 := by omega
      have hcnt : cnt = -1 ∧ file.size_in_bytes < phdr.offset % 2 ^ 32 ∨
          cnt = 0 ∧ ¬ file.size_in_bytes < phdr.offset % 2 ^ 32 :=
        (read_count hread).imp_right fun h => ⟨by omega, h.2.2⟩
      rw [Script.ofOption_some_bind]
      dsimp only
      rw [Script.emit_bind, htoNat]
      have hresult : (∃ n, some cnt = some n ∧ (n % 2 ^ 32).toNat = phdr.filesz % 2 ^ 32) ↔ ReadsNothing file phdr := by
        simp only [Option.some.injEq, exists_eq_left', readsNothing_iff hpos hcnt]
      rcases hcnt with ⟨rfl, -⟩ | ⟨rfl, -⟩
      · exact ⟨rfl, hresult⟩
      · exact ⟨rfl, hresult⟩
  · rw [if_neg hpos]
    refine ⟨rfl, iff_of_true ⟨0, rfl, by omega⟩ (Or.inl (by omega))⟩

theorem read_all_first (h : ReadsByte file phdr) (hp : buffer < 2 ^ 64) :
    ∃ b ops, (ELF.read_all file (phdr.offset % 2 ^ 32) (phdr.filesz % 2 ^ 32) buffer).ops = .put buffer b :: ops := by
  obtain ⟨hpos, cnt, m, hread, hcnt⟩ := h
  unfold ELF.read_all ELF.read_all_loop
  rw [if_pos hpos, hread, Script.ofOption_some_bind]
  dsimp only
  obtain ⟨k, hk⟩ : ∃ k, cnt.toNat = k + 1 := ⟨cnt.toNat - 1, by omega⟩
  have hadd : add64 buffer 0 = buffer := Nat.mod_eq_of_lt hp
  rw [Script.emit_bind, hk, List.range_succ_eq_map, List.map_cons, List.cons_append, hadd]
  exact ⟨_, _, rfl⟩

theorem load_segment_ops (hc : canonical phdr.vaddr) : (ELF.load_segment file phdr).ops =
    .map_range phdr.vaddr phdr.memsz ::
      (ELF.read_all file (phdr.offset % 2 ^ 32) (phdr.filesz % 2 ^ 32) phdr.vaddr).ops := by
  unfold ELF.load_segment
  dsimp only
  rw [Script.assert_bind hc, Script.emit_bind]
  refine congrArg (List.cons _) ?_
  cases hr : (ELF.read_all file (phdr.offset % 2 ^ 32) (phdr.filesz % 2 ^ 32) phdr.vaddr).result with
  | none =>
    rw [Script.bind_none hr]
    rfl
  | some n =>
    rw [Script.bind_some hr, Script.assert]
    split_ifs <;> exact List.append_nil _

theorem load_segment_result (hc : canonical phdr.vaddr) : (ELF.load_segment file phdr).result = some () ↔
    ∃ n, (ELF.read_all file (phdr.offset % 2 ^ 32) (phdr.filesz % 2 ^ 32) phdr.vaddr).result = some n ∧
      (n % 2 ^ 32).toNat = phdr.filesz % 2 ^ 32 := by
  unfold ELF.load_segment
  dsimp only
  rw [Script.assert_bind hc, Script.emit_bind]
  dsimp only
  cases hr : (ELF.read_all file (phdr.offset % 2 ^ 32) (phdr.filesz % 2 ^ 32) phdr.vaddr).result with
  | none =>
    rw [Script.bind_none hr]
    exact iff_of_false (fun h => by cases h) fun ⟨n, hn, _⟩ => by cases hn
  | some n =>
    rw [Script.bind_some hr, Script.assert]
    split_ifs with hn
    · exact iff_of_true rfl ⟨n, rfl, hn⟩
    · refine iff_of_false (fun h => by cases h) ?_
      rintro ⟨k, hk, hcnt⟩
      obtain rfl := Option.some.inj hk
      exact hn hcnt

theorem load_segment_stop (hc : ¬ canonical phdr.vaddr) : ELF.load_segment file phdr = Script.panic := by
  unfold ELF.load_segment
  dsimp only
  rw [Script.assert_not_bind hc]

theorem meets_segment (hv : phdr.vaddr < 2 ^ 64) :
    Script.Meets (LoadOp.act nodes) LoadOp.Acts (ELF.load_segment file phdr).ops s ↔ Takes file s phdr := by
  by_cases hc : canonical phdr.vaddr
  swap
  · rw [load_segment_stop hc]
    exact iff_of_false id fun h => hc h.1
  rw [load_segment_ops hc]
  show MapsPage s phdr.vaddr phdr.memsz ∨ (∃ t, (map_range phdr.vaddr phdr.memsz true true).run s = some ((), t) ∧
    Script.Meets _ _ _ t) ↔ _
  unfold Takes
  refine Iff.trans ?_ (and_iff_right hc).symm
  by_cases hmaps : MapsPage s phdr.vaddr phdr.memsz
  · exact iff_of_true (Or.inl hmaps) (Or.inl hmaps)
  refine or_congr_right ?_
  by_cases hthere : AllThere s phdr.vaddr phdr.memsz
  swap
  · rw [map_range_stuck hmaps hthere]
    exact iff_of_false (fun ⟨t, ht, _⟩ => by cases ht) fun h => hthere h.1
  rw [map_range_there hthere]
  by_cases hreads : ReadsByte file phdr
  · obtain ⟨b, ops, hops⟩ := read_all_first hreads hv
    rw [hops]
    constructor
    · rintro ⟨t, ht, hput | ⟨u, hu, -⟩⟩
      · obtain ⟨-, rfl⟩ := Prod.mk.inj (Option.some.inj ht)
        exact ⟨hthere, hreads, hput⟩
      · obtain ⟨-, rfl⟩ := Prod.mk.inj (Option.some.inj ht)
        refine ⟨hthere, hreads, ?_⟩
        by_contra hno
        have hu : (putByte nodes phdr.vaddr b).run s = some ((), u) := hu
        rw [putByte_stuck hno] at hu
        cases hu
    · exact fun h => ⟨s, rfl, Or.inl h.2.2⟩
  · rw [(read_all_quiet _ hreads).1]
    exact iff_of_false (fun ⟨t, _, h⟩ => h) fun h => hreads h.2.1

theorem segment_rest (hv : phdr.vaddr < 2 ^ 64) (hno : ¬ Takes file s phdr) {t : Machine} :
    ((ELF.load_segment file phdr).result = some () ∧
      (Script.runAll (LoadOp.act nodes) (ELF.load_segment file phdr).ops).run s = some ((), t)) ↔
    Passes file s phdr ∧ t = s := by
  by_cases hc : canonical phdr.vaddr
  swap
  · rw [load_segment_stop hc]
    exact iff_of_false (fun h => by cases h.1) fun h => hc h.1.1
  rw [load_segment_ops hc, load_segment_result hc]
  have hstep : ∀ ops, (Script.runAll (LoadOp.act nodes) (.map_range phdr.vaddr phdr.memsz :: ops)).run s =
      ((map_range phdr.vaddr phdr.memsz true true) >>= fun _ => Script.runAll (LoadOp.act nodes) ops).run s :=
        fun _ => rfl
  rw [hstep]
  unfold Passes
  by_cases hthere : AllThere s phdr.vaddr phdr.memsz
  swap
  · rw [StateT.run_bind, map_range_stuck (fun h => hno ⟨hc, Or.inl h⟩) hthere]
    exact iff_of_false (fun h => by cases h.2) fun h => hthere h.1.2.1
  rw [Prog.bind_run (map_range_there hthere)]
  by_cases hreads : ReadsByte file phdr
  · obtain ⟨b, ops, hops⟩ := read_all_first hreads hv
    have hstuck : ¬ StoreActs s phdr.vaddr := fun h => hno ⟨hc, Or.inr ⟨hthere, hreads, h⟩⟩
    rw [hops]
    refine iff_of_false (fun h => ?_) fun h => ?_
    · obtain ⟨_, u, hu, -⟩ := Prog.run_bind.mp h.2
      have hu : (putByte nodes phdr.vaddr b).run s = some ((), u) := hu
      rw [putByte_stuck hstuck] at hu
      cases hu
    · obtain ⟨hpos, cnt, m, hread, hcnt⟩ := hreads
      rcases h.1.2.2 with hzero | ⟨hend, -⟩
      · omega
      · rcases read_count hread with ⟨rfl, -⟩ | ⟨-, -, hin⟩
        · omega
        · exact hin hend
  · obtain ⟨hops, hresult⟩ := read_all_quiet phdr.vaddr hreads
    rw [hops, hresult]
    constructor
    · rintro ⟨hnothing, hrun⟩
      obtain ⟨-, rfl⟩ := Prog.run_pure.mp hrun
      exact ⟨⟨hc, hthere, hnothing⟩, rfl⟩
    · rintro ⟨⟨-, -, hnothing⟩, rfl⟩
      exact ⟨hnothing, rfl⟩

end

/-! ## All headers -/

/-- Where `load` reads header `i`. -/
def ElfHeader.headerOffset (hdr : ElfHeader) (i : Nat) : Nat := (hdr.phoff + i * hdr.phentsize) % 2 ^ 32

/-- The header at `hoff` makes the loader map a page or write a byte. -/
def HeaderTakes (file : BlockIO) (s : Machine) (hoff : Nat) : Prop :=
  ∃ phdr, file.program_header hoff = some phdr ∧ phdr.type = 1 ∧ Takes file s phdr

/-- The loader goes on behind the header at `hoff` and has done nothing. -/
def HeaderPasses (file : BlockIO) (s : Machine) (hoff : Nat) : Prop :=
  ∃ phdr, file.program_header hoff = some phdr ∧ (phdr.type = 1 → Passes file s phdr)

section

variable {nodes : Nat → BlockIO} {file : BlockIO} {s : Machine} {phentsize n hoff max_end : Nat} {hdr : ElfHeader}

theorem little_quad_lt (bytes : List Byte) : little (bytes.take 8) < 2 ^ 64 :=
  Nat.lt_of_lt_of_le (little_lt _) (Nat.pow_le_pow_right (show 0 < 256 by omega) (List.length_take_le 8 _))

theorem program_header_vaddr {phdr : ProgramHeader} (h : file.program_header hoff = some phdr) :
    phdr.vaddr < 2 ^ 64 := by
  obtain ⟨bytes, -, rfl⟩ := Option.map_eq_some_iff.mp h
  exact little_quad_lt _

theorem headerTakes_iff {phdr : ProgramHeader} (h : file.program_header hoff = some phdr) :
    HeaderTakes file s hoff ↔ phdr.type = 1 ∧ Takes file s phdr := by
  unfold HeaderTakes
  rw [h]
  simp only [Option.some.injEq, exists_eq_left']

theorem headerPasses_iff {phdr : ProgramHeader} (h : file.program_header hoff = some phdr) :
    HeaderPasses file s hoff ↔ (phdr.type = 1 → Passes file s phdr) := by
  unfold HeaderPasses
  rw [h]
  simp only [Option.some.injEq, exists_eq_left']

/-- The first header, or one behind it. -/
theorem first_succ {P Q : Nat → Prop} : (∃ i < n + 1, (∀ j < i, P j) ∧ Q i) ↔
    Q 0 ∨ P 0 ∧ ∃ i < n, (∀ j < i, P (j + 1)) ∧ Q (i + 1) := by
  simp only [Nat.exists_lt_succ_left, Nat.forall_lt_succ_left, Nat.not_lt_zero, false_implies,
    implies_true, true_and]
  refine or_congr_right ⟨?_, ?_⟩
  · rintro ⟨i, hi, ⟨h0, hbefore⟩, hq⟩
    exact ⟨h0, i, hi, hbefore, hq⟩
  · rintro ⟨h0, i, hi, hbefore, hq⟩
    exact ⟨i, hi, ⟨h0, hbefore⟩, hq⟩

theorem meets_loop : Script.Meets (LoadOp.act nodes) LoadOp.Acts
      (ELF.load_loop file phentsize n (hoff % 2 ^ 32) max_end).ops s ↔
    ∃ i < n, (∀ j < i, HeaderPasses file s ((hoff + j * phentsize) % 2 ^ 32)) ∧
      HeaderTakes file s ((hoff + i * phentsize) % 2 ^ 32) := by
  induction n generalizing hoff max_end with
  | zero =>
    refine iff_of_false id ?_
    rintro ⟨i, hi, -⟩
    exact Nat.not_lt_zero i hi
  | succ n ih =>
    have hnext : add32 (hoff % 2 ^ 32) phentsize = (hoff + phentsize) % 2 ^ 32 := by
      unfold add32
      omega
    have hshift : ∀ j, hoff + (j + 1) * phentsize = hoff + phentsize + j * phentsize := fun j => by
      rw [Nat.succ_mul]
      omega
    rw [first_succ]
    simp only [Nat.zero_mul, Nat.add_zero, hshift]
    unfold ELF.load_loop
    cases hread : file.program_header (hoff % 2 ^ 32) with
    | none =>
      rw [Script.ofOption_none_bind]
      unfold HeaderTakes HeaderPasses
      rw [hread]
      refine iff_of_false id ?_
      rintro (⟨_, h, -⟩ | ⟨⟨_, h, -⟩, -⟩) <;> cases h
    | some phdr =>
      have hv := program_header_vaddr hread
      rw [Script.ofOption_some_bind, headerTakes_iff hread, headerPasses_iff hread]
      dsimp only
      rw [hnext]
      by_cases htype : phdr.type = 1
      · rw [if_pos htype, Script.meets_bind, meets_segment hv]
        simp only [htype, true_and, true_implies]
        by_cases hno : Takes file s phdr
        · exact iff_of_true (Or.inl hno) (Or.inl hno)
        refine or_congr_right ⟨?_, ?_⟩
        · rintro ⟨_, t, hresult, hrun, h⟩
          obtain ⟨hpass, rfl⟩ := (segment_rest hv hno).mp ⟨hresult, hrun⟩
          exact ⟨hpass, ih.mp h⟩
        · rintro ⟨hpass, h⟩
          obtain ⟨hresult, hrun⟩ := (segment_rest hv hno).mpr ⟨hpass, rfl⟩
          exact ⟨(), s, hresult, hrun, ih.mpr h⟩
      · rw [if_neg htype, ih]
        simp only [htype, false_and, false_implies, true_and, false_or]

theorem meets_load : Script.Meets (LoadOp.act nodes) LoadOp.Acts (ELF.load file).ops s ↔
    ∃ hdr, file.elf_header = some hdr ∧ ∃ i < hdr.phnum, (∀ j < i, HeaderPasses file s (hdr.headerOffset j)) ∧
      HeaderTakes file s (hdr.headerOffset i) := by
  unfold ELF.load
  cases hread : file.elf_header with
  | none =>
    rw [Script.ofOption_none_bind]
    exact iff_of_false id fun ⟨_, h, _⟩ => by cases h
  | some hdr =>
    rw [Script.ofOption_some_bind, Script.meets_bind, meets_loop]
    constructor
    · rintro (h | ⟨_, _, _, _, h⟩)
      · exact ⟨hdr, rfl, h⟩
      · exact h.elim
    · rintro ⟨_, hhdr, h⟩
      obtain rfl := Option.some.inj hhdr
      exact Or.inl h

end

/-! ## Where the loader stores -/

section

variable {file : BlockIO} {phdr : ProgramHeader} {turns offset n buffer phentsize hoff max_end : Nat} {total : Int}
  {o : LoadOp}

theorem read_all_puts (hn : n < 2 ^ 32) (ho : o ∈ (ELF.read_all_loop file turns total offset n buffer).ops) :
    ∃ i < n, ∃ b, o = .put (add64 buffer i) b := by
  induction turns generalizing total offset n buffer with
  | zero => cases ho
  | succ turns ih =>
    unfold ELF.read_all_loop at ho
    split_ifs at ho with hpos
    · cases hread : (file.read offset n 0).run fun _ => 0 with
      | none =>
        rw [hread, Script.ofOption_none_bind] at ho
        cases ho
      | some r =>
        obtain ⟨cnt, m⟩ := r
        rw [hread, Script.ofOption_some_bind] at ho
        dsimp only at ho
        rw [Script.emit_bind] at ho
        have hcnt : cnt.toNat ≤ n := by
          rcases read_count hread with ⟨rfl, -⟩ | ⟨-, hle, -⟩
          · exact Nat.zero_le n
          · omega
        rcases List.mem_append.mp ho with ho | ho
        · obtain ⟨i, hi, rfl⟩ := List.mem_map.mp ho
          exact ⟨i, Nat.lt_of_lt_of_le (List.mem_range.mp hi) hcnt, _, rfl⟩
        · split_ifs at ho
          · cases ho
          · cases ho
          · have hsub : sub32 n cnt.toNat = n - cnt.toNat := sub32_eq hcnt hn
            obtain ⟨i, hi, b, rfl⟩ := ih (by omega) ho
            refine ⟨cnt.toNat + i, by omega, b, ?_⟩
            congr 1
            unfold add64
            omega
    · cases ho

theorem load_segment_puts {p : Nat} {b : Byte} (ho : LoadOp.put p b ∈ (ELF.load_segment file phdr).ops) :
    ∃ i < phdr.filesz % 2 ^ 32, p = add64 phdr.vaddr i := by
  by_cases hc : canonical phdr.vaddr
  · rw [load_segment_ops hc] at ho
    rcases List.mem_cons.mp ho with h | ho
    · cases h
    · obtain ⟨i, hi, b, h⟩ := read_all_puts (Nat.mod_lt _ (by omega)) ho
      obtain ⟨rfl, rfl⟩ := LoadOp.put.inj h
      exact ⟨i, hi, rfl⟩
  · rw [load_segment_stop hc] at ho
    cases ho

theorem load_loop_puts {p : Nat} {b : Byte}
    (ho : LoadOp.put p b ∈ (ELF.load_loop file phentsize n (hoff % 2 ^ 32) max_end).ops) :
    ∃ i < n, ∃ phdr, file.program_header ((hoff + i * phentsize) % 2 ^ 32) = some phdr ∧ phdr.type = 1 ∧
      ∃ k < phdr.filesz % 2 ^ 32, p = add64 phdr.vaddr k := by
  induction n generalizing hoff max_end with
  | zero => cases ho
  | succ n ih =>
    have hnext : add32 (hoff % 2 ^ 32) phentsize = (hoff + phentsize) % 2 ^ 32 := by
      unfold add32
      omega
    have hrest : ∀ m, LoadOp.put p b ∈ (ELF.load_loop file phentsize n ((hoff + phentsize) % 2 ^ 32) m).ops →
        ∃ i < n + 1, ∃ phdr, file.program_header ((hoff + i * phentsize) % 2 ^ 32) = some phdr ∧ phdr.type = 1 ∧
          ∃ k < phdr.filesz % 2 ^ 32, p = add64 phdr.vaddr k := by
      intro m hm
      obtain ⟨i, hi, h⟩ := ih hm
      refine ⟨i + 1, by omega, ?_⟩
      rwa [Nat.succ_mul, Nat.add_comm (i * phentsize), ← Nat.add_assoc]
    unfold ELF.load_loop at ho
    cases hread : file.program_header (hoff % 2 ^ 32) with
    | none =>
      rw [hread, Script.ofOption_none_bind] at ho
      cases ho
    | some phdr =>
      rw [hread, Script.ofOption_some_bind] at ho
      dsimp only at ho
      rw [hnext] at ho
      by_cases htype : phdr.type = 1
      · rw [if_pos htype] at ho
        rcases Script.mem_bind.mp ho with ho | ⟨_, -, ho⟩
        · refine ⟨0, Nat.zero_lt_succ n, phdr, ?_, htype, load_segment_puts ho⟩
          rwa [Nat.zero_mul, Nat.add_zero]
        · exact hrest _ ho
      · rw [if_neg htype] at ho
        exact hrest _ ho

theorem load_puts {p : Nat} {b : Byte} (ho : LoadOp.put p b ∈ (ELF.load file).ops) :
    ∃ hdr, file.elf_header = some hdr ∧ ∃ i < hdr.phnum, ∃ phdr, file.program_header (hdr.headerOffset i) = some phdr ∧
      phdr.type = 1 ∧ ∃ k < phdr.filesz % 2 ^ 32, p = add64 phdr.vaddr k := by
  unfold ELF.load at ho
  cases hread : file.elf_header with
  | none =>
    rw [hread, Script.ofOption_none_bind] at ho
    cases ho
  | some hdr =>
    rw [hread, Script.ofOption_some_bind] at ho
    rcases Script.mem_bind.mp ho with ho | ⟨_, -, ho⟩
    · exact ⟨hdr, rfl, load_loop_puts ho⟩
    · cases ho

end

end Kernel
