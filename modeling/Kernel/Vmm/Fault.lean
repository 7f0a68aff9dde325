import Kernel.Vmm.Bytes

/-!
# Demand paging (`vmm.cc`)

A page of a VME gets a frame when it is first asked for. `nodes` are the files
that the VMEs name.
-/

namespace Kernel

open Lib

/-- What `mapPageFromVme` puts into its frame: zeros, and then the bytes of the file. -/
def fillPage (nodes : Nat → BlockIO) (vme : VME) (pageVa frame : Nat) : K Unit := do
  let frameWords ← VA.ofPPN frame
  Prog.forRange 512 fun i => store frameWords i 0
  if vme.node ≠ 0 then do
    let framePtr ← VA.ofPPN frame
    let fileOffset := add64 vme.offset (sub64 pageVa vme.start) % 2 ^ 32
    let _ ← onBytes ((nodes vme.node).read_all fileOffset FRAME_SIZE framePtr)
  else pure ()

def mapPageFromVme (nodes : Nat → BlockIO) (vme : VME) (pageVa : Nat) : K Bool := do
  if ← isMapped pageVa then pure true
  else do
    let frame ← PhysMem.alloc
    markData frame
    fillPage nodes vme pageVa frame
    if ← isMapped pageVa then do
      PhysMem.free frame
      pure true
    else do
      let va ← VA pageVa
      map (va / FRAME_SIZE) frame true true
      pure true

/-- The first VME of a list that holds the page. -/
def findVme (vmes : List VME) (pageVa : Nat) : Option VME :=
  vmes.find? fun vme => decide (pageVa ≥ vme.start) && decide (pageVa < vme.end)

def ensureMappedPage (nodes : Nat → BlockIO) (pageVa : Nat) : K Bool := do
  if ← isMapped pageVa then pure true
  else do
    let s ← get
    match findVme s.privateVmes pageVa with
    | some vme => mapPageFromVme nodes vme pageVa
    | none =>
      match findVme s.sharedVmes pageVa with
      | some vme => mapPageFromVme nodes vme pageVa
      | none => pure false

/-- The loop of `is_user_range_mapped`, for at most `turns` more turns. -/
def pageLoop (nodes : Nat → BlockIO) (lastPage : Nat) : Nat → Nat → K Bool
  | 0, _ => Prog.panic
  | turns + 1, va => do
    let mapped ← ensureMappedPage nodes va
    if mapped = false then pure false
    else if va = lastPage then pure true
    else pageLoop nodes lastPage turns (add64 va FRAME_SIZE)

def is_user_range_mapped (nodes : Nat → BlockIO) (turns start size : Nat) : K Bool :=
  if size = 0 then pure true
  else if start < 0x1000 ∨ start ≥ 0x0000800000000000 then pure false
  else
    let last := sub64 (add64 start size) 1
    if last < start ∨ last ≥ 0x0000800000000000 then pure false
    else
      let firstPage := start / FRAME_SIZE * FRAME_SIZE
      let lastPage := last / FRAME_SIZE * FRAME_SIZE
      pageLoop nodes lastPage turns firstPage

/-! ## A frame with the bytes of a VME -/

/-- Byte `j` of a page, as its VME has it. -/
def vmeByte (nodes : Nat → BlockIO) (vme : VME) (pageVa j : Nat) : Byte :=
  let fileOffset := add64 vme.offset (sub64 pageVa vme.start) % 2 ^ 32
  if vme.node ≠ 0 ∧ fileOffset + j < (nodes vme.node).size_in_bytes then (nodes vme.node).byte (fileOffset + j) else 0

/-- The file of the VME, if it has one, can be read. -/
def Readable (nodes : Nat → BlockIO) (vme : VME) : Prop := vme.node ≠ 0 → (nodes vme.node).Delivers

/-- Frame `f` has new bytes, and nothing else changed. -/
structure FrameFilled (s : Machine) (f : Nat) (bytes : Nat → Byte) (t : Machine) : Prop where
  bytes : ∀ j, j < 4096 → t.frameByte f j = bytes j
  state : t = { s with mem := t.mem }
  other : ∀ g, g ≠ f → t.mem g = s.mem g

theorem read_all_behind {d : BlockIO} {offset n buffer : Nat} {m : Memory} (h : d.size_in_bytes < offset) (hn : 0 < n) :
    (d.read_all offset n buffer).run m = some (-1, m) := by
  have hread : (d.read offset n buffer).run m = some (-1, m) := by
    unfold BlockIO.read
    rw [if_pos h]
    rfl
  unfold BlockIO.read_all BlockIO.read_all_loop
  rw [if_pos hn, Prog.bind_run hread, if_pos (by decide)]
  rfl

section

variable {s : Machine} {nodes : Nat → BlockIO} {vme : VME} {pageVa f : Nat}

theorem zeroFrame_byte {j : Nat} (hj : j < 4096) : (s.zeroFrame f).frameByte f j = 0 := by
  have hzero : (s.zeroFrame f).mem f (j / 8) = 0 := by
    have hlt : j / 8 < 512 := by omega
    simp [Machine.zeroFrame, hlt]
  apply BitVec.eq_of_toNat_eq
  rw [Machine.frameByte, hzero, wordByte_toNat]
  simp

theorem fillPage_run (pageVa : Nat) (hh : HhdmOk s) (hm : s.maps f) (hread : Readable nodes vme) :
    ∃ t, (fillPage nodes vme pageVa f).run s = some ((), t) ∧ FrameFilled s f (vmeByte nodes vme pageVa) t := by
  have hzero : ∀ g, g ≠ f → (s.zeroFrame f).mem g = s.mem g := by
    intro g hg
    funext i
    simp [Machine.zeroFrame, hg]
  unfold fillPage
  rw [Prog.bind_run (VA.ofPPN_run hh hm), Prog.bind_run (zero_loop rfl)]
  by_cases hnode : vme.node ≠ 0
  · have hd := hread hnode
    rw [if_pos hnode, Prog.bind_run (VA.ofPPN_run (s := s.zeroFrame f) (hh.congr rfl) hm)]
    dsimp only
    generalize hoff : add64 vme.offset (sub64 pageVa vme.start) % 2 ^ 32 = offset
    have hbyte : ∀ j, vmeByte nodes vme pageVa j =
        if offset + j < (nodes vme.node).size_in_bytes then (nodes vme.node).byte (offset + j) else 0 := by
      intro j
      unfold vmeByte
      simp only [hoff, hnode, ne_eq, not_false_eq_true, true_and]
    generalize hn : min FRAME_SIZE ((nodes vme.node).size_in_bytes - offset) = n
    have hn4 : n ≤ 4096 := by
      simp only [FRAME_SIZE] at hn; omega
    have hsome : ∃ r, ((nodes vme.node).read_all offset FRAME_SIZE (s.vaOf f)).run (s.zeroFrame f).bytes =
        some (r, (s.zeroFrame f).bytes.fill (s.vaOf f) n fun i => (nodes vme.node).byte (offset + i)) := by
      rcases Nat.lt_or_ge (nodes vme.node).size_in_bytes offset with hlt | hge
      · have hn0 : n = 0 := by omega
        rw [hn0, Memory.fill_zero]
        exact ⟨_, read_all_behind hlt (by simp [FRAME_SIZE])⟩
      · rw [← hn]
        exact ⟨_, hd.read_all_spec _ (by simp [FRAME_SIZE]) hge _⟩
    obtain ⟨r, hr⟩ := hsome
    refine ⟨(s.zeroFrame f).setBytes
      ((s.zeroFrame f).bytes.fill (s.vaOf f) n fun i => (nodes vme.node).byte (offset + i)), ?_, fun j hj => ?_, rfl,
      fun g hg => (setBytes_other hn4 hg).trans (hzero g hg)⟩
    · have hbytes : (onBytes ((nodes vme.node).read_all offset FRAME_SIZE (s.vaOf f))).run (s.zeroFrame f) = some (r,
          (s.zeroFrame f).setBytes
            ((s.zeroFrame f).bytes.fill (s.vaOf f) n fun i => (nodes vme.node).byte (offset + i))) := by
        show Option.map _ (((nodes vme.node).read_all offset FRAME_SIZE (s.vaOf f)).run (s.zeroFrame f).bytes) = _
        rw [hr]
        rfl
      exact (Prog.bind_run hbytes).trans rfl
    · refine (setBytes_byte (f := f) hj).trans ?_
      rw [hbyte, zeroFrame_byte hj]
      by_cases hj' : j < n
      · rw [if_pos hj', if_pos (by omega)]
      · rw [if_neg hj', if_neg (by simp only [FRAME_SIZE] at hn; omega)]
  · refine ⟨s.zeroFrame f, by rw [if_neg hnode]; rfl, fun j hj => ?_, rfl, hzero⟩
    rw [zeroFrame_byte hj, vmeByte, if_neg fun h => hnode h.1]

end

/-! ## One page -/

/-- The VME that gives a page its bytes: a private one, else a shared one. -/
def Machine.vmeFor (s : Machine) (pageVa : Nat) : Option VME :=
  (findVme s.privateVmes pageVa).or (findVme s.sharedVmes pageVa)

/-- What the process is to read at `a`: the page that is there, or what a VME has for it. -/
def Machine.expectedByte (s : Machine) (nodes : Nat → BlockIO) (root a : Nat) : Option Byte :=
  (s.userByte root a).or
    ((s.vmeFor (a / FRAME_SIZE * FRAME_SIZE)).map fun vme =>
      vmeByte nodes vme (a / FRAME_SIZE * FRAME_SIZE) (a % FRAME_SIZE))

/-- If a page is not there and has a VME, the frames that `map` takes for its tables have no present word. -/
def FaultClean (nodes : Nat → BlockIO) (pageVa : Nat) (s : Machine) : Prop :=
  s.pageEntry s.root (pageVa / FRAME_SIZE) = none → ∀ vme, s.vmeFor pageVa = some vme →
    ∀ f u w, PhysMem.alloc.run s = some (f, u) → (fillPage nodes vme pageVa f).run (u.marked f) = some ((), w) →
      mapClean (pageVa / FRAME_SIZE) 3 s.root w

/-- If a page is not there and has a VME, there are frames for it and for its tables. -/
def FramesLeft (pageVa : Nat) (s : Machine) : Prop :=
  s.pageEntry s.root (pageVa / FRAME_SIZE) = none → ∀ vme, s.vmeFor pageVa = some vme →
    ∀ F, PhysWf s F → 1 + tablesMissing s (pageVa / FRAME_SIZE) 3 s.root ≤ F.ncard

theorem tablesMissing_congr {s t : Machine} {vpn level table : Nat}
    (h : ∀ π g, π <+: tablePath vpn level → walk s.edge table π = some g → t.mem g = s.mem g) :
    tablesMissing t vpn level table = tablesMissing s vpn level table := by
  induction level generalizing table with
  | zero => rfl
  | succ level ih =>
    unfold tablesMissing
    rw [h [] table List.nil_prefix rfl]
    dsimp only
    split_ifs with hp
    · refine ih fun π g hπ hw => h (vpnIndex vpn (level + 1) :: π) g ?_ ?_
      · rw [tablePath, List.prefix_cons_inj]
        exact hπ
      · rw [walk_cons_some (edge_of_present (vpnIndex_lt vpn _) hp)]
        exact hw
    · rfl

section

variable {s t w : Machine} {nodes : Nat → BlockIO} {vme : VME} {F F' D : Set Nat} {root pageVa f : Nat} {flags : Word}

theorem PageFrame.fill {bytes : Nat → Byte} (h : PageFrame s F D root f w) (hfill : FrameFilled w f bytes t) :
    PageFrame s F D root f t := by
  have hstate := hfill.state
  have hhh : t.hhdm_offset = w.hhdm_offset := by rw [hstate]
  have hown : t.owner = w.owner := by rw [hstate]
  have hregs : t.regs = w.regs := by rw [hstate]; rfl
  have hout : ∀ g ∈ D, g ≠ f := fun g hg e => h.off (e ▸ hg)
  refine ⟨⟨h.space.wf.congr hhh (by rw [hstate]) (by rw [hstate]) fun g hg => hfill.other g hg.2, fun g hg => ?_,
    h.space.root_mem, ?_⟩, h.free, (Machine.maps_congr hhh f).mpr h.maps, h.off, h.small, by rw [hown]; exact h.owner,
    fun g hg => ⟨(hfill.other g hg).trans (h.other g hg).1, (congrFun hown g).trans (h.other g hg).2⟩,
    hregs.trans h.regs⟩
  · exact ⟨(h.space.owned g hg).1, (Machine.maps_congr hhh g).mpr (h.space.owned g hg).2⟩
  · exact h.space.forest.congr (fun i _ => congrFun (hfill.other root (hout root h.space.root_mem)) i)
      (fun g hg _ => hfill.other g (hout g hg)) fun g _ _ => congrFun hown g

theorem PageAdded.userByte (h : PageAdded s F D root (pageVa / FRAME_SIZE) f flags w t F')
    (hf : flags &&& addressMask = 0) {a : Nat} (ha : a < 2 ^ 47) :
    t.userByte root a =
      if a / FRAME_SIZE = pageVa / FRAME_SIZE then some (w.frameByte f (a % FRAME_SIZE)) else s.userByte root a := by
  have hv : a / FRAME_SIZE < 2 ^ 35 := by
    simp only [FRAME_SIZE]; omega
  unfold Machine.userByte
  split_ifs with hpage
  · rw [hpage, h.entry, Option.map_some, entryPpn_mkEntry h.small hf]
    unfold Machine.frameByte
    rw [h.content]
  · rw [h.others _ hv hpage]
    cases he : s.pageEntry root (a / FRAME_SIZE) with
    | none => rfl
    | some entry =>
      rw [Option.map_some, Option.map_some]
      unfold Machine.frameByte
      rw [h.pages _ (Machine.page_mem hv he)]

theorem PageFrame.tables (hw : PageFrame s F D root f w) (h : Space s F D s.acting root) :
    ∀ g ∈ s.lowerTables root, w.mem g = s.mem g := by
  intro g hg
  refine (hw.other g ?_).1
  rintro rfl
  exact hw.off (h.tables hg)

theorem mapPageFromVme_map {u : Machine} (h : Space s F D s.acting root) (hr : OnRoot s root) (hva : pageVa < 2 ^ 47)
    (hnone : s.pageEntry root (pageVa / FRAME_SIZE) = none) (halloc : PhysMem.alloc.run s = some (f, u))
    (hfill : (fillPage nodes vme pageVa f).run (u.marked f) = some ((), w)) (hw : PageFrame s F D root f w) :
    (mapPageFromVme nodes vme pageVa).run s =
      ((mapAt (pageVa / FRAME_SIZE) f true true 3 root).run w).map fun r => (true, r.2) := by
  have hv : pageVa / FRAME_SIZE < 2 ^ 35 := by
    simp only [FRAME_SIZE]; omega
  have hrw : OnRoot w root := hr.congr hw.regs
  have hmapped : (isMapped pageVa).run w = some (false, w) := by
    rw [hw.space.isMapped_run hrw hva, pageEntry_congr hv (hw.tables h), hnone]
    rfl
  have hmap : (map (pageVa / FRAME_SIZE) f true true).run w =
      (mapAt (pageVa / FRAME_SIZE) f true true 3 root).run w := by
    rw [map, Prog.get_bind_run, hrw.ofPA]
  unfold mapPageFromVme
  rw [Prog.bind_run (h.isMapped_run hr hva), hnone, Option.isSome_none, if_neg (by simp),
    Prog.bind_run halloc, markData, Prog.modify_bind_run]
  refine (Prog.bind_run hfill).trans ?_
  rw [Prog.bind_run hmapped, if_neg (by simp), VA, Prog.bind_run (Prog.assert_bind_run (Or.inl hva)), StateT.run_bind,
    hmap]
  cases (mapAt (pageVa / FRAME_SIZE) f true true 3 root).run w <;> rfl

theorem mapPageFromVme_run (h : Space s F D s.acting root) (hr : OnRoot s root) (hva : pageVa < 2 ^ 47)
    (hnone : s.pageEntry root (pageVa / FRAME_SIZE) = none) (hread : Readable nodes vme)
    (hclean : ∀ f u w, PhysMem.alloc.run s = some (f, u) →
      (fillPage nodes vme pageVa f).run (u.marked f) = some ((), w) → mapClean (pageVa / FRAME_SIZE) 3 root w)
    (hframes : 1 + tablesMissing s (pageVa / FRAME_SIZE) 3 root ≤ F.ncard) :
    ∃ t f w F', (mapPageFromVme nodes vme pageVa).run s = some (true, t) ∧
      PageAdded s F D root (pageVa / FRAME_SIZE) f (leafFlags true true) w t F' ∧
      ∀ j, j < 4096 → w.frameByte f j = vmeByte nodes vme pageVa j := by
  have hv : pageVa / FRAME_SIZE < 2 ^ 35 := by
    simp only [FRAME_SIZE]; omega
  obtain ⟨f, u, halloc⟩ := alloc_returns h.wf (Set.nonempty_of_ncard_ne_zero (by omega))
  have hf := h.pageFrame halloc
  obtain ⟨w, hfillrun, hfill⟩ := fillPage_run pageVa hf.space.wf.hhdm hf.maps hread
  have hw := hf.fill hfill
  have hclean := hclean f u w halloc hfillrun
  have hmissing : tablesMissing w (pageVa / FRAME_SIZE) 3 root = tablesMissing s (pageVa / FRAME_SIZE) 3 root :=
    tablesMissing_congr fun π g hπ hwalk => hw.tables h g ⟨π, lowerPath_initial hv hπ, by
      have := hπ.length_le
      rwa [tablePath_length] at this, hwalk⟩
  have hcard := Set.ncard_sdiff_singleton_add_one hw.free h.wf.finite
  obtain ⟨t, hmap⟩ := mapAt_returns f true true hw.space.wf hw.space.forest hw.space.root_mem
    (vpnIndex_lower hv) hw.space.owned hclean (by omega)
  obtain ⟨F', hadded⟩ := hw.adds h hva hnone hclean hmap
  refine ⟨t, f, w, F', ?_, hadded, hfill.bytes⟩
  rw [mapPageFromVme_map h hr hva hnone halloc hfillrun hw, hmap]
  rfl

theorem ensureMappedPage_private (h : Space s F D s.acting root) (hr : OnRoot s root) (hva : pageVa < 2 ^ 47)
    (hnone : s.pageEntry root (pageVa / FRAME_SIZE) = none) (hvme : findVme s.privateVmes pageVa = some vme) :
    (ensureMappedPage nodes pageVa).run s = (mapPageFromVme nodes vme pageVa).run s := by
  unfold ensureMappedPage
  rw [Prog.bind_run (h.isMapped_run hr hva), hnone, Option.isSome_none, if_neg (by simp), Prog.get_bind_run, hvme]

theorem ensureMappedPage_run (h : Space s F D s.acting root) (hr : OnRoot s root) (hva : pageVa < 2 ^ 47)
    (hread : ∀ vme, s.vmeFor pageVa = some vme → Readable nodes vme) (hclean : FaultClean nodes pageVa s)
    (hframes : FramesLeft pageVa s) :
    ((s.pageEntry root (pageVa / FRAME_SIZE)).isSome ∧ (ensureMappedPage nodes pageVa).run s = some (true, s)) ∨
    (∃ vme t f w F', s.pageEntry root (pageVa / FRAME_SIZE) = none ∧ s.vmeFor pageVa = some vme ∧
      (ensureMappedPage nodes pageVa).run s = some (true, t) ∧
      PageAdded s F D root (pageVa / FRAME_SIZE) f (leafFlags true true) w t F' ∧
      ∀ j, j < 4096 → w.frameByte f j = vmeByte nodes vme pageVa j) ∨
    (s.pageEntry root (pageVa / FRAME_SIZE) = none ∧ s.vmeFor pageVa = none ∧
      (ensureMappedPage nodes pageVa).run s = some (false, s)) := by
  rw [FaultClean, hr.root h.root_lt] at hclean
  rw [FramesLeft, hr.root h.root_lt] at hframes
  unfold ensureMappedPage
  rw [Prog.bind_run (h.isMapped_run hr hva)]
  cases he : s.pageEntry root (pageVa / FRAME_SIZE) with
  | some entry => exact Or.inl ⟨rfl, rfl⟩
  | none =>
    right
    rw [Option.isSome_none, if_neg (by simp), Prog.get_bind_run]
    have hvme : s.vmeFor pageVa = (findVme s.privateVmes pageVa).or (findVme s.sharedVmes pageVa) := rfl
    cases hpriv : findVme s.privateVmes pageVa with
    | some vme =>
      rw [hpriv, Option.some_or] at hvme
      obtain ⟨t, f, w, F', hrun, hadded, hbytes⟩ := mapPageFromVme_run h hr hva he (hread vme hvme) (hclean he vme hvme)
        (hframes he vme hvme F h.wf)
      exact Or.inl ⟨vme, t, f, w, F', rfl, hvme, hrun, hadded, hbytes⟩
    | none =>
      rw [hpriv, Option.none_or] at hvme
      cases hshared : findVme s.sharedVmes pageVa with
      | some vme =>
        rw [hshared] at hvme
        obtain ⟨t, f, w, F', hrun, hadded, hbytes⟩ := mapPageFromVme_run h hr hva he (hread vme hvme)
          (hclean he vme hvme) (hframes he vme hvme F h.wf)
        exact Or.inl ⟨vme, t, f, w, F', rfl, hvme, hrun, hadded, hbytes⟩
      | none =>
        rw [hshared] at hvme
        exact Or.inr ⟨rfl, hvme, rfl⟩

end

end Kernel
