import Kernel.Vmm.Fault
import Kernel.Vmm.Private
import Kernel.Vmm.Recycled
import Kernel.Vmm.Way

/-!
# Demand paging gives a page its bytes

The page may be one of a private VME or of a shared one, in the upper half. The
position in the file is cut to 32 bits on its way to the read.
-/

namespace Kernel

open Lib

section

variable {s t u w : Machine} {F F' : Set Nat} {root vpn v pageVa f : Nat} {flags : Word} {nodes : Nat → BlockIO}
  {vme : VME}

/-! ## The tables that the processor walks -/

/-- The tables of a root. The pages of 2 MiB and 1 GiB of the direct map are none. -/
abbrev RootTables (s : Machine) (F : Set Nat) (root : Nat) : Prop := TreeUpTo large s F root

theorem NoLarge.clear (h : NoLarge s root vpn) : Clear large s root vpn (leafFlags true true) where
  way _ hρ := h.walks hρ
  tables := not_large_mkEntry (by decide)
  leaf := not_large_mkEntry (by decide)

theorem NoLarge.way (h : NoLarge s root vpn) (ht : RootTables s F root) :
    ∀ π g, π <+: tablePath vpn 3 → walk s.edge root π = some g → g ∉ F ∧ s.maps g :=
  fun π g hπ hw => ht.live π g (initial_length hπ) ((h.walks hπ).trans hw)

/-! ## One page -/

/-- Page `vpn` is new, on frame `f`, which was free. `F'` is still free. -/
structure NewPage (s : Machine) (F : Set Nat) (root vpn f : Nat) (t : Machine) (F' : Set Nat) : Prop where
  wf : PhysWf t F'
  free : f ∈ F
  sub : F' ⊆ F \ {f}
  /-- The last of four words leads to the frame. -/
  entry : ∃ above, t.translate root vpn = some (above ++ [mkEntry f (leafFlags true true)]) ∧ above.length = 3
  small : f < 2 ^ 40
  /-- No table has the frame. -/
  apart : ∀ π, π.length ≤ 3 → walk t.tableEdge root π ≠ some f
  others : ∀ v, pagePath v 3 ≠ pagePath vpn 3 → t.translate root v = s.translate root v
  /-- Of the frames in use, one word of one table changes. -/
  word : ∃ π g i, π.length ≤ 3 ∧ walk s.tableEdge root π = some g ∧
    ∀ m j, m ∉ F → ¬ (m = g ∧ j = i) → t.mem m j = s.mem m j
  regs : t.regs = s.regs

/-- On `w`, after an `alloc` in `s`, frame `f` is taken and filled. -/
structure FrameTaken (s : Machine) (F : Set Nat) (f : Nat) (w : Machine) : Prop where
  free : f ∈ F
  small : f < 2 ^ 40
  wf : PhysWf w (F \ {f})
  other : ∀ g, g ≠ f → w.mem g = s.mem g
  regs : w.regs = s.regs

theorem FrameTaken.filled {bytes : Nat → Byte} (hwf : PhysWf s F) (halloc : PhysMem.alloc.run s = some (f, u))
    (hfill : FrameFilled (u.marked f) f bytes w) : FrameTaken s F f w := by
  have ha := alloc_spec hwf halloc
  have hstate := hfill.state
  refine ⟨ha.mem_free, ?_, ?_, fun g hg => ?_, ?_⟩
  · have := Machine.maps_lt hwf.hhdm (hwf.maps ha.mem_free)
    omega
  · exact ha.wf.congr (by rw [hstate]; rfl) (by rw [hstate]; rfl) (by rw [hstate]; rfl) fun g hg => hfill.other g hg.2
  · exact (hfill.other g hg).trans (ha.other g hg)
  · rw [← ha.regs, hstate]
    rfl

theorem FrameTaken.used (h : FrameTaken s F f w) : ∀ g, g ∉ F → w.mem g = s.mem g :=
  fun g hg => h.other g fun e => hg (e ▸ h.free)

theorem FrameTaken.tree (h : FrameTaken s F f w) (ht : RootTables s F root) : RootTables w (F \ {f}) root := by
  refine ⟨h.wf, fun π g hπ hw => ?_, fun π ρ g hπ hρ hw hw' => ?_⟩
  · rw [ht.walk_congr h.used (by omega)] at hw
    obtain ⟨hg, hm⟩ := ht.live π g hπ hw
    exact ⟨fun hg' => hg hg'.1, (Machine.maps_congr (Machine.regs_hhdm h.regs) g).mpr hm⟩
  · rw [ht.walk_congr h.used (by omega)] at hw hw'
    exact ht.once π ρ g hπ hρ hw hw'

theorem FrameTaken.noLarge (h : FrameTaken s F f w) (ht : RootTables s F root) (hn : NoLarge s root vpn) :
    NoLarge w root vpn := by
  intro words hwords
  rw [Machine.translate, ht.words_congr h.used] at hwords
  exact hn words hwords

theorem WayMapped.tables (h : WayMapped s F vpn 3 root f flags t F')
    (hclear : Clear large s root vpn flags) {ρ : List Nat} {g : Nat} (hρ : ρ <+: tablePath vpn 3)
    (hw : walk t.edge root ρ = some g) : walk t.tableEdge root ρ = some g := by
  refine walk_keep (fun τ j c d hτ hc hd => ?_) hw
  obtain ⟨hj, hp, hf⟩ := Machine.edge_some.mp hd
  refine Machine.through_some.mpr ⟨hj, hp, ?_, hf⟩
  have hpre := hτ.trans hρ
  rcases h.entries τ c j (hpre.trans (List.prefix_append _ _)) hc hp with ⟨hs, hsame⟩ | ⟨c', hc'⟩ | hleaf
  · -- The word was there, so the walk of the processor went on from it.
    have hstep : walk s.edge root (τ ++ [j]) = some d := by
      rw [hsame] at hp hf
      rw [walk_append, hs, Option.bind_some, walk_cons, edge_of_present hj hp, hf]
      rfl
    rw [← hclear.way _ hpre, walk_append, Option.bind_eq_some_iff] at hstep
    obtain ⟨c', hc', hstep⟩ := hstep
    obtain ⟨_, hd', -⟩ := walk_cons_eq_some.mp hstep
    obtain rfl : c = c' := Option.some.inj (hs.symm.trans (Machine.walk_through hc'))
    rw [hsame]
    exact (Machine.through_some.mp hd').2.2.1
  · rw [hc']
    exact hclear.tables c'
  · rw [hleaf]
    exact hclear.leaf f

theorem WayMapped.newPage (h : WayMapped w (F \ {f}) vpn 3 root f (leafFlags true true) t F')
    (hf : FrameTaken s F f w) (ht : RootTables s F root) (hn : NoLarge s root vpn) : NewPage s F root vpn f t F' := by
  have htw := hf.tree ht
  have hclear := (hf.noLarge ht hn).clear
  obtain ⟨last, hlast, hentry⟩ := h.page
  refine ⟨h.wf, hf.free, h.sub, ?_, hf.small, fun π hπ hw => ?_, fun v hne => ?_, ?_, h.regs.trans hf.regs⟩
  · have hp : present (t.mem last (vpnIndex vpn 0)) := by
      rw [hentry]
      exact (present_mkEntry f _).mpr (present_leafFlags true true)
    obtain ⟨above, hwords, hlen, -⟩ := Machine.words_of_walk (h.tables hclear List.prefix_rfl hlast) hp
    rw [hentry] at hwords
    exact ⟨above, hwords, hlen⟩
  · have hnew : f ∈ F \ {f} ∨ f ∉ F := by
      cases hs : walk w.tableEdge root π with
      | some g =>
        obtain rfl : g = f := Option.some.inj ((h.kept htw hπ hs).symm.trans hw)
        exact Or.inr (ht.live π g hπ ((ht.walk_congr hf.used (by omega)).symm.trans hs)).1
      | none =>
        have hpre := (h.only htw hclear hπ hw).resolve_left (by
          rw [show walk (w.through large) root π = none from hs]
          simp)
        refine Or.inl (h.fresh π f hpre ?_ (Machine.walk_through hw)).1
        rw [← hclear.way π hpre]
        exact hs
    exact hnew.elim (fun hf' => hf'.2 rfl) fun hf' => hf' hf.free
  · exact (h.others htw hclear hne).trans (ht.words_congr hf.used v)
  · obtain ⟨π, g, i, hπ, hw, -, hother⟩ := h.word
    have hlen := hπ.length_le
    rw [List.length_append, List.length_singleton, pagePath_length] at hlen
    rw [← hclear.way π (initial_table ((List.prefix_append _ _).trans hπ) (by omega)),
      ht.walk_congr hf.used (by omega)] at hw
    refine ⟨π, g, i, by omega, hw, fun m j hm hne => ?_⟩
    rw [hother m j (fun hm' => hm hm'.1) hne, hf.used m hm]

theorem FrameTaken.content (hf : FrameTaken s F f w) (ht : RootTables s F root) (hn : NoLarge s root vpn)
    (h : WayMapped w (F \ {f}) vpn 3 root f flags t F') : t.mem f = w.mem f := by
  obtain ⟨π, g, i, hπ, hw, -, hother⟩ := h.word
  have hlen := hπ.length_le
  rw [List.length_append, List.length_singleton, pagePath_length] at hlen
  funext j
  refine hother f j (fun hf' => hf'.2 rfl) ?_
  rintro ⟨rfl, -⟩
  have hpre := initial_table ((List.prefix_append _ _).trans hπ) (show π.length ≤ 3 by omega)
  have hnw := hf.noLarge ht hn
  rw [← hnw.walks hpre] at hw
  exact (ht.live π f (by omega) ((ht.walk_congr hf.used (by omega)).symm.trans hw)).1 hf.free

theorem mapPageFromVme_way (ht : RootTables s F root) (hn : NoLarge s root (pageVa / FRAME_SIZE)) (hr : OnRoot s root)
    (hva : canonical pageVa) (hnone : s.pageEntry root (pageVa / FRAME_SIZE) = none) (hread : Readable nodes vme)
    (hclean : ∀ f u w, PhysMem.alloc.run s = some (f, u) →
      (fillPage nodes vme pageVa f).run (u.marked f) = some ((), w) → mapClean (pageVa / FRAME_SIZE) 3 root w)
    (hframes : 1 + tablesMissing s (pageVa / FRAME_SIZE) 3 root ≤ F.ncard) :
    ∃ t f F', (mapPageFromVme nodes vme pageVa).run s = some (true, t) ∧
      NewPage s F root (pageVa / FRAME_SIZE) f t F' ∧ ∀ j, j < 4096 → t.frameByte f j = vmeByte nodes vme pageVa j := by
  have hroot := ht.live [] root (by simp) rfl
  have hlt := Machine.maps_lt ht.wf.hhdm hroot.2
  have hsroot := hr.root hlt
  obtain ⟨f, u, halloc⟩ := alloc_returns ht.wf (Set.nonempty_of_ncard_ne_zero (by omega))
  have ha := alloc_spec ht.wf halloc
  have hhu : HhdmOk (u.marked f) := ha.wf.hhdm.congr rfl
  have hmu : (u.marked f).maps f := (Machine.maps_congr (Machine.regs_hhdm ha.regs) f).mpr (ht.wf.maps ha.mem_free)
  obtain ⟨w, hfillrun, hfill⟩ := fillPage_run pageVa hhu hmu hread
  have hf := FrameTaken.filled ht.wf halloc hfill
  have htw := hf.tree ht
  have hnw := hf.noLarge ht hn
  have hrw : OnRoot w root := hr.congr hf.regs
  have hmissing : tablesMissing w (pageVa / FRAME_SIZE) 3 root = tablesMissing s (pageVa / FRAME_SIZE) 3 root :=
    tablesMissing_congr fun π g hπ hw => hf.used g (hn.way ht π g hπ hw).1
  have hcard := Set.ncard_sdiff_singleton_add_one hf.free ht.wf.finite
  have hwnone : w.pageEntry root (pageVa / FRAME_SIZE) = none := by
    rw [← hnw.translate_none, Machine.translate, ht.words_congr hf.used]
    exact hn.translate_none.mpr hnone
  have habsent : ∀ last, walk w.edge root (tablePath (pageVa / FRAME_SIZE) 3) = some last →
      ¬ present (w.mem last (vpnIndex (pageVa / FRAME_SIZE) 0)) := by
    intro last hw hp
    rw [Machine.pageEntry, hw, Option.bind_some, if_pos hp] at hwnone
    cases hwnone
  obtain ⟨t, F', hmap, h⟩ := mapAt_way f true true htw.wf (hnw.way htw) habsent
    (hclean f u w halloc hfillrun) (by omega)
  refine ⟨t, f, F', ?_, h.newPage hf ht hn, fun j hj => ?_⟩
  · have hs : (isMapped pageVa).run s = some (false, s) := by
      rw [isMapped_path ht.wf.hhdm hva fun π g hπ hw => (hn.way ht π g hπ (hsroot ▸ hw)).2, hsroot, hnone]
      rfl
    have hw : (isMapped pageVa).run w = some (false, w) := by
      rw [isMapped_path htw.wf.hhdm hva fun π g hπ hw => (hnw.way htw π g hπ (hrw.root hlt ▸ hw)).2,
        hrw.root hlt, hwnone]
      rfl
    have hmap' : (map (pageVa / FRAME_SIZE) f true true).run w = some ((), t) := by
      rw [map, Prog.get_bind_run, hrw.ofPA, hmap]
    unfold mapPageFromVme
    rw [Prog.bind_run hs, if_neg (by simp), Prog.bind_run halloc, markData, Prog.modify_bind_run]
    refine (Prog.bind_run hfillrun).trans ?_
    rw [Prog.bind_run hw, if_neg (by simp), VA, Prog.bind_run (Prog.assert_bind_run hva)]
    exact (Prog.bind_run hmap').trans rfl
  · unfold Machine.frameByte
    rw [hf.content ht hn h]
    exact hfill.bytes j hj

/-! ## The page of a VME -/

/-- The byte at a position of the VME's file, or 0 behind the end and without a file. -/
def VME.byteAt (nodes : Nat → BlockIO) (vme : VME) (pos : Nat) : Byte :=
  if vme.node ≠ 0 ∧ pos < (nodes vme.node).size_in_bytes then (nodes vme.node).byte pos else 0

/-- Where the page is in the file. -/
def VME.position (vme : VME) (pageVa : Nat) : Nat := vme.offset + (pageVa - vme.start)

/-- The first VME that covers the page has the bytes of `vme`, at a position cut to 32 bits. -/
def ServesPage (nodes : Nat → BlockIO) (s : Machine) (vme : VME) (pageVa : Nat) : Prop :=
  ∃ w, s.vmeFor pageVa = some w ∧
    ∀ j, j < 4096 → w.byteAt nodes (w.position pageVa % 2 ^ 32 + j) = vme.byteAt nodes (vme.position pageVa + j)

theorem vmeByte_eq (h64 : pageVa < 2 ^ 64) (h : vme.start ≤ pageVa) (j : Nat) :
    vmeByte nodes vme pageVa j = vme.byteAt nodes (vme.position pageVa % 2 ^ 32 + j) := by
  have hoff : add64 vme.offset (sub64 pageVa vme.start) % 2 ^ 32 = vme.position pageVa % 2 ^ 32 := by
    unfold add64 sub64 VME.position
    omega
  unfold vmeByte VME.byteAt
  rw [hoff]

theorem findVme_some {l : List VME} (h : findVme l pageVa = some vme) : vme ∈ l ∧ vmeSpan.Holds vme pageVa := by
  refine ⟨List.mem_of_find?_eq_some h, ?_⟩
  have := List.find?_some h
  simpa [Span.Holds] using this

theorem findVme_none {l : List VME} (h : findVme l pageVa = none) : ∀ w ∈ l, ¬ vmeSpan.Holds w pageVa := by
  intro w hw hn
  have := List.find?_eq_none.mp h w hw
  simp [Span.Holds] at this hn
  omega

theorem vmeFor_some (h : s.vmeFor pageVa = some vme) :
    vme ∈ s.privateVmes ++ s.sharedVmes ∧ vmeSpan.Holds vme pageVa := by
  rw [Machine.vmeFor, Option.or_eq_some_iff] at h
  rcases h with h | ⟨-, h⟩
  · obtain ⟨hmem, hn⟩ := findVme_some h
    exact ⟨List.mem_append_left _ hmem, hn⟩
  · obtain ⟨hmem, hn⟩ := findVme_some h
    exact ⟨List.mem_append_right _ hmem, hn⟩

theorem vmeFor_none (h : s.vmeFor pageVa = none) : ∀ w ∈ s.privateVmes ++ s.sharedVmes, ¬ vmeSpan.Holds w pageVa := by
  rw [Machine.vmeFor, Option.or_eq_none_iff] at h
  intro w hw
  rcases List.mem_append.mp hw with hw | hw
  · exact findVme_none h.1 w hw
  · exact findVme_none h.2 w hw

theorem ensureMappedPage_absent (ht : RootTables s F root) (hn : NoLarge s root (pageVa / FRAME_SIZE))
    (hr : OnRoot s root) (hva : canonical pageVa) (hnone : s.pageEntry root (pageVa / FRAME_SIZE) = none) :
    (ensureMappedPage nodes pageVa).run s =
      match s.vmeFor pageVa with
      | some vme => (mapPageFromVme nodes vme pageVa).run s
      | none => some (false, s) := by
  have hroot := ht.live [] root (by simp) rfl
  have hsroot := hr.root (Machine.maps_lt ht.wf.hhdm hroot.2)
  unfold ensureMappedPage
  rw [Prog.bind_run (isMapped_path ht.wf.hhdm hva fun π g hπ hw => (hn.way ht π g hπ (hsroot ▸ hw)).2), hsroot, hnone,
    Option.isSome_none, if_neg (by simp), Prog.get_bind_run, Machine.vmeFor]
  cases findVme s.privateVmes pageVa with
  | some vme => rfl
  | none =>
    cases findVme s.sharedVmes pageVa with
    | some vme => rfl
    | none => rfl

theorem ensureMappedPage_present {entry : Word} (ht : RootTables s F root) (hn : NoLarge s root (pageVa / FRAME_SIZE))
    (hr : OnRoot s root) (hva : canonical pageVa) (he : s.pageEntry root (pageVa / FRAME_SIZE) = some entry) :
    (ensureMappedPage nodes pageVa).run s = some (true, s) := by
  have hroot := ht.live [] root (by simp) rfl
  have hsroot := hr.root (Machine.maps_lt ht.wf.hhdm hroot.2)
  unfold ensureMappedPage
  rw [Prog.bind_run (isMapped_path ht.wf.hhdm hva fun π g hπ hw => (hn.way ht π g hπ (hsroot ▸ hw)).2), hsroot, he]
  rfl

/-- A page of a VME gets the bytes of the first VME that covers it. -/
theorem ensureMappedPage_served (ht : RootTables s F root) (hn : NoLarge s root (pageVa / FRAME_SIZE))
    (hr : OnRoot s root) (hva : canonical pageVa) (h64 : pageVa < 2 ^ 64)
    (hnone : s.pageEntry root (pageVa / FRAME_SIZE) = none)
    (hvme : s.vmeFor pageVa = some vme) (hread : Readable nodes vme) (hclean : FaultClean nodes pageVa s)
    (hframes : FramesLeft pageVa s) :
    ∃ t f F', (ensureMappedPage nodes pageVa).run s = some (true, t) ∧ NewPage s F root (pageVa / FRAME_SIZE) f t F' ∧
      ∀ j, j < 4096 → t.frameByte f j = vme.byteAt nodes (vme.position pageVa % 2 ^ 32 + j) := by
  have hroot := ht.live [] root (by simp) rfl
  have hsroot := hr.root (Machine.maps_lt ht.wf.hhdm hroot.2)
  rw [FaultClean, hsroot] at hclean
  rw [FramesLeft, hsroot] at hframes
  obtain ⟨t, f, F', hrun, hnew, hbytes⟩ := mapPageFromVme_way ht hn hr hva hnone hread (hclean hnone vme hvme)
    (hframes hnone vme hvme F ht.wf)
  refine ⟨t, f, F', ?_, hnew, fun j hj => ?_⟩
  · rw [ensureMappedPage_absent ht hn hr hva hnone, hvme]
    exact hrun
  · rw [hbytes j hj, vmeByte_eq h64 (vmeFor_some hvme).2.1]

/-- If no other VME covers the page, 32 bits are enough, or there is nothing to read, or zeros are read by luck. -/
theorem servesPage_iff (hmem : vme ∈ s.privateVmes ++ s.sharedVmes) (hn : vmeSpan.Holds vme pageVa)
    (hread : Readable nodes vme)
    (honly : ∀ w ∈ s.privateVmes ++ s.sharedVmes, vmeSpan.Holds w pageVa → w = vme) :
    ServesPage nodes s vme pageVa ↔ vme.node = 0 ∨ vme.position pageVa < 2 ^ 32 ∨
      ∀ j, j < 4096 → vme.byteAt nodes (vme.position pageVa % 2 ^ 32 + j) = 0 := by
  have hfor : s.vmeFor pageVa = some vme := by
    cases h : s.vmeFor pageVa with
    | none => exact absurd hn (vmeFor_none h vme hmem)
    | some w => rw [honly w (vmeFor_some h).1 (vmeFor_some h).2]
  constructor
  · rintro ⟨w, hw, hbytes⟩
    obtain rfl : vme = w := Option.some.inj (hfor.symm.trans hw)
    by_cases hnode : vme.node = 0
    · exact Or.inl hnode
    by_cases hpos : vme.position pageVa < 2 ^ 32
    · exact Or.inr (Or.inl hpos)
    refine Or.inr (Or.inr fun j hj => ?_)
    -- No file has a byte there.
    have hsize := (hread hnode).size_lt
    rw [hbytes j hj, VME.byteAt, if_neg (by omega)]
  · rintro h
    refine ⟨vme, hfor, fun j hj => ?_⟩
    rcases h with hnode | hpos | hzero
    · simp [VME.byteAt, hnode]
    · rw [Nat.mod_eq_of_lt hpos]
    · rw [hzero j hj]
      by_cases hnode : vme.node = 0
      · simp [VME.byteAt, hnode]
      · by_cases hpos : vme.position pageVa < 2 ^ 32
        · rw [Nat.mod_eq_of_lt hpos] at hzero
          exact (hzero j hj).symm
        · have hsize := (hread hnode).size_lt
          rw [VME.byteAt, if_neg (by omega)]

/-- The page has what its VME says, if the page is not there yet and a VME covers it. Else nothing changes. -/
structure DemandPaged (nodes : Nat → BlockIO) (s : Machine) (F : Set Nat) (root pageVa : Nat) : Prop where
  present : ∀ words, s.translate root (pageVa / FRAME_SIZE) = some words →
    (ensureMappedPage nodes pageVa).run s = some (true, s)
  uncovered : s.translate root (pageVa / FRAME_SIZE) = none →
    (∀ vme ∈ s.privateVmes ++ s.sharedVmes, ¬ vmeSpan.Holds vme pageVa) →
    (ensureMappedPage nodes pageVa).run s = some (false, s)
  covered : s.translate root (pageVa / FRAME_SIZE) = none →
    ∀ vme ∈ s.privateVmes ++ s.sharedVmes, vmeSpan.Holds vme pageVa →
      ∃ t f F', (ensureMappedPage nodes pageVa).run s = some (true, t) ∧
        NewPage s F root (pageVa / FRAME_SIZE) f t F' ∧
        ((∀ j, j < 4096 → t.frameByte f j = vme.byteAt nodes (vme.position pageVa + j)) ↔
          ServesPage nodes s vme pageVa) ∧
        ((∀ w ∈ s.privateVmes ++ s.sharedVmes, vmeSpan.Holds w pageVa → w = vme) →
          (ServesPage nodes s vme pageVa ↔ vme.node = 0 ∨ vme.position pageVa < 2 ^ 32 ∨
            ∀ j, j < 4096 → vme.byteAt nodes (vme.position pageVa % 2 ^ 32 + j) = 0))

/-- **Demand paging.** A page that is there, or that no VME covers, changes nothing. Another gets a frame of its own,
and its bytes are those of its VME exactly when cutting the position to 32 bits loses nothing. -/
theorem demand_paging_iff (ht : RootTables s F root) (hn : NoLarge s root (pageVa / FRAME_SIZE)) (hr : OnRoot s root)
    (hva : canonical pageVa) (h64 : pageVa < 2 ^ 64)
    (hread : ∀ vme ∈ s.privateVmes ++ s.sharedVmes, Readable nodes vme) (hclean : FaultClean nodes pageVa s)
    (hframes : FramesLeft pageVa s) : DemandPaged nodes s F root pageVa := by
  refine ⟨fun words hwords => ?_, fun hnone hout => ?_, fun hnone vme hmem hholds => ?_⟩
  · cases he : s.pageEntry root (pageVa / FRAME_SIZE) with
    | none =>
      rw [hn.translate_none.mpr he] at hwords
      cases hwords
    | some entry => exact ensureMappedPage_present ht hn hr hva he
  · rw [hn.translate_none] at hnone
    rw [ensureMappedPage_absent ht hn hr hva hnone]
    cases h : s.vmeFor pageVa with
    | none => rfl
    | some w => exact absurd (vmeFor_some h).2 (hout w (vmeFor_some h).1)
  · rw [hn.translate_none] at hnone
    cases h : s.vmeFor pageVa with
    | none => exact absurd hholds (vmeFor_none h vme hmem)
    | some w =>
      obtain ⟨t, f, F', hrun, hnew, hbytes⟩ := ensureMappedPage_served ht hn hr hva h64 hnone h
        (hread w (vmeFor_some h).1) hclean hframes
      refine ⟨t, f, F', hrun, hnew, ⟨fun hright => ⟨w, h, fun j hj => ?_⟩, ?_⟩,
        servesPage_iff hmem hholds (hread vme hmem)⟩
      · rw [← hbytes j hj, hright j hj]
      · rintro ⟨w', h', hsame⟩ j hj
        obtain rfl : w = w' := Option.some.inj (h.symm.trans h')
        rw [hbytes j hj, hsame j hj]

end

/-! ## An offset of `2 ^ 32` -/

/-- A file of one byte, which is 7. -/
def seven : BlockIO := ⟨1, 1, fun i => if i = 0 then some [7] else none⟩

theorem seven_delivers : seven.Delivers :=
  ⟨by decide, by decide, by decide, fun i hi => ⟨[7], if_pos (by simpa [seven] using hi), rfl⟩⟩

/-- The first page behind a direct map of 128 MiB. -/
def sharedPage : Nat := 0xFFFF800008000000

/--
The direct map is 64 pages of 2 MiB, below tables 105 and 106. There is a private mapping of the start of the
file, and a shared one of what would be `2 ^ 32` bytes behind.
-/
def twoMaps : Machine :=
  { onePage with
    mem := fun f i =>
      if f = 100 ∧ i = 256 then mkEntry 105 tableFlags
      else if f = 105 ∧ i = 0 then mkEntry 106 tableFlags
      else if f = 106 ∧ i < 64 then mkEntry (512 * i) (leafFlags false true ||| largeBit)
      else onePage.mem f i
    privateVmes := [⟨0x8000, 0x8000000000, 0x8000002000, false, 1, 0⟩]
    sharedVmes := [⟨0x8800, sharedPage, sharedPage + 0x2000, true, 1, 2 ^ 32⟩] }

theorem twoMaps_edge {f i c : Nat} (h : twoMaps.tableEdge f i = some c) :
    f = 100 ∧ i = 256 ∧ c = 105 ∨ f = 105 ∧ i = 0 ∧ c = 106 ∨ i = 0 ∧ 100 ≤ f ∧ f < 104 ∧ c = f + 1 := by
  obtain ⟨hi, hp, hl, rfl⟩ := Machine.through_some.mp h
  simp only [twoMaps] at hp hl ⊢
  split_ifs at hp hl ⊢ with hroot htable hlarge
  · exact Or.inl ⟨hroot.1, hroot.2, entryPpn_mkEntry (by omega) tableFlags_masked⟩
  · exact Or.inr (Or.inl ⟨htable.1, htable.2, entryPpn_mkEntry (by omega) tableFlags_masked⟩)
  · refine absurd ?_ hl
    unfold large
    rw [mkEntry_and (by decide)]
    decide
  · have hedge := edge_of_present hi hp
    rw [onePage_edge] at hedge
    split_ifs at hedge with hone
    exact Or.inr (Or.inr ⟨hone.1, hone.2.1, hone.2.2, (Option.some.inj hedge).symm⟩)

/-- The tables are 105 and 106 for the direct map, and below label 0 those of `onePage`. -/
theorem twoMaps_walk {f g : Nat} {π : List Nat} (h : walk twoMaps.tableEdge f π = some g) (hf : 100 ≤ f ∧ f ≤ 106) :
    π = [] ∧ g = f ∨ π = List.replicate π.length 0 ∧ f < g ∧ g = f + π.length ∧ (g ≤ 104 ∨ f = 105 ∧ g = 106) ∨
      f = 100 ∧ (π = [256] ∧ g = 105 ∨ π = [256, 0] ∧ g = 106) := by
  induction π generalizing f with
  | nil => exact Or.inl ⟨rfl, (Option.some.inj h).symm⟩
  | cons i π ih =>
    obtain ⟨c, hc, h⟩ := walk_cons_eq_some.mp h
    rcases twoMaps_edge hc with ⟨rfl, rfl, rfl⟩ | ⟨rfl, rfl, rfl⟩ | ⟨rfl, hlo, hhi, rfl⟩
    · rcases ih h (by omega) with ⟨rfl, rfl⟩ | ⟨hπ, hlt, hg, hend⟩ | ⟨hne, -⟩
      · exact Or.inr (Or.inr ⟨rfl, Or.inl ⟨rfl, rfl⟩⟩)
      · have hlen : π.length = 1 := by omega
        rw [hlen] at hπ
        exact Or.inr (Or.inr ⟨rfl, Or.inr ⟨by rw [hπ]; rfl, by omega⟩⟩)
      · omega
    · rcases ih h (by omega) with ⟨rfl, rfl⟩ | ⟨-, hlt, -, hend⟩ | ⟨hne, -⟩
      · exact Or.inr (Or.inl ⟨rfl, by simp⟩)
      · omega
      · omega
    · rcases ih h (by omega) with ⟨rfl, rfl⟩ | ⟨hπ, hlt, hg, hend⟩ | ⟨hne, -⟩
      · exact Or.inr (Or.inl ⟨rfl, by simp; omega⟩)
      · refine Or.inr (Or.inl ⟨?_, by omega, by rw [List.length_cons]; omega, by omega⟩)
        rw [List.length_cons, List.replicate_succ, ← hπ]
      · omega

theorem twoMaps_wf : PhysWf twoMaps onePageFree := by
  refine onePage_wf.congr rfl rfl rfl fun g hg => ?_
  have hlow : 512 ≤ g := (Set.mem_Ico.mp hg).1
  funext i
  simp only [twoMaps]
  rw [if_neg (by omega), if_neg (by omega), if_neg (by omega)]

theorem twoMaps_tables : RootTables twoMaps onePageFree 100 := by
  refine ⟨twoMaps_wf, fun π g hπ hw => ?_, fun π ρ g _ _ hw hw' => ?_⟩
  · have hg : 100 ≤ g ∧ g ≤ 106 := by
      rcases twoMaps_walk hw (by omega) with h | h | h <;> omega
    simp only [onePageFree, Set.mem_Ico, Machine.maps, twoMaps, onePage, FRAME_SIZE]
    omega
  · rcases twoMaps_walk hw (by omega) with ⟨rfl, hg⟩ | ⟨hπ, hlt, hg, hend⟩ | ⟨-, ⟨rfl, hg⟩ | ⟨rfl, hg⟩⟩ <;>
      rcases twoMaps_walk hw' (by omega) with ⟨rfl, hg'⟩ | ⟨hρ, hlt', hg', hend'⟩ | ⟨-, ⟨rfl, hg'⟩ | ⟨rfl, hg'⟩⟩ <;>
      first | rfl | omega | rw [hπ, hρ, show π.length = ρ.length by omega]

/-! ### The shared page -/

theorem sharedPage_index : vpnIndex (sharedPage / FRAME_SIZE) 3 = 256 ∧ vpnIndex (sharedPage / FRAME_SIZE) 2 = 0 ∧
    vpnIndex (sharedPage / FRAME_SIZE) 1 = 64 := by
  simp only [sharedPage, vpnIndex, FRAME_SIZE]
  omega

theorem twoMaps_words : twoMaps.mem 100 (vpnIndex (sharedPage / FRAME_SIZE) 3) = mkEntry 105 tableFlags ∧
    twoMaps.mem 105 (vpnIndex (sharedPage / FRAME_SIZE) 2) = mkEntry 106 tableFlags ∧
    twoMaps.mem 106 (vpnIndex (sharedPage / FRAME_SIZE) 1) = 0 := by
  obtain ⟨h3, h2, h1⟩ := sharedPage_index
  rw [h3, h2, h1]
  exact ⟨rfl, rfl, rfl⟩

theorem twoMaps_absent : twoMaps.translate 100 (sharedPage / FRAME_SIZE) = none := by
  obtain ⟨h3, h2, h1⟩ := twoMaps_words
  have hstep : ∀ c, c < 2 ^ 40 → present (mkEntry c tableFlags) ∧ ¬ large (mkEntry c tableFlags) ∧
      entryPpn (mkEntry c tableFlags) = c := fun c hc =>
    ⟨(present_mkEntry c _).mpr present_tableFlags, not_large_mkEntry (by decide) c,
      entryPpn_mkEntry hc tableFlags_masked⟩
  obtain ⟨hp, hl, hc⟩ := hstep 105 (by omega)
  obtain ⟨hp', hl', hc'⟩ := hstep 106 (by omega)
  rw [Machine.translate, Machine.words_below (by rwa [h3]) (by rwa [h3]), h3, hc,
    Machine.words_below (by rwa [h2]) (by rwa [h2]), h2, hc', Machine.words_absent (by rw [h1]; exact not_present_zero)]
  rfl

theorem twoMaps_noLarge : NoLarge twoMaps 100 (sharedPage / FRAME_SIZE) := by
  intro words hwords
  rw [twoMaps_absent] at hwords
  cases hwords

theorem twoMaps_readable (vme : VME) : Readable (fun _ => seven) vme := fun _ => seven_delivers

theorem twoMaps_clean : FaultClean (fun _ => seven) sharedPage twoMaps := by
  intro _ vme _ f u w halloc hfillrun
  have ha := alloc_spec twoMaps_wf halloc
  have hhu : HhdmOk (u.marked f) := ha.wf.hhdm.congr rfl
  have hmu : (u.marked f).maps f := (Machine.maps_congr (Machine.regs_hhdm ha.regs) f).mpr (twoMaps_wf.maps ha.mem_free)
  obtain ⟨w', hrun, hfill⟩ := fillPage_run sharedPage hhu hmu (twoMaps_readable vme)
  rw [hrun, Option.some.injEq, Prod.mk.injEq] at hfillrun
  obtain ⟨-, rfl⟩ := hfillrun
  have hf := FrameTaken.filled twoMaps_wf halloc hfill
  have havail : w'.avail = 0 := by
    rw [hfill.state]
    exact (alloc_cleared twoMaps_wf rfl halloc).1
  have hroot : twoMaps.root = 100 := onePage_root
  have hout : ∀ g, g < 512 → g ∉ onePageFree := fun g hg hin => absurd (Set.mem_Ico.mp hin).1 (by omega)
  obtain ⟨h3, h2, h1⟩ := twoMaps_words
  have hp : ∀ c, present (mkEntry c tableFlags) := fun c => (present_mkEntry c _).mpr present_tableFlags
  have hppn : ∀ c, c < 2 ^ 40 → entryPpn (mkEntry c tableFlags) = c := fun c hc => entryPpn_mkEntry hc tableFlags_masked
  rw [hroot, mapClean, hf.used 100 (hout 100 (by omega)), h3, if_pos (hp 105), hppn 105 (by omega), mapClean,
    hf.used 105 (hout 105 (by omega)), h2, if_pos (hp 106), hppn 106 (by omega)]
  refine mapClean_blank hf.wf havail (fun h => hout 106 (by omega) h.1) ?_
  rw [hf.used 106 (hout 106 (by omega)), h1]
  exact not_present_zero

theorem twoMaps_frames (pageVa : Nat) : FramesLeft pageVa twoMaps := by
  intro _ vme _ F hF
  rw [hF.unique twoMaps_wf, onePageFree_ncard]
  have := tablesMissing_le twoMaps (pageVa / FRAME_SIZE) 3 twoMaps.root
  omega

theorem twoMaps_onRoot : OnRoot twoMaps 100 := onePage_onRoot

theorem twoMaps_paged : DemandPaged (fun _ => seven) twoMaps onePageFree 100 sharedPage :=
  demand_paging_iff twoMaps_tables twoMaps_noLarge twoMaps_onRoot (by decide) (by decide)
    (fun vme _ => twoMaps_readable vme) twoMaps_clean (twoMaps_frames _)

/-- The first byte of the shared mapping is read from the start of the file, far before its offset. -/
theorem twoMaps_wrong : ∃ vme ∈ twoMaps.sharedVmes, vmeSpan.Holds vme sharedPage ∧ vme.position sharedPage = 2 ^ 32 ∧
    ∃ t f F', (ensureMappedPage (fun _ => seven) sharedPage).run twoMaps = some (true, t) ∧
      NewPage twoMaps onePageFree 100 (sharedPage / FRAME_SIZE) f t F' ∧
      t.frameByte f 0 ≠ vme.byteAt (fun _ => seven) (vme.position sharedPage + 0) := by
  have hvme : twoMaps.vmeFor sharedPage = some ⟨0x8800, sharedPage, sharedPage + 0x2000, true, 1, 2 ^ 32⟩ := rfl
  have hnone : twoMaps.pageEntry 100 (sharedPage / FRAME_SIZE) = none :=
    twoMaps_noLarge.translate_none.mp twoMaps_absent
  obtain ⟨t, f, F', hrun, hnew, hbytes⟩ := ensureMappedPage_served twoMaps_tables twoMaps_noLarge twoMaps_onRoot
    (by decide) (by decide) hnone hvme (twoMaps_readable _) twoMaps_clean (twoMaps_frames _)
  refine ⟨_, List.mem_singleton_self _, ⟨le_rfl, by decide⟩, rfl, t, f, F', hrun, hnew, ?_⟩
  rw [hbytes 0 (by omega)]
  decide

end Kernel
