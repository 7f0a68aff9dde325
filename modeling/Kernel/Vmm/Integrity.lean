import Kernel.Vmm.Follows
import Kernel.Vmm.Paging

/-!
# A process keeps its memory

Faults, stores, forks and exits are calls on the memories too. So a run of the kernel
is a run of processes that have memories of their own.
-/

namespace Kernel

open Lib

/-! ## Faults -/

section

variable {s t : Machine} {nodes : Nat → BlockIO} {vme : VME} {F D : Set Nat} {root pageVa : Nat} {b : Bool}

theorem mapPageFromVme_fills (h : Space s F D s.acting root) (hr : OnRoot s root) (hva : pageVa < 2 ^ 47)
    (hnone : s.pageEntry root (pageVa / FRAME_SIZE) = none) (hread : Readable nodes vme)
    (hclean : ∀ f u w, PhysMem.alloc.run s = some (f, u) →
      (fillPage nodes vme pageVa f).run (u.marked f) = some ((), w) → mapClean (pageVa / FRAME_SIZE) 3 root w)
    (hrun : (mapPageFromVme nodes vme pageVa).run s = some (b, t)) :
    Keeps s F D root t ∧ t.image root = (s.image root).fill pageVa (vmeByte nodes vme pageVa) := by
  have hrun' := hrun
  unfold mapPageFromVme at hrun'
  rw [Prog.bind_run (h.isMapped_run hr hva), hnone, Option.isSome_none, if_neg (by simp), Prog.run_bind] at hrun'
  obtain ⟨f, u, halloc, -⟩ := hrun'
  have hf := h.pageFrame halloc
  obtain ⟨w, hfillrun, hfill⟩ := fillPage_run pageVa hf.space.wf.hhdm hf.maps hread
  have hw := hf.fill hfill
  rw [mapPageFromVme_map h hr hva hnone halloc hfillrun hw, Option.map_eq_some_iff] at hrun
  obtain ⟨⟨x, v⟩, hmap, hv⟩ := hrun
  obtain ⟨-, rfl⟩ := Prod.mk.inj hv
  obtain ⟨F', hadded⟩ := hw.adds h hva hnone (hclean f u w halloc hfillrun) hmap
  refine ⟨Keeps.of_evolves hadded.space hadded.evolves, ?_⟩
  rw [hadded.image (leafFlags_masked true true) hva]
  funext a
  have hoff : a % FRAME_SIZE < 4096 := by
    simp only [FRAME_SIZE]
    omega
  simp only [Image.fill, hfill.bytes _ hoff]

theorem image_page (hva : pageVa < 2 ^ 47) :
    (s.image root pageVa).isSome ↔ (s.pageEntry root (pageVa / FRAME_SIZE)).isSome := by
  rw [image_low hva, Machine.userByte, Option.isSome_map]

theorem ensureMappedPage_fills (h : Space s F D s.acting root) (hr : OnRoot s root) (hva : pageVa < 2 ^ 47)
    (hread : ∀ vme, s.vmeFor pageVa = some vme → Readable nodes vme) (hclean : FaultClean nodes pageVa s)
    (hrun : (ensureMappedPage nodes pageVa).run s = some (true, t)) :
    ((s.image root pageVa).isSome ∧ t = s) ∨
      (s.image root pageVa = none ∧ ∃ vme, s.vmeFor pageVa = some vme ∧ Keeps s F D root t ∧
        t.image root = (s.image root).fill pageVa (vmeByte nodes vme pageVa)) := by
  rw [FaultClean, hr.root h.root_lt] at hclean
  unfold ensureMappedPage at hrun
  rw [Prog.bind_run (h.isMapped_run hr hva)] at hrun
  cases he : s.pageEntry root (pageVa / FRAME_SIZE) with
  | some entry =>
    rw [he, Option.isSome_some, if_pos rfl, Prog.run_pure] at hrun
    refine Or.inl ⟨(image_page hva).mpr ?_, hrun.2⟩
    rw [he]
    rfl
  | none =>
    have himage : s.image root pageVa = none := by
      rw [← Option.not_isSome_iff_eq_none, image_page hva, he]
      simp
    refine Or.inr ⟨himage, ?_⟩
    rw [he, Option.isSome_none, if_neg (by simp), Prog.get_bind_run] at hrun
    have hvme : s.vmeFor pageVa = (findVme s.privateVmes pageVa).or (findVme s.sharedVmes pageVa) := rfl
    cases hpriv : findVme s.privateVmes pageVa with
    | some vme =>
      rw [hpriv, Option.some_or] at hvme
      rw [hpriv] at hrun
      exact ⟨vme, hvme, mapPageFromVme_fills h hr hva he (hread vme hvme) (hclean he vme hvme) hrun⟩
    | none =>
      rw [hpriv, Option.none_or] at hvme
      rw [hpriv] at hrun
      cases hshared : findVme s.sharedVmes pageVa with
      | some vme =>
        rw [hshared] at hvme hrun
        exact ⟨vme, hvme, mapPageFromVme_fills h hr hva he (hread vme hvme) (hclean he vme hvme) hrun⟩
      | none =>
        rw [hshared, Prog.run_pure] at hrun
        exact absurd hrun.1 (by simp)

end

section

variable {entries : List MemmapEntry} {nodes : Nat → BlockIO} {w w' : World} {F : Set Nat} {D : Nat → Set Nat}
  {p q : Nat} {P Q : Process} {t u : Machine}

theorem fill_page (M : Image) (va : Nat) (page : Nat → Byte) :
    M.fill (va / FRAME_SIZE * FRAME_SIZE) page = M.fill va page := by
  have hpage : va / FRAME_SIZE * FRAME_SIZE / FRAME_SIZE = va / FRAME_SIZE := by
    simp only [FRAME_SIZE]
    omega
  funext a
  unfold Image.fill
  rw [hpage]

theorem CallsInv.fault (h : CallsInv entries w F D) {cr2 : Nat} (hp : w.procs p = some P) (hcr2 : cr2 < 2 ^ 47)
    (hclean : CleanCall nodes w (.fault p cr2))
    (hrun : (pageFaultHandler nodes cr2).run (w.m.enter p P) = some ((), t)) :
    Follows entries nodes w (.fault p cr2) (w.leave p t) := by
  obtain ⟨hspace, hr, -⟩ := (h.world.procs p P hp).enter
  obtain ⟨hfault, hread⟩ := hclean P hp
  have hva : cr2 / FRAME_SIZE * FRAME_SIZE < 2 ^ 47 := Nat.lt_of_le_of_lt (Nat.div_mul_le_self _ _) hcr2
  obtain ⟨mapped, v, hensure, hrun⟩ := Prog.run_bind.mp hrun
  rcases Prog.run_ite.mp hrun with ⟨hmapped, hend⟩ | ⟨-, hend⟩
  · rw [Prog.run_pure] at hend
    obtain ⟨-, rfl⟩ := hend
    rw [hmapped] at hensure
    rcases ensureMappedPage_fills hspace hr hva hread hfault hensure with ⟨hthere, rfl⟩ |
      ⟨hnone, vme, hvme, hkeeps, himage⟩
    · exact h.unchanged hp (.fault_again (memories_procs hp) hthere)
    · obtain ⟨hinv, hmem⟩ := h.pages hp hkeeps
      have hsrc : ((w.m.own P).backing (cr2 / FRAME_SIZE * FRAME_SIZE)).or
          (w.memories.shared (cr2 / FRAME_SIZE * FRAME_SIZE)) =
          some (vme.node, vme.fileAt (cr2 / FRAME_SIZE * FRAME_SIZE)) := by
        have hmap := congrArg (Option.map fun vme : VME => (vme.node, vme.fileAt (cr2 / FRAME_SIZE * FRAME_SIZE))) hvme
        rw [Machine.vmeFor, Option.map_or] at hmap
        exact hmap
      refine ⟨hinv, ?_⟩
      rw [hmem, himage, fill_page]
      exact .fault (memories_procs hp) hnone hsrc
  · exact absurd hend (by simp)

/-! ## Stores -/

theorem userStore_regs {s : Machine} (root vpn j : Nat) (v : Word) :
    ∃ mem, s.userStore root vpn j v = { s with mem := mem } := by
  unfold Machine.userStore
  split
  · exact ⟨_, rfl⟩
  · exact ⟨s.mem, rfl⟩

theorem CallsInv.store (h : CallsInv entries w F D) {vpn j : Nat} {v : Word} (hp : w.procs p = some P)
    (hv : vpn < 2 ^ 35) :
    Follows entries nodes w (.store p vpn j v) { w with m := w.m.userStore (w.m.enter p P).root vpn j v } := by
  have hP := h.world.procs p P hp
  have hworld := h.world.store (j := j) (v := v) hp hv
  have hroot : (w.m.enter p P).root = P.root := rfl
  rw [hroot] at hworld ⊢
  obtain ⟨mem, hregs⟩ := userStore_regs (s := w.m) P.root vpn j v
  have hown := userStore_image hP.space hv j v
  have hother : ∀ g, g ∉ F ∪ D p → (w.m.userStore P.root vpn j v).mem g = w.m.mem g := fun g hg =>
    userStore_other hv fun hpage => hg (Or.inr (hP.space.pages hpage))
  have himage : ∀ q Q, w.procs q = some Q → q ≠ p →
      (w.m.userStore P.root vpn j v).image Q.root = w.m.image Q.root := fun q Q hq hne => h.image_other hp hq hne hother
  rw [hregs] at hworld hown himage ⊢
  refine ⟨⟨F, D, hworld, h.mappings, ⟨h.range.aligned, h.range.le⟩, h.shared⟩, ?_⟩
  have hmem : World.memories { w with m := { w.m with mem := mem } } =
      w.memories.put p { w.m.own P with image := (w.m.own P).image.write vpn j v } := by
    refine memories_ext (fun q => ?_) rfl rfl rfl
    show (w.procs q).map (Machine.own { w.m with mem := mem }) = Function.update w.memories.procs p (some _) q
    by_cases hq : q = p
    · rw [hq, hp, Function.update_self, Option.map_some, Machine.own, hown]
      rfl
    · rw [Function.update_of_ne hq]
      exact Option.map_congr fun Q hQ => by rw [Machine.own, Machine.own, himage q Q hQ hq]
  rw [hmem]
  exact .store (memories_procs hp)

/-! ## Forks -/

/-- No frame in use changes, and the copy has the bytes and the places of the parent. -/
structure Snapshot (w : World) (F : Set Nat) (P : Process) (st : ForkState) (t : Machine) : Prop where
  other : ∀ g, g ∉ F → t.mem g = w.m.mem g
  hhdm : t.hhdm_offset = w.m.hhdm_offset
  shared : t.sharedVmes = w.m.sharedVmes
  image : t.image (PPN (st.cr3 / FRAME_SIZE)) = w.m.image P.root
  areas : st.private_vmes.map VME.area = P.privateVmes.map VME.area
  heap : st.heap_start = P.heapStart ∧ st.heap_break = P.heapBreak

theorem CallsInv.snapshot (h : CallsInv entries w F D) {st : ForkState} (hp : w.procs p = some P)
    (hrun : snapshot_for_fork.run { w.m.enter p P with acting := w.born } = some (st, t)) : Snapshot w F P st t := by
  have hwf : PhysWf { w.m.enter p P with acting := w.born } F := h.world.wf.congr rfl rfl rfl fun _ _ => rfl
  obtain ⟨child, G, v, l, hroot, hregs, hvmes, -, rfl⟩ :=
    snapshot_parts hwf (h.world.lowerSource hp) h.world.newVme hrun
  have hlt := Machine.maps_lt hwf.hhdm (hwf.maps hroot.child_free)
  have hcr3 : PPN (PA.ofPPN child / FRAME_SIZE) = child := by
    simp only [PPN, PA.ofPPN, FRAME_SIZE]
    omega
  have hhdm := congrArg Machine.hhdm_offset hregs
  have hshared := congrArg Machine.sharedVmes hregs
  refine ⟨fun g hg => hroot.other g fun hg' => hg hg'.1, ?_, ?_, ?_, hvmes.areas, rfl, rfl⟩
  · rw [hvmes.state]
    exact hhdm
  · rw [hvmes.state]
    exact hshared
  · have himage := hroot.image
    dsimp only
    rw [hcr3]
    exact himage

theorem CallsInv.image_kept (h : CallsInv entries w F D) (hq : w.procs q = some Q)
    (hother : ∀ g, g ∉ F → t.mem g = w.m.mem g) : t.image Q.root = w.m.image Q.root := by
  have hQ := (h.world.procs q Q hq).space
  exact hQ.image_congr fun g hg => hother g (hQ.owned g hg).1

theorem Snapshot.own {st : ForkState} (h : Snapshot w F P st t) (hinv : CallsInv entries w F D)
    (hq : w.procs q = some Q) : t.own Q = w.m.own Q := by
  rw [Machine.own, Machine.own, hinv.image_kept hq h.other]

theorem Snapshot.start {st : ForkState} (h : Snapshot w F P st t) : t.sharedStart = w.m.sharedStart := by
  rw [Machine.sharedStart, Machine.sharedStart, h.hhdm]

theorem CallsInv.fork (h : CallsInv entries w F D) {st : ForkState} (hp : w.procs p = some P)
    (hrun : snapshot_for_fork.run { w.m.enter p P with acting := w.born } = some (st, t))
    (hinstall : (install_fork_state st).run { t with cr3 := st.cr3 } = some ((), u)) :
    Follows entries nodes w (.fork p w.born)
      ⟨t, fun q => if q = w.born then some u.process else w.procs q, w.born + 1⟩ := by
  obtain ⟨F', D', hworld⟩ := h.world.fork hp hrun hinstall
  have hsnap := h.snapshot hp hrun
  rw [install_fork_state, Prog.run_modify] at hinstall
  have hchild : u.process = ⟨st.cr3, st.private_vmes, st.heap_start, st.heap_break⟩ := by
    rw [hinstall]
    rfl
  rw [hchild] at hworld ⊢
  refine ⟨⟨F', D', hworld, fun q Q hQ => ?_, ⟨?_, ?_⟩, ?_⟩, ?_⟩
  · dsimp only at hQ
    split_ifs at hQ with hq
    · rw [← Option.some.inj hQ]
      exact (h.mappings p P hp).of_areas hsnap.areas
    · exact h.mappings q Q hQ
  · rw [hsnap.hhdm]
    exact h.range.aligned
  · rw [hsnap.hhdm]
    exact h.range.le
  · rw [hsnap.start, hsnap.shared]
    exact h.shared
  · have hown : t.own ⟨st.cr3, st.private_vmes, st.heap_start, st.heap_break⟩ = w.m.own P := by
      unfold Machine.own Process.root
      rw [hsnap.image, backing_areas hsnap.areas, hsnap.heap.1, hsnap.heap.2]
      rfl
    have hmem : World.memories ⟨t, fun q => if q = w.born then
        some (Process.mk st.cr3 st.private_vmes st.heap_start st.heap_break) else w.procs q, w.born + 1⟩ =
        { w.memories.put w.born (w.m.own P) with born := w.born + 1 } := by
      refine memories_ext (fun q => ?_) (by rw [hsnap.shared]; rfl) hsnap.start rfl
      show (if q = w.born then some _ else w.procs q).map t.own = Function.update w.memories.procs w.born (some _) q
      by_cases hq : q = w.born
      · rw [hq, if_pos rfl, Function.update_self, Option.map_some, hown]
      · rw [if_neg hq, Function.update_of_ne hq]
        exact Option.map_congr fun Q hQ => hsnap.own h hQ
    rw [hmem]
    exact .fork (M := w.memories) (memories_procs hp)

theorem CallsInv.fork_fails (h : CallsInv entries w F D) {st : ForkState} (hp : w.procs p = some P)
    (hrun : snapshot_for_fork.run { w.m.enter p P with acting := w.born } = some (st, t)) :
    Follows entries nodes w (.fork_fails p) ⟨t, w.procs, w.born + 1⟩ := by
  obtain ⟨F', D', hworld⟩ := h.world.fork_fails hp hrun
  have hsnap := h.snapshot hp hrun
  refine ⟨⟨F', D', hworld, h.mappings, ⟨?_, ?_⟩, ?_⟩, ?_⟩
  · rw [hsnap.hhdm]
    exact h.range.aligned
  · rw [hsnap.hhdm]
    exact h.range.le
  · rw [hsnap.start, hsnap.shared]
    exact h.shared
  · have hmem : World.memories ⟨t, w.procs, w.born + 1⟩ = { w.memories with born := w.born + 1 } :=
      memories_ext (fun q => Option.map_congr fun Q hQ => hsnap.own h hQ) (by rw [hsnap.shared]; rfl) hsnap.start rfl
    rw [hmem]
    exact .fork_fails (M := w.memories) (memories_procs hp)

/-! ## Exits -/

theorem freePrivateVmes_shared {s t : Machine} {F D : Set Nat} {root : Nat} {l : List VME}
    (h : Space s F D s.acting root)
    (hr : OnRoot s root) (hl : VmesOk l) (hrun : (freePrivateVmes l).run s = some ((), t)) :
    t.sharedVmes = s.sharedVmes := by
  induction l generalizing s F D with
  | nil =>
    rw [freePrivateVmes, Prog.run_pure] at hrun
    rw [hrun.2]
  | cons v l ih =>
    rw [freePrivateVmes, Prog.run_bind] at hrun
    obtain ⟨_, u, hunmap, hrun⟩ := hrun
    obtain ⟨F₁, D₁, hu, he⟩ := unmapRange_spec h hr (hl v List.mem_cons_self) hunmap
    rw [deleteVME, Prog.modify_bind_run] at hrun
    have hact := Machine.regs_acting he.regs
    rw [← hact] at hu
    have hspace : Space { u with vmeLive := u.vmeLive.erase v.addr } F₁ D₁ u.acting root := hu.congr rfl rfl rfl rfl rfl
    have hur : OnRoot { u with vmeLive := u.vmeLive.erase v.addr } root := (Machine.regs_cr3 he.regs).trans hr
    have hshared := congrArg Machine.sharedVmes he.regs
    exact (ih hspace hur (fun w hw => hl w (List.mem_cons_of_mem _ hw)) hrun).trans hshared

/-- The last thread takes the shared mappings with it. -/
theorem fini_thread_shared {s t : Machine} {F D : Set Nat} {root : Nat} (h : Space s F D s.acting root)
    (hr : OnRoot s root) (hvmes : VmesOk s.privateVmes) (hroot : root ≠ s.common_cr3 / FRAME_SIZE)
    (hrun : fini_thread.run s = some ((), t)) : t.sharedVmes = if s.n_active = 1 then [] else s.sharedVmes := by
  rw [fini_thread_eq, hr.root h.root_lt, Prog.run_bind] at hrun
  obtain ⟨_, u, hfree, hrun⟩ := hrun
  have hs : Space { s with privateVmes := [] } F D s.acting root := h.congr rfl rfl rfl rfl rfl
  obtain ⟨F₁, D₁, hu⟩ := freePrivateVmes_spec hs hr hvmes hfree
  have hshared := freePrivateVmes_shared hs hr hvmes hfree
  have htail : ∀ {w : Machine}, (finiTail root s.common_cr3).run w = some ((), t) → Space w F₁ D₁ s.acting root →
      t.sharedVmes = w.sharedVmes := by
    intro w htail hw
    obtain ⟨v, hv, hloop, -⟩ := freeRoot_run hw
    rw [finiTail, if_neg hroot, hv, Option.some.injEq, Prod.mk.injEq] at htail
    have hregs := congrArg Machine.sharedVmes hloop.regs
    rw [← htail.2]
    exact hregs
  rcases Prog.run_ite.mp hrun with ⟨hlast, hrun⟩ | ⟨hlast, hrun⟩
  · rw [Prog.modify_bind_run] at hrun
    rw [if_pos hlast]
    exact htail hrun (hu.space.congr rfl rfl rfl rfl rfl)
  · rw [if_neg hlast, htail hrun hu.space]
    exact hshared

theorem CallsInv.exit (h : CallsInv entries w F D) {n_active : Nat} (hp : w.procs p = some P)
    (hrun : fini_thread.run { w.m.enter p P with n_active := n_active } = some ((), t)) :
    Follows entries nodes w (.exit p n_active)
      { w with m := t, procs := fun q => if q = p then none else w.procs q } := by
  obtain ⟨F', D', hworld⟩ := h.world.exit hp hrun
  have hP := h.world.procs p P hp
  have hspace : Space { w.m.enter p P with n_active := n_active } F (D p) p P.root := hP.space.congr rfl rfl rfl rfl rfl
  have hroot := h.world.root_ne hp
  obtain ⟨_, hc⟩ := fini_thread_spec hspace hP.cr3 hP.vmes hroot hrun
  have hshared : t.sharedVmes = if n_active = 1 then [] else w.m.sharedVmes :=
    fini_thread_shared hspace hP.cr3 hP.vmes hroot hrun
  have hhdm : t.hhdm_offset = w.m.hhdm_offset := Machine.fixed_hhdm hc.fixed
  have hstart : t.sharedStart = w.m.sharedStart := by
    rw [Machine.sharedStart, Machine.sharedStart, hhdm]
  refine ⟨⟨F', D', hworld, fun q Q hQ => ?_, ⟨?_, ?_⟩, ?_⟩, ?_⟩
  · dsimp only at hQ
    split_ifs at hQ
    exact h.mappings q Q hQ
  · rw [hhdm]
    exact h.range.aligned
  · rw [hhdm]
    exact h.range.le
  · rw [hstart, hshared]
    split_ifs
    · exact SharedMappings.nil _
    · exact h.shared
  · have hmem : World.memories { w with m := t, procs := fun q => if q = p then none else w.procs q } =
        { w.memories with
          procs := Function.update w.memories.procs p none
          shared := if n_active = 1 then fun _ => none else w.memories.shared } := by
      refine memories_ext (fun q => ?_) ?_ hstart rfl
      · show (if q = p then none else w.procs q).map t.own = Function.update w.memories.procs p none q
        by_cases hq : q = p
        · rw [hq, if_pos rfl, Function.update_self]
          rfl
        · rw [if_neg hq, Function.update_of_ne hq]
          exact Option.map_congr fun Q hQ => by
            rw [Machine.own, Machine.own, h.image_other hp hQ hq fun g hg => (hc.other g hg).1]
      · rw [hshared]
        split_ifs
        · rfl
        · rfl
    rw [hmem]
    exact .exit (memories_procs hp)

/-! ## Runs -/

theorem CallsInv.step {c : UserCall} (h : CallsInv entries w F D) (hclean : CleanCall nodes w c)
    (hstep : CallStep nodes w c w') : Follows entries nodes w c w' := by
  cases hstep with
  | load hp hend hrun => exact h.load hp hend (hclean _ hp) hrun
  | init_heap hp hrun => exact h.init_heap hp hrun
  | brk hp hrun => exact h.brk hp (hclean _ hp) hrun
  | mmap hp hrun => exact h.mmap hp hclean hrun
  | munmap hp hstart hlength hrun => exact h.munmap hp hstart hlength hrun
  | fault hp hcr2 hrun => exact h.fault hp hcr2 hclean hrun
  | @read p a P hp ha =>
    refine ⟨⟨F, D, h⟩, ?_⟩
    have hread : MemoriesStep nodes w.memories _ _ := .read (a := a) (memories_procs hp)
    have himage : (w.m.own P).image a = w.m.userByte P.root a := image_low ha
    rw [himage] at hread
    exact hread
  | store hp hv _ => exact h.store hp hv
  | fork hp hrun hinstall => exact h.fork hp hrun hinstall
  | fork_fails hp hrun => exact h.fork_fails hp hrun
  | exit hp hrun => exact h.exit hp hrun

theorem image_blank {m : Machine} {root : Nat} (h : ∀ i, i < 256 → m.mem root i = 0) :
    m.image root = fun _ => none := by
  funext a
  by_cases ha : a < 2 ^ 47
  · have hidx := vpnIndex_lower (page_low ha)
    have hentry : m.pageEntry root (a / FRAME_SIZE) = none := by
      rw [Machine.pageEntry, tablePath, walk_cons_none (edge_zero (h _ hidx))]
      rfl
    rw [image_low ha, userByte_none hentry]
  · exact image_high ha

theorem callSystem_init (h : (callSystem entries nodes).init w) :
    (∃ F D, CallsInv entries w F D) ∧ (memoriesSystem nodes).init w.memories := by
  obtain ⟨hinit, hrange, hshared⟩ := h
  obtain ⟨F, D, hworld⟩ := worldInv_init hinit
  obtain ⟨b, hb, hrun, hprocs, hborn⟩ := hinit
  obtain ⟨root, hroot⟩ := init_thread_spec hb hrun
  have hone : ∀ q Q, w.procs q = some Q → q = 0 ∧ Q = ⟨root * FRAME_SIZE, [], 0, 0⟩ := by
    intro q Q hQ
    simp only [hprocs] at hQ
    split_ifs at hQ with hq
    exact ⟨hq, (Option.some.inj hQ).symm.trans hroot.process⟩
  refine ⟨⟨F, D, hworld, fun q Q hQ => ?_, hrange, ?_⟩, ?_, ?_, hborn⟩
  · rw [(hone q Q hQ).2]
    exact PrivateVmes.mappings ⟨List.Pairwise.nil, by simp⟩ (by simp)
  · rw [hshared]
    exact SharedMappings.nil _
  · have hlt := Machine.maps_lt hroot.wf.hhdm
      ((Machine.maps_congr (Machine.fixed_hhdm hroot.fixed) root).mpr (hb.booted.physWf.maps hroot.usable))
    have hnumber : Process.root ⟨root * FRAME_SIZE, [], 0, 0⟩ = root := by
      simp only [Process.root, PPN, FRAME_SIZE]
      omega
    funext q
    show (w.procs q).map w.m.own = _
    rw [hprocs]
    dsimp only
    by_cases hq : q = 0
    · rw [hq, if_pos rfl, Function.update_self, Option.map_some, hroot.process, Machine.own, hnumber,
        image_blank hroot.blank]
      rfl
    · rw [if_neg hq, Function.update_of_ne hq]
      rfl
  · show backing w.m.sharedVmes = _
    rw [hshared]
    rfl

/-- The kernel follows the memories, call by call. -/
theorem calls_simulated (entries : List MemmapEntry) (nodes : Nat → BlockIO) :
    Simulation (callSystem entries nodes) (CleanCall nodes) (memoriesSystem nodes)
      fun w M => (∃ F D, CallsInv entries w F D) ∧ w.memories = M where
  init _ hs := ⟨_, (callSystem_init hs).2, (callSystem_init hs).1, rfl⟩
  step s t a s' := by
    rintro ⟨⟨F, D, h⟩, rfl⟩ hclean hstep
    have hfollows := h.step hclean hstep
    exact ⟨_, hfollows.step, hfollows.inv, rfl⟩

theorem callsInv_of_reachable (h : System.GuardedReachable (callSystem entries nodes) (CleanCall nodes) w) :
    (∃ F D, CallsInv entries w F D) ∧ (memoriesSystem nodes).Reachable w.memories := by
  obtain ⟨w₀, l, hinit, hrun⟩ := h
  obtain ⟨M, M', hM, ⟨-, rfl⟩, hrun', hinv, rfl⟩ := (calls_simulated entries nodes).traces hinit hrun
  exact ⟨hinv, w₀.memories, l, hM, hrun'⟩

theorem memories_numbered {M : Memories} (h : (memoriesSystem nodes).Reachable M) : M.Numbered := by
  have hsteps : ∀ M a M', Memories.Numbered M → (memoriesSystem nodes).step M a M' → Memories.Numbered M' :=
    fun _ _ _ hI hstep => MemoriesStep.numbered hstep hI
  refine System.Inductive.reachable (I := Memories.Numbered) ⟨fun M hM => ?_, hsteps⟩ h
  obtain ⟨hprocs, -, hborn⟩ := hM
  intro q Q hQ
  rw [hprocs] at hQ
  by_cases hq : q = 0
  · rw [hq, hborn]
    exact Nat.one_pos
  · rw [Function.update_of_ne hq] at hQ
    cases hQ

/-! ## From one boot -/

theorem init_thread_shared {b t : Machine} (h : BootedKernel entries b) (hrun : init_thread.run b = some ((), t)) :
    t.sharedVmes = b.sharedVmes := by
  have hwf := h.booted.physWf
  have hcommon : PPN (b.common_cr3 / FRAME_SIZE) = b.commonRoot := by
    have := Machine.maps_lt hwf.hhdm h.root_mapped
    rw [PPN, ← Machine.commonRoot]
    omega
  rw [init_thread, Prog.run_bind] at hrun
  obtain ⟨root, u, halloc, hrun⟩ := hrun
  have ha := alloc_spec hwf halloc
  have hhu := Machine.regs_hhdm ha.regs
  have hcu : u.common_cr3 = b.common_cr3 := Machine.fixed_common (Machine.regs_fixed ha.regs)
  have hm := hwf.maps ha.mem_free
  have hh := hwf.hhdm.congr hhu
  rw [Prog.bind_run (VA.ofPPN_run hh ((Machine.maps_congr hhu root).mpr hm)), Prog.get_bind_run] at hrun
  simp only [hcu, hcommon] at hrun
  rw [Prog.bind_run (VA.ofPPN_run hh ((Machine.maps_congr hhu _).mpr h.root_mapped)),
    Prog.bind_run (copyUpper_run rfl rfl), Prog.run_modify] at hrun
  have hshared : u.regs.sharedVmes = b.regs.sharedVmes := congrArg Machine.sharedVmes ha.regs
  rw [hrun]
  exact hshared

theorem Loaded.snapshot {r d hb : Nat} {v : Word} (h : Loaded entries w r d hb v) :
    ∃ st t, snapshot_for_fork.run { w.m.enter 0 ⟨r * FRAME_SIZE, [], hb, hb⟩ with acting := w.born } =
      some (st, t) := by
  obtain ⟨F, D, hinv⟩ := worldInv_of_clean h.reach
  obtain ⟨a, b, c, -, hchain⟩ := h.chain
  obtain ⟨F', hwf, hcard⟩ := h.free
  obtain rfl := hinv.wf.unique hwf
  have hroot := (hinv.procs 0 _ h.proc).root_eq (r := r) rfl
  refine snapshot_returns (hwf.congr rfl rfl rfl fun _ _ => rfl) (hinv.lowerSource h.proc) hinv.newVme ?_
  have hschain : Chain { w.m.enter 0 ⟨r * FRAME_SIZE, [], hb, hb⟩ with acting := w.born } 256 r
      [(0, a), (0, b), (0, c), (508, d)] := hchain.congr fun _ _ => rfl
  have hsroot : Machine.root { w.m.enter 0 ⟨r * FRAME_SIZE, [], hb, hb⟩ with acting := w.born } = r := hroot
  rw [hsroot, hschain.size (d := 3) rfl (by omega)]
  exact hcard

/-- The calls of a boot up to `w`, where the first process has a page. -/
structure Started (nodes : Nat → BlockIO) (w₀ w : World) (r d : Nat) (v : Word) : Prop where
  init : (callSystem [bootEntry] nodes).init w₀
  proc : w₀.procs 0 = some ⟨r * FRAME_SIZE, [], 0, 0⟩
  hhdm : w₀.m.hhdm_offset = 0xFFFF800000000000
  load : (callSystem [bootEntry] nodes).GuardedRun (CleanCall nodes) w₀ [.load 0 (508 * FRAME_SIZE) FRAME_SIZE] w
  loaded : Loaded [bootEntry] w r d 0 v

theorem bootMachine_started (nodes : Nat → BlockIO) : ∃ w₀ w r d v, Started nodes w₀ w r d v := by
  obtain ⟨t, hrun⟩ := init_thread_returns bootMachine_booted (Set.nonempty_of_ncard_ne_zero
    (by have := bootMachine_frames; omega))
  obtain ⟨r, hroot⟩ := init_thread_spec bootMachine_booted hrun
  obtain ⟨w₀, hw₀, hproc, hhdm, hfresh⟩ : ∃ w₀ : World, (callSystem [bootEntry] nodes).init w₀ ∧
      w₀.procs 0 = some ⟨r * FRAME_SIZE, [], 0, 0⟩ ∧ w₀.m.hhdm_offset = 0xFFFF800000000000 ∧
        Fresh [bootEntry] w₀ r := by
    have hproc : (if (0 : Nat) = 0 then some t.process else none) = some ⟨r * FRAME_SIZE, [], 0, 0⟩ := by
      rw [if_pos rfl, hroot.process]
    have hhdm : t.hhdm_offset = 0xFFFF800000000000 := Machine.fixed_hhdm hroot.fixed
    refine ⟨⟨t, fun p => if p = 0 then some t.process else none, 1⟩,
      ⟨⟨bootMachine, bootMachine_booted, hrun, rfl, rfl⟩, ⟨?_, ?_⟩, init_thread_shared bootMachine_booted hrun⟩,
        hproc, hhdm,
      ⟨_, [], ⟨bootMachine, bootMachine_booted, hrun, rfl, rfl⟩, .nil _⟩, hproc, rfl, hroot.blank,
        hroot.avail, hroot.wf,
      hroot.usable⟩
    · rw [hhdm, FRAME_SIZE]
    · rw [hhdm]
      decide
  obtain ⟨u, d, v, hload, hclean, hloaded⟩ := hfresh.page bootMachine_frames
  have hend : 508 * FRAME_SIZE + FRAME_SIZE ≤ 2 ^ 47 := by
    rw [FRAME_SIZE]
    omega
  have hguard : CleanCall nodes w₀ (.load 0 (508 * FRAME_SIZE) FRAME_SIZE) := by
    rintro P hP
    rw [hproc] at hP
    obtain rfl := Option.some.inj hP
    exact hclean
  exact ⟨w₀, _, r, d, v, hw₀, hproc, hhdm, (System.GuardedRun.nil w₀).snoc hguard (.load hproc hend hload), hloaded⟩

theorem Started.forks {w₀ : World} {r d : Nat} {v : Word} (h : Started nodes w₀ w r d v) : ∃ w' P,
    (callSystem [bootEntry] nodes).GuardedRun (CleanCall nodes) w₀
        ([.load 0 (508 * FRAME_SIZE) FRAME_SIZE] ++ [.fork 0 1]) w' ∧
      w'.procs 0 = some ⟨r * FRAME_SIZE, [], 0, 0⟩ ∧ w'.procs 1 = some P := by
  obtain ⟨st, t, hsnap⟩ := h.loaded.snapshot
  have hstep : CallStep nodes w _ _ := .fork h.loaded.proc hsnap rfl
  rw [h.loaded.born] at hstep
  refine ⟨_, _, h.load.snoc (by exact trivial) hstep, ?_, rfl⟩
  exact h.loaded.proc

/-- **Memories of their own.** What the processes ask and get in a run of the kernel, with its frames, tables and
lists, they could ask and get in a run with memories of their own. -/
theorem memories_of_their_own {w₀ : World} {l : List UserCall} (hinit : (callSystem entries nodes).init w₀)
    (hrun : (callSystem entries nodes).GuardedRun (CleanCall nodes) w₀ l w) :
    (memoriesSystem nodes).init w₀.memories ∧ (memoriesSystem nodes).Run w₀.memories l w.memories := by
  obtain ⟨M, M', hM, ⟨-, rfl⟩, hrun', -, rfl⟩ := (calls_simulated entries nodes).traces hinit hrun
  exact ⟨hM, hrun'⟩

theorem bootMachine_memory : ∃ (w₀ w : World) (l : List UserCall) (b : Option Byte),
    l = [.load 0 (508 * FRAME_SIZE) FRAME_SIZE] ++ [.store 0 508 1 7] ++ [.read 0 (508 * FRAME_SIZE) b] ∧
      (memoriesSystem fun _ => seven).init w₀.memories ∧
        (memoriesSystem fun _ => seven).Run w₀.memories l w.memories := by
  obtain ⟨w₀, w, r, d, v, h⟩ := bootMachine_started fun _ => seven
  have hread : 508 * FRAME_SIZE < 2 ^ 47 := by
    rw [FRAME_SIZE]
    omega
  have hstore : CallStep (fun _ => seven) w _ _ := .store (j := 1) (v := 7) h.loaded.proc (show 508 < 2 ^ 35 by omega)
    (by omega)
  have hrun := (h.load.snoc (by exact trivial) hstore).snoc (by exact trivial) (.read h.loaded.proc hread)
  exact ⟨w₀, _, _, _, rfl, memories_of_their_own h.init hrun⟩

/-- **Integrity.** While a process makes no call, it stays, and whatever the others do, its bytes, its places in files
and its heap are as they were. -/
theorem memory_kept {l : List UserCall} (h : System.GuardedReachable (callSystem entries nodes) (CleanCall nodes) w)
    (hq : w.procs q = some Q) (hrun : (callSystem entries nodes).GuardedRun (CleanCall nodes) w l w')
    (hl : ∀ c ∈ l, c.actor ≠ q) : ∃ Q', w'.procs q = some Q' ∧ w'.m.own Q' = w.m.own Q := by
  obtain ⟨hinv, hreach⟩ := callsInv_of_reachable h
  obtain ⟨M, hM, -, rfl⟩ := (calls_simulated entries nodes).run hrun ⟨hinv, rfl⟩
  have hnumbered := memories_numbered hreach
  have hborn : q < w.memories.born := hnumbered q _ (memories_procs hq)
  have hkept : w'.memories.Numbered ∧ q < w'.memories.born ∧ w'.memories.procs q = w.memories.procs q := by
    refine hM.kept (P := fun c => c.actor ≠ q)
      (I := fun M => M.Numbered ∧ q < M.born ∧ M.procs q = w.memories.procs q) ?_ ⟨hnumbered, hborn, rfl⟩ hl
    rintro s a t ⟨hs, hlt, hsame⟩ hne (hstep : MemoriesStep nodes s a t)
    exact ⟨hstep.numbered hs, Nat.lt_of_lt_of_le hlt hstep.born_le, (hstep.others hlt hne).trans hsame⟩
  have hsame : (w'.procs q).map w'.m.own = some (w.m.own Q) := hkept.2.2.trans (memories_procs hq)
  obtain ⟨Q', hQ', hown⟩ := Option.map_eq_some_iff.mp hsame
  exact ⟨Q', hQ', hown⟩

theorem bootMachine_kept : ∃ (w w' : World) (Q Q' : Process), w.procs 0 = some Q ∧ w.procs 1 ≠ none ∧
    w'.procs 0 = some Q' ∧ (callSystem [bootEntry] fun _ => seven).Run w [.store 1 508 1 7] w' ∧
      w'.m.own Q' = w.m.own Q := by
  obtain ⟨w₀, w, r, d, v, h⟩ := bootMachine_started fun _ => seven
  obtain ⟨w', P, hfork, hparent, hchild⟩ := h.forks
  have hstore : CallStep (fun _ => seven) w' _ _ :=
    .store (j := 1) (v := 7) hchild (show 508 < 2 ^ 35 by omega) (by omega)
  have hrun := (System.GuardedRun.nil (S := callSystem [bootEntry] fun _ => seven)
    (G := CleanCall fun _ => seven) w').snoc
    (by exact trivial) hstore
  obtain ⟨Q', hQ', hown⟩ := memory_kept ⟨w₀, _, h.init, hfork⟩ hparent hrun (by simp [UserCall.actor])
  exact ⟨w', _, _, Q', hparent, by simp [hchild], hQ', hrun.run, hown⟩

/-- **Shared mappings.** Whoever asks, two shared mappings never overlap, unless the last thread went in between. -/
theorem shared_mappings_apart {w₀ : World} {l k : List UserCall}
    {p₁ length₁ file₁ offset₁ a₁ p₂ length₂ file₂ offset₂ a₂ : Nat}
    {flags₁ flags₂ : BitVec 32} (hinit : (callSystem entries nodes).init w₀)
    (hrun : (callSystem entries nodes).GuardedRun (CleanCall nodes) w₀
      (l ++ .mmap p₁ length₁ flags₁ file₁ offset₁ a₁ :: k ++ [.mmap p₂ length₂ flags₂ file₂ offset₂ a₂]) w)
    (hflags₁ : flags₁ &&& MAP_SHARED ≠ 0) (hflags₂ : flags₂ &&& MAP_SHARED ≠ 0) (ha₁ : a₁ ≠ MAP_FAILED)
    (ha₂ : a₂ ≠ MAP_FAILED) (hk : ∀ p, .exit p 1 ∉ k) :
    a₁ + pagesLength length₁ ≤ a₂ ∨ a₂ + pagesLength length₂ ≤ a₁ := by
  obtain ⟨M, M', -, -, hruns, -, -⟩ := (calls_simulated entries nodes).traces hinit hrun
  obtain ⟨M₃, hruns, hlast⟩ := hruns.split
  obtain ⟨M₁, -, hruns⟩ := hruns.split
  obtain ⟨M₂, hfirst, hruns⟩ := hruns.head
  obtain ⟨M₄, hlast, -⟩ := hlast.head
  obtain ⟨hpos₁, -, hmap⟩ := MemoriesStep.mmap_placed hfirst hflags₁ ha₁
  obtain ⟨hpos₂, hfree, -⟩ := MemoriesStep.mmap_placed hlast hflags₂ ha₂
  have hlen₁ := le_pagesLength length₁
  have hlen₂ := le_pagesLength length₂
  by_contra hover
  -- An address of both has a place in the first mapping's file, and keeps it up to the second call.
  obtain ⟨a, ha, ha'⟩ : ∃ a, (a₁ ≤ a ∧ a < a₁ + pagesLength length₁) ∧ a₂ ≤ a ∧ a < a₂ + pagesLength length₂ :=
    ⟨max a₁ a₂, by omega⟩
  have hboth : M₂.shared a = some (file₁, add64 offset₁ (sub64 a a₁)) := by
    rw [hmap]
    exact if_pos ha
  have hkept : M₃.shared a = some (file₁, add64 offset₁ (sub64 a a₁)) := by
    refine hruns.kept (P := fun c => ∀ p, c ≠ .exit p 1)
      (I := fun M => M.shared a = some (file₁, add64 offset₁ (sub64 a a₁))) (fun s c t hs hc hstep => ?_) hboth
      fun c hc p hcp => ?_
    · exact MemoriesStep.shared_kept hstep hc hs
    · exact hk p (hcp ▸ hc)
  rw [hfree a ha'.1 ha'.2] at hkept
  cases hkept

end

theorem bootMachine_apart : ∃ (w₀ w : World) (a₁ a₂ : Nat), (callSystem [bootEntry] fun _ => seven).Run w₀
    ([.mmap 0 4096 3 0 0 a₁] ++ [.mmap 0 4096 3 0 0 a₂]) w ∧
        (a₁ + pagesLength 4096 ≤ a₂ ∨ a₂ + pagesLength 4096 ≤ a₁) := by
  obtain ⟨w₀, w, r, d, v, h⟩ := bootMachine_started fun _ => seven
  have hshared : (w₀.m.enter 0 ⟨r * FRAME_SIZE, [], 0, 0⟩).sharedVmes = [] := h.init.2.2
  have hstart : (w₀.m.enter 0 ⟨r * FRAME_SIZE, [], 0, 0⟩).sharedStart = 0xFFFF800008000000 := by
    show add64 w₀.m.hhdm_offset sharedPaLimit = _
    rw [h.hhdm]
    rfl
  have hmay : MayMap 4096 3 0 0 := ⟨by decide, rfl, by decide⟩
  have hlength : roundUpPage 4096 = 4096 := by
    simp only [roundUpPage, add64, FRAME_SIZE]
    rfl
  have hclean : ∀ (w : World) (a : Nat), CleanCall (fun _ => seven) w (.mmap 0 4096 3 0 0 a) := fun w a P _ _ => by
    rw [if_neg (by decide), pagesLength, FRAME_SIZE]
    decide
  have hfirst := mmap_shared_run (s := w₀.m.enter 0 ⟨r * FRAME_SIZE, [], 0, 0⟩) (by decide) hmay
    (show findGap _ _ _ = ([], 0xFFFF800008000000, []) by rw [hshared, hstart]; rfl)
  rw [hlength, if_neg (by decide)] at hfirst
  have hrun₁ := (System.GuardedRun.nil (S := callSystem [bootEntry] fun _ => seven)
    (G := CleanCall fun _ => seven) w₀).snoc
    (hclean _ _) (.mmap h.proc hfirst)
  generalize hw₁ : w₀.leave 0 _ = w₁ at hrun₁
  obtain ⟨P, hP, hstart₁, n, hshared₁⟩ : ∃ P, w₁.procs 0 = some P ∧ (w₁.m.enter 0 P).sharedStart = 0xFFFF800008000000 ∧
      ∃ n, (w₁.m.enter 0 P).sharedVmes = [⟨n, 0xFFFF800008000000, 0xFFFF800008001000, true, 0, 0⟩] := by
    rw [← hw₁]
    exact ⟨_, rfl, hstart, _, rfl⟩
  -- The second place is behind the first.
  have hsecond := mmap_shared_run (s := w₁.m.enter 0 P) (by decide) hmay
    (show findGap _ _ _ = ([⟨n, 0xFFFF800008000000, 0xFFFF800008001000, true, 0, 0⟩], 0xFFFF800008001000, []) by
      rw [hshared₁, hstart₁, hlength]; rfl)
  rw [hlength, if_neg (by decide)] at hsecond
  have hrun₂ := hrun₁.snoc (hclean _ _) (.mmap hP hsecond)
  exact ⟨w₀, _, _, _, hrun₂.run, shared_mappings_apart (l := []) (k := []) h.init hrun₂ (by decide)
    (by decide) (by decide)
    (by decide) (by simp)⟩

end Kernel
