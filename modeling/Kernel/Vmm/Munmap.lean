import Kernel.Vmm.Gone
import Kernel.Vmm.Mappings

/-!
# `munmap` and the page tables

The pages that go are those of the range that some node covers. The call returns,
and without such a page it changes nothing.
-/

namespace Kernel

open Lib

section

variable {s t : Machine} {F F' P : Set Nat} {p root start stop length : Nat} {vme : VME} {l l' kept : List VME}
  {touched : Bool} {r : Int}

def coveredPages (l : List VME) (start stop : Nat) : Set Nat :=
  {v | start ≤ v * FRAME_SIZE ∧ v * FRAME_SIZE < stop ∧ vmeSpan.Covers l (v * FRAME_SIZE)}

theorem coveredPages_cons : coveredPages (vme :: l) start stop =
    pagesFrom (max start vme.start) (min stop vme.end) ∪ coveredPages l start stop := by
  ext v
  simp only [coveredPages, pagesFrom, Span.Covers, Span.Holds, Set.mem_union, Set.mem_ofPred_eq, List.mem_cons,
    exists_eq_or_imp, vmeSpan_lo, vmeSpan_hi]
  constructor
  · rintro ⟨hlo, hhi, hv | hv⟩
    · left
      omega
    · exact Or.inr ⟨hlo, hhi, hv⟩
  · rintro (⟨hlo, hhi⟩ | ⟨hlo, hhi, hv⟩)
    · exact ⟨by omega, by omega, Or.inl (by omega)⟩
    · exact ⟨hlo, hhi, Or.inr hv⟩

theorem coveredPages_empty (h : ∀ v ∈ l, ¬ v.Meets start stop) : coveredPages l start stop = ∅ := by
  refine Set.eq_empty_iff_forall_notMem.mpr ?_
  rintro n ⟨hlo, hhi, v, hv, hn⟩
  have := not_meets (h v hv) _ hn
  omega

theorem PagesGone.live (h : PagesGone s F p root P t F') (live : List Nat) :
    PagesGone s F p root P { t with vmeLive := live } F' :=
  ⟨h.torn.congr rfl rfl rfl rfl rfl rfl, h.gone, h.kept, h.freed, h.words, h.tables⟩

theorem cutVme_run (i j : Nat) (vme : VME) (s : Machine) :
    ∃ kept live, (cutVme i j vme).run s = some (kept, { s with vmeLive := live }) := by
  unfold cutVme
  split_ifs
  · exact ⟨_, _, rfl⟩
  · exact ⟨_, _, rfl⟩
  · exact ⟨_, _, rfl⟩
  · exact ⟨_, _, rfl⟩

theorem keepVmes_run {loop : K (List VME × Int)} (hrun : loop.run s = some ((l', r), t)) :
    (keepVmes kept loop).run s = some ((kept ++ l', r), t) := by
  unfold keepVmes
  rw [Prog.bind_run hrun]
  rfl

theorem munmapFrom_gone (touched : Bool) (hl : PrivateVmes l) (hstart : start % FRAME_SIZE = 0)
    (h : Space s F (s.lowerFrames root) p root) (hr : OnRoot s root) :
    ∃ l' r t F', (munmapFrom start stop touched l).run s = some ((l', r), t) ∧
      PagesGone s F p root (coveredPages l start stop) t F' := by
  induction l generalizing s F touched with
  | nil =>
    refine ⟨_, _, s, F, rfl, ?_⟩
    rw [coveredPages_empty (by simp)]
    exact PagesGone.refl h
  | cons vme next ih =>
    have hv := hl.each vme (by simp)
    have hkept : ¬ vme.Meets start stop →
        ∃ l' r t F', (keepVmes [vme] (munmapFrom start stop touched next)).run s = some ((l', r), t) ∧
          PagesGone s F p root (coveredPages (vme :: next) start stop) t F' := by
      intro hmeets
      obtain ⟨l', r, t, F', hrun, hgone⟩ := ih touched hl.tail h hr
      refine ⟨_, r, t, F', keepVmes_run hrun, ?_⟩
      unfold VME.Meets at hmeets
      rw [coveredPages_cons, pagesFrom_empty (by omega), Set.empty_union]
      exact hgone
    unfold munmapFrom
    by_cases hbehind : stop ≤ vme.start
    · rw [if_pos hbehind]
      refine ⟨_, _, s, F, rfl, ?_⟩
      rw [coveredPages_empty (hl.behind hbehind)]
      exact PagesGone.refl h
    rw [if_neg hbehind]
    by_cases hbefore : start ≥ vme.end
    · rw [if_pos hbefore]
      exact hkept (by unfold VME.Meets; omega)
    rw [if_neg hbefore, if_neg (by simp [hv.unshared])]
    simp only [vme.max_start, vme.min_end]
    by_cases hempty : max start vme.start ≥ min stop vme.end
    · rw [if_pos hempty]
      exact hkept (by unfold VME.Meets; omega)
    rw [if_neg hempty]
    have haligned : max start vme.start % FRAME_SIZE = 0 := by
      rcases Nat.le_total start vme.start with hle | hle
      · rw [Nat.max_eq_right hle]
        exact hv.aligned.1
      · rw [Nat.max_eq_left hle]
        exact hstart
    obtain ⟨u, F₁, hunmap, hu⟩ :=
      unmapRange_gone h hr haligned (show min stop vme.end ≤ 2 ^ 47 by have := hv.high; omega)
    obtain ⟨kept, live, hcut⟩ := cutVme_run (max start vme.start) (min stop vme.end) vme u
    have hlive := hu.live live
    obtain ⟨l', r, t, F', hrun, hgone⟩ := ih true hl.tail hlive.torn.space (hlive.torn.onRoot hr)
    refine ⟨kept ++ l', r, t, F', ?_, ?_⟩
    · rw [Prog.bind_run hunmap, Prog.bind_run hcut]
      exact keepVmes_run hrun
    · rw [coveredPages_cons]
      exact hlive.trans hgone

theorem munmapFrom_misses (hl : PrivateVmes l) (hnone : ∀ vme ∈ l, ¬ vme.Meets start stop) :
    (munmapFrom start stop touched l).run s = some ((l, if touched then 0 else -1), s) := by
  induction l with
  | nil => rfl
  | cons vme next ih =>
    have hrest := ih hl.tail fun v hv => hnone v (by simp [hv])
    have hmeets := hnone vme (by simp)
    unfold VME.Meets at hmeets
    unfold munmapFrom
    have hunshared := (hl.each vme (by simp)).unshared
    by_cases hbehind : stop ≤ vme.start
    · rw [if_pos hbehind]
      rfl
    rw [if_neg hbehind]
    by_cases hbefore : start ≥ vme.end
    · rw [if_pos hbefore]
      exact keepVmes_run hrest
    rw [if_neg hbefore, if_neg (by simp [hunshared])]
    have hempty : (if start > vme.start then start else vme.start) ≥ if stop < vme.end then stop else vme.end := by
      split_ifs <;> omega
    dsimp only
    rw [if_pos hempty]
    exact keepVmes_run hrest

/-! ## The owners do not matter -/

variable {ranges : List Range}

theorem cutVme_unowned (i j : Nat) (vme : VME) : Prog.Respects (Unowned ranges) (cutVme i j vme) := by
  unfold cutVme
  apply Prog.respects_ite
  · refine Prog.respects_bind (Prog.respects_modify ?_) fun _ => Prog.respects_pure _
    rintro s _ ⟨o, rfl⟩
    exact ⟨o, rfl⟩
  apply Prog.respects_ite
  · exact Prog.respects_pure _
  apply Prog.respects_ite
  · exact Prog.respects_pure _
  · refine Prog.respects_bind ?_ fun _ => Prog.respects_pure _
    apply Prog.respects_get
    · rintro s _ ⟨o, rfl⟩
      rfl
    · refine fun s => Prog.respects_bind (Prog.respects_modify ?_) fun _ => Prog.respects_pure _
      rintro s _ ⟨o, rfl⟩
      exact ⟨o, rfl⟩

theorem keepVmes_unowned {loop : K (List VME × Int)} (h : Prog.Respects (Unowned ranges) loop) (kept : List VME) :
    Prog.Respects (Unowned ranges) (keepVmes kept loop) :=
  Prog.respects_bind h fun _ => Prog.respects_pure _

theorem munmapFrom_unowned (start stop : Nat) (touched : Bool) (l : List VME) :
    Prog.Respects (Unowned ranges) (munmapFrom start stop touched l) := by
  induction l generalizing touched with
  | nil => exact Prog.respects_pure _
  | cons vme next ih =>
    unfold munmapFrom
    apply Prog.respects_ite (Prog.respects_pure _)
    apply Prog.respects_ite (keepVmes_unowned (ih touched) _)
    apply Prog.respects_ite (Prog.respects_pure _)
    apply Prog.respects_ite (keepVmes_unowned (ih touched) _)
    apply Prog.respects_bind (unmapRange_unowned _ _)
    intro _
    apply Prog.respects_bind (cutVme_unowned _ _ _)
    exact fun kept => keepVmes_unowned (ih true) kept

/-! ## The call -/

theorem range_end (hstart : start < 2 ^ 64) (hlength : length < 2 ^ 64) (h : start ≤ add64 start (roundUpPage length)) :
    (add64 start (roundUpPage length) = start + pagesLength length ∧ start + pagesLength length < 2 ^ 64) ∨
      (add64 start (roundUpPage length) = start ∧ 2 ^ 64 ≤ start + pagesLength length) := by
  simp only [add64, roundUpPage, pagesLength, FRAME_SIZE] at *
  omega

/-- Address `va` is byte `pos` of `node`, or of no file. -/
def Backed (l : List VME) (va node pos : Nat) : Prop :=
  ∃ vme ∈ l, vmeSpan.Holds vme va ∧ vme.node = node ∧ vme.fileAt va = pos

/-- `munmap` has taken the range away and nothing else. -/
structure Unmapped (s : Machine) (F : Set Nat) (root start stop : Nat) (t : Machine) : Prop where
  list : PrivateVmes t.privateVmes
  uncovered : vmeSpan.Free t.privateVmes start stop
  backed : ∀ va, va < start ∨ stop ≤ va → ∀ node pos,
    Backed t.privateVmes va node pos ↔ Backed s.privateVmes va node pos
  gone : ∀ v ∈ coveredPages s.privateVmes start stop, t.pageEntry root v = none
  kept : ∀ v, v < 2 ^ 35 → v ∉ coveredPages s.privateVmes start stop → t.pageEntry root v = s.pageEntry root v
  freed : PhysWf t (F ∪ s.framesOf root (coveredPages s.privateVmes start stop))
  once : Disjoint F (s.framesOf root (coveredPages s.privateVmes start stop))
  /-- The upper half has the same tables. -/
  upper : t.mem root = s.mem root
  other : ∀ g, g ∉ s.lowerFrames root → t.mem g = s.mem g

theorem backed_iff (h : vmeSpan.CutOut VME.Part start stop l l') {va : Nat} (hva : va < start ∨ stop ≤ va)
    (node pos : Nat) : Backed l' va node pos ↔ Backed l va node pos := by
  constructor
  · rintro ⟨w, hw, ⟨hlo, hhi⟩, rfl, rfl⟩
    obtain ⟨v, hv, hpart, hvlo, -, hvhi, -⟩ := h.part hw
    simp only [vmeSpan_lo, vmeSpan_hi] at *
    exact ⟨v, hv, ⟨Nat.le_trans hvlo hlo, Nat.lt_of_lt_of_le hhi hvhi⟩, hpart.node.symm, (hpart.file va).symm⟩
  · rintro ⟨v, hv, hn, rfl, rfl⟩
    obtain ⟨w, hw, hpart, hwn⟩ := h.kept hv hn hva
    exact ⟨w, hw, hwn, hpart.node, hpart.file va⟩

theorem coveredPages_lower (hl : PrivateVmes l) {v : Nat} (hv : v ∈ coveredPages l start stop) : v < 2 ^ 35 := by
  obtain ⟨-, -, vme, hvme, -, hhi⟩ := hv
  have := (hl.each vme hvme).high
  simp only [vmeSpan_hi, FRAME_SIZE] at hhi
  omega

theorem munmap_meets (hwf : PhysWf s F) (hr : OnRoot s root) (hlower : LowerSource s F root) (honce : LowerOnce s root)
    (hl : PrivateVmes s.privateVmes) (hmay : s.mayUnmap start length)
    (hmeets : ∃ vme ∈ s.privateVmes, vme.Meets start (add64 start (roundUpPage length))) :
    ∃ t, (munmap start length).run s = some (0, t) ∧ Unmapped s F root start (add64 start (roundUpPage length)) t := by
  -- The owners are ghosts: the run is that of a machine on which every page is the thread's.
  have hspace : Space { s with owner := fun _ => some s.acting } F
      (Machine.lowerFrames { s with owner := fun _ => some s.acting } root) s.acting root :=
    Space.of_once (hwf.congr rfl rfl rfl fun _ _ => rfl) hlower honce fun _ _ => rfl
  obtain ⟨l', r, u, F', hrun, hgone⟩ := munmapFrom_gone false hl hmay.1 hspace hr
  obtain ⟨-, o, hloop⟩ := Unowned.run (munmapFrom_unowned _ _ _ _) hrun
  have hcall : (munmap start length).run s = some (r, { u with owner := o, privateVmes := l' }) := by
    rw [munmap_checked hmay, hloop]
    rfl
  obtain ⟨hcut, hr0⟩ := munmap_cuts hl hmay hcall
  rw [if_pos hmeets] at hr0
  subst hr0
  refine ⟨_, hcall, hl.cut hcut, hcut.free, fun va => backed_iff hcut,
    fun v hv => hgone.gone v hv (coveredPages_lower hl hv), hgone.kept, ?_, ?_, hgone.torn.upper, hgone.torn.other⟩
  · have hfreed := hgone.torn.space.wf
    rw [hgone.freed] at hfreed
    exact hfreed.congr rfl rfl rfl fun _ _ => rfl
  · rw [Set.disjoint_left]
    exact fun f hf hf' => (hlower f (Or.inr (framesOf_lower hf'))).1 hf

/-- **`munmap` is exact.** It returns 0 when its range is one it accepts and meets a node, and then takes away that
range and nothing else. Otherwise it returns -1 and changes nothing. -/
theorem munmap_exact (hwf : PhysWf s F) (hr : OnRoot s root) (hlower : LowerSource s F root) (honce : LowerOnce s root)
    (hl : PrivateVmes s.privateVmes) (hstart : start < 2 ^ 64) (hlength : length < 2 ^ 64) :
    ∃ r t, (munmap start length).run s = some (r, t) ∧
      (r = 0 ↔ start % FRAME_SIZE = 0 ∧ ¬ s.isSharedAddress start ∧ 0 < length ∧ start + pagesLength length < 2 ^ 64 ∧
        ∃ va, start ≤ va ∧ va < start + pagesLength length ∧ vmeSpan.Covers s.privateVmes va) ∧
      (r = 0 → Unmapped s F root start (start + pagesLength length) t) ∧ (r ≠ 0 → r = -1 ∧ t = s) := by
  by_cases hmay : s.mayUnmap start length
  · obtain ⟨haligned, hne, hshared, hle⟩ := id hmay
    by_cases hmeets : ∃ vme ∈ s.privateVmes, vme.Meets start (add64 start (roundUpPage length))
    · obtain ⟨t, hrun, ht⟩ := munmap_meets hwf hr hlower honce hl hmay hmeets
      obtain ⟨vme, hvme, hm⟩ := hmeets
      unfold VME.Meets at hm
      obtain ⟨hend, hlt⟩ : add64 start (roundUpPage length) = start + pagesLength length ∧
        start + pagesLength length < 2 ^ 64 := by
        rcases range_end hstart hlength hle with h | h <;> omega
      rw [hend] at ht hm
      refine ⟨0, t, hrun, iff_of_true rfl ⟨haligned, hshared, by omega, hlt, max start vme.start, by omega, by omega,
        vme, hvme, ?_⟩, fun _ => ht, fun h => absurd rfl h⟩
      simp only [Span.Holds, vmeSpan_lo, vmeSpan_hi]
      omega
    · have hnone : ∀ vme ∈ s.privateVmes, ¬ vme.Meets start (add64 start (roundUpPage length)) :=
        fun vme hvme hm => hmeets ⟨vme, hvme, hm⟩
      refine ⟨-1, s, ?_, iff_of_false (by decide) ?_, fun h => absurd h (by decide), fun _ => ⟨rfl, rfl⟩⟩
      · rw [munmap_checked hmay, munmapFrom_misses hl hnone]
        rfl
      · rintro ⟨-, -, -, hlt, va, hlo, hhi, vme, hvme, hn⟩
        have := not_meets (hnone vme hvme) va hn
        rcases range_end hstart hlength hle with h | h <;> omega
  · refine ⟨-1, s, munmap_refused hmay, iff_of_false (by decide) ?_, fun h => absurd h (by decide), fun _ => ⟨rfl, rfl⟩⟩
    rintro ⟨haligned, hshared, hpos, hlt, -⟩
    refine hmay ⟨haligned, by omega, hshared, ?_⟩
    rw [roundUpPage_eq (by omega), show add64 start (pagesLength length) = _ from Nat.mod_eq_of_lt hlt]
    omega

end

/-! ## A mapping of two pages, the first of which is there -/

/-- `onePage` with a mapping of the pages 1 and 2, and page 1 on frame 105. -/
def mappedPage : Machine :=
  { onePage.poke 103 1 (mkEntry 105 (leafFlags true true)) with privateVmes := [⟨0x8000, 0x1000, 0x3000, false, 0, 0⟩] }

theorem mappedPage_edge (f i : Nat) : mappedPage.edge f i = if f = 103 ∧ i = 1 then some 105 else onePage.edge f i := by
  by_cases h : f = 103 ∧ i = 1
  · rw [if_pos h]
    exact edge_mkEntry (by omega) (by omega) (present_leafFlags true true) (leafFlags_masked true true) (if_pos h)
  · rw [if_neg h, Machine.edge, Machine.edge, show mappedPage.mem f i = onePage.mem f i from if_neg h]

/-- A path leads down the tables of page 0, or to page 1. -/
theorem mappedPage_walk {f g : Nat} {π : List Nat} (h : walk mappedPage.edge f π = some g) :
    (π = List.replicate π.length 0 ∧ g = f + π.length) ∨
      (f + π.length = 104 ∧ π = List.replicate (π.length - 1) 0 ++ [1] ∧ g = 105) := by
  induction π generalizing f with
  | nil => exact Or.inl ⟨rfl, (Option.some.inj h).symm⟩
  | cons i π ih =>
    rw [walk_cons, mappedPage_edge, onePage_edge] at h
    split_ifs at h with hi hi'
    · obtain ⟨rfl, rfl⟩ := hi
      -- Nothing is below frame 105.
      cases π with
      | nil => exact Or.inr ⟨rfl, rfl, (Option.some.inj h).symm⟩
      | cons j π =>
        rw [Option.bind_some, walk_cons, mappedPage_edge, onePage_edge, if_neg (by omega), if_neg (by omega)] at h
        cases h
    · obtain ⟨rfl, -, -⟩ := hi'
      rcases ih h with ⟨hπ, hg⟩ | ⟨hlen, hπ, hg⟩
      · refine Or.inl ⟨?_, by rw [List.length_cons]; omega⟩
        rw [List.length_cons, List.replicate_succ, ← hπ]
      · have hpos : π.length ≠ 0 := by
          intro h0
          rw [List.length_eq_zero_iff.mp h0] at hπ
          cases hπ
        refine Or.inr ⟨by rw [List.length_cons]; omega, ?_, hg⟩
        obtain ⟨n, hn⟩ := Nat.exists_eq_succ_of_ne_zero hpos
        rw [hn] at hπ
        rw [List.length_cons, hn, Nat.add_sub_cancel, List.replicate_succ, List.cons_append]
        exact congrArg _ hπ
    · cases h

theorem mappedPage_wf : PhysWf mappedPage onePageFree := by
  refine onePage_wf.congr rfl rfl rfl fun f hf => Machine.poke_mem_of_ne ?_
  rintro rfl
  exact absurd hf (by simp [onePageFree])

theorem mappedPage_source : LowerSource mappedPage onePageFree 100 := by
  have hlow : ∀ π g, List.length π ≤ 4 → walk mappedPage.edge 100 π = some g → g ∉ onePageFree ∧ mappedPage.maps g := by
    intro π g hlen hw
    have hg : g ≤ 105 := by rcases mappedPage_walk hw with ⟨-, hg⟩ | ⟨-, -, hg⟩ <;> omega
    simp only [onePageFree, Set.mem_Ico, Machine.maps, mappedPage, Machine.poke, onePage, FRAME_SIZE]
    omega
  rintro g (⟨π, _, hlen, hw⟩ | ⟨π, _, hlen, hw⟩)
  · exact hlow π g (by omega) hw
  · exact hlow π g (by omega) hw

theorem mappedPage_lowerOnce : LowerOnce mappedPage 100 := by
  intro π ρ g _ _ hlπ hlρ hw hw'
  rcases mappedPage_walk hw with ⟨hπ, hg⟩ | ⟨hlen, hπ, hg⟩ <;>
    rcases mappedPage_walk hw' with ⟨hρ, hg'⟩ | ⟨hlen', hρ, hg'⟩
  · rw [hπ, hρ, show π.length = ρ.length by omega]
  · omega
  · omega
  · rw [hπ, hρ, show π.length = ρ.length by omega]

theorem mappedPage_vmes : PrivateVmes mappedPage.privateVmes := by
  refine ⟨List.pairwise_singleton _ _, fun vme hvme => ?_⟩
  obtain rfl := List.mem_singleton.mp hvme
  exact ⟨by decide, by decide, by decide, by unfold FRAME_SIZE; decide, rfl⟩

theorem mappedPage_entry : mappedPage.pageEntry 100 1 = some (mkEntry 105 (leafFlags true true)) := by
  refine Machine.pageEntry_some.mpr ⟨103, ?_, (present_mkEntry _ _).mpr (present_leafFlags true true), rfl⟩
  simp [tablePath, vpnIndex, walk_cons, mappedPage_edge, onePage_edge]

theorem mappedPage_unmaps : ∃ t, (munmap 0x1000 1).run mappedPage = some (0, t) ∧
    Unmapped mappedPage onePageFree 100 0x1000 (0x1000 + pagesLength 1) t ∧ t.pageEntry 100 1 = none ∧
    ∃ F, PhysWf t F ∧ 105 ∈ F := by
  obtain ⟨r, t, hrun, hzero, hdone, -⟩ :=
    munmap_exact mappedPage_wf (show OnRoot mappedPage 100 from onePage_onRoot) mappedPage_source mappedPage_lowerOnce
      mappedPage_vmes (show 0x1000 < 2 ^ 64 by omega) (show 1 < 2 ^ 64 by omega)
  have hpages : pagesLength 1 = 0x1000 := by simp only [pagesLength, FRAME_SIZE]
  have haligned : 0x1000 % FRAME_SIZE = 0 := by rw [FRAME_SIZE]
  have hcovers : vmeSpan.Covers mappedPage.privateVmes 0x1000 := ⟨_, List.mem_singleton_self _, by decide, by decide⟩
  obtain rfl := hzero.mpr ⟨haligned, by decide, by omega, by omega, 0x1000, le_rfl, by omega, hcovers⟩
  have ht := hdone rfl
  have hpage : 1 ∈ coveredPages mappedPage.privateVmes 0x1000 (0x1000 + pagesLength 1) := by
    refine ⟨by rw [FRAME_SIZE], by rw [hpages, FRAME_SIZE]; omega, ?_⟩
    rwa [Nat.one_mul, show FRAME_SIZE = 0x1000 by rw [FRAME_SIZE]]
  refine ⟨t, hrun, ht, ht.gone 1 hpage, _, ht.freed, Or.inr ⟨1, hpage, by omega, _, mappedPage_entry, ?_⟩⟩
  exact entryPpn_mkEntry (by omega) (leafFlags_masked true true)

end Kernel
