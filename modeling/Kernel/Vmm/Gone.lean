import Kernel.Vmm.Teardown

/-!
# Pages that `unmapRange` takes away

Their entries are gone and their frames are free. Every other page keeps its
entry and its words.
-/

namespace Kernel

open Lib

section

variable {s t u : Machine} {F F' F'' D P Q : Set Nat} {p root vpn tbl f : Nat}

/-- The frames of the pages of `P` that are there. -/
def Machine.framesOf (s : Machine) (root : Nat) (P : Set Nat) : Set Nat :=
  {f | ∃ v ∈ P, v < 2 ^ 35 ∧ ∃ entry, s.pageEntry root v = some entry ∧ entryPpn entry = f}

theorem framesOf_empty (s : Machine) (root : Nat) : s.framesOf root ∅ = ∅ := by
  ext f
  simp [Machine.framesOf]

theorem framesOf_lower : s.framesOf root P ⊆ s.lowerPages root := by
  rintro _ ⟨v, -, hlt, entry, he, rfl⟩
  exact Machine.page_mem hlt he

/-- The pages of `P` are gone and their frames are free. The other pages are as they were. -/
structure PagesGone (s : Machine) (F : Set Nat) (p root : Nat) (P : Set Nat) (t : Machine) (F' : Set Nat) : Prop where
  torn : TornDown s F p root t F'
  gone : ∀ v ∈ P, v < 2 ^ 35 → t.pageEntry root v = none
  kept : ∀ v, v < 2 ^ 35 → v ∉ P → t.pageEntry root v = s.pageEntry root v
  freed : F' = F ∪ s.framesOf root P
  words : ∀ v entry, v < 2 ^ 35 → v ∉ P → s.pageEntry root v = some entry →
    t.mem (entryPpn entry) = s.mem (entryPpn entry)
  tables : ∀ π g i, LowerPath π → π.length ≤ 3 → walk t.edge root π = some g →
    walk s.edge root π = some g ∧ (present (t.mem g i) → t.mem g i = s.mem g i)

theorem PagesGone.refl (h : Space s F (s.lowerFrames root) p root) : PagesGone s F p root ∅ s F where
  torn := TornDown.refl h
  gone v hv := absurd hv (Set.notMem_empty v)
  kept _ _ _ := rfl
  freed := by rw [framesOf_empty, Set.union_empty]
  words _ _ _ _ _ := rfl
  tables _ _ _ _ _ hw := ⟨hw, fun _ => rfl⟩

theorem PagesGone.trans (h : PagesGone s F p root P t F') (h' : PagesGone t F' p root Q u F'') :
    PagesGone s F p root (P ∪ Q) u F'' where
  torn := h.torn.trans h'.torn
  gone v hv hlt := by
    by_cases hQ : v ∈ Q
    · exact h'.gone v hQ hlt
    · rw [h'.kept v hlt hQ]
      exact h.gone v (hv.resolve_right hQ) hlt
  kept v hlt hv := by
    rw [h'.kept v hlt fun hQ => hv (Or.inr hQ), h.kept v hlt fun hP => hv (Or.inl hP)]
  freed := by
    rw [h'.freed, h.freed, Set.union_assoc]
    congr 1
    ext f
    constructor
    · rintro (⟨v, hv, hlt, he⟩ | ⟨v, hv, hlt, entry, he, hf⟩)
      · exact ⟨v, Or.inl hv, hlt, he⟩
      · by_cases hP : v ∈ P
        · rw [h.gone v hP hlt] at he
          cases he
        · rw [h.kept v hlt hP] at he
          exact ⟨v, Or.inr hv, hlt, entry, he, hf⟩
    · rintro ⟨v, hv, hlt, entry, he, hf⟩
      by_cases hP : v ∈ P
      · exact Or.inl ⟨v, hP, hlt, entry, he, hf⟩
      · refine Or.inr ⟨v, hv.resolve_left hP, hlt, entry, ?_, hf⟩
        rw [h.kept v hlt hP]
        exact he
  words v entry hlt hv he := by
    have hP : v ∉ P := fun hP => hv (Or.inl hP)
    rw [h'.words v entry hlt (fun hQ => hv (Or.inr hQ)) (by rw [h.kept v hlt hP]; exact he), h.words v entry hlt hP he]
  tables π g i hπ hlen hw := by
    obtain ⟨hw', hword'⟩ := h'.tables π g i hπ hlen hw
    obtain ⟨hw'', hword⟩ := h.tables π g i hπ hlen hw'
    refine ⟨hw'', fun hp => ?_⟩
    have hsame := hword' hp
    rw [hsame] at hp
    rw [hsame, hword hp]

/-! ## One page -/

theorem walk_uncut (h : Space s F D p root) (hv : vpn < 2 ^ 35)
    (hw : walk s.edge root (tablePath vpn 3) = some tbl) (hedge : s.edge tbl (vpnIndex vpn 0) = some f)
    {π : List Nat} (hπ : LowerPath π) (hlen : π.length ≤ 3) :
    walk ((s.poke tbl (vpnIndex vpn 0) 0).freed f).edge root π = walk s.edge root π := by
  have htlen := tablePath_length vpn 3
  have hpage := walk_pagePath hw hedge
  have hplen := pagePath_length vpn 3
  refine walk_congr_path fun ρ g hρ hlt hg => Machine.edge_congr ?_
  have hρlow : LowerPath ρ := by
    obtain ⟨τ, rfl⟩ := hρ
    exact lowerPath_left hπ
  have hgt : g ≠ tbl := by
    rintro rfl
    have := congrArg List.length (h.once ρ _ g hρlow (lowerPath_initial hv (List.prefix_refl _)) (by omega)
      (by omega) hg hw)
    omega
  have hgf : g ≠ f := by
    rintro rfl
    have := congrArg List.length (h.once ρ _ g hρlow (lowerPath_pagePath hv) (by omega) (by omega) hg hpage)
    omega
  exact (Machine.poke_mem_of_ne hgf).trans (Machine.poke_mem_of_ne hgt)

theorem word_uncut (h : Space s F D p root) (hv : vpn < 2 ^ 35)
    (hw : walk s.edge root (tablePath vpn 3) = some tbl) (hedge : s.edge tbl (vpnIndex vpn 0) = some f)
    {π : List Nat} {g i : Nat} (hπ : LowerPath π) (hlen : π.length ≤ 3) (hg : walk s.edge root π = some g)
    (hp : present (((s.poke tbl (vpnIndex vpn 0) 0).freed f).mem g i)) :
    ((s.poke tbl (vpnIndex vpn 0) 0).freed f).mem g i = s.mem g i := by
  have hplen := pagePath_length vpn 3
  have hgf : g ≠ f := by
    rintro rfl
    have := congrArg List.length (h.once π _ g hπ (lowerPath_pagePath hv) (by omega) (by omega) hg
      (walk_pagePath hw hedge))
    omega
  have hfreed : ((s.poke tbl (vpnIndex vpn 0) 0).freed f).mem g i = (s.poke tbl (vpnIndex vpn 0) 0).mem g i :=
    congrFun (Machine.poke_mem_of_ne hgf) i
  rw [hfreed] at hp ⊢
  simp only [Machine.poke] at hp ⊢
  split_ifs at hp ⊢ with hi
  · exact absurd hp not_present_zero
  · rfl

theorem pageEntry_uncut (h : Space s F D p root) (hv : vpn < 2 ^ 35)
    (hw : walk s.edge root (tablePath vpn 3) = some tbl) (hedge : s.edge tbl (vpnIndex vpn 0) = some f) {v : Nat}
    (hlt : v < 2 ^ 35) (hne : v ≠ vpn) :
    ((s.poke tbl (vpnIndex vpn 0) 0).freed f).pageEntry root v = s.pageEntry root v := by
  have hinitial := lowerPath_initial hlt (List.prefix_refl _)
  have hlen := tablePath_length v 3
  have htlen := tablePath_length vpn 3
  have hpage := walk_pagePath hw hedge
  have hplen := pagePath_length vpn 3
  rw [Machine.pageEntry, Machine.pageEntry, walk_uncut h hv hw hedge hinitial (by omega)]
  cases htable : walk s.edge root (tablePath v 3) with
  | none => rfl
  | some table =>
    have hword : ((s.poke tbl (vpnIndex vpn 0) 0).freed f).mem table (vpnIndex v 0) = s.mem table (vpnIndex v 0) := by
      have htf : table ≠ f := by
        rintro rfl
        have := congrArg List.length (h.once _ _ table hinitial (lowerPath_pagePath hv) (by omega) (by omega)
          htable hpage)
        omega
      refine (congrFun (Machine.poke_mem_of_ne htf) _).trans ?_
      by_cases ht : table = tbl
      · subst ht
        have hpath := h.once _ _ table hinitial (lowerPath_initial hv (List.prefix_refl _)) (by omega)
          (by omega) htable hw
        have hi : vpnIndex v 0 ≠ vpnIndex vpn 0 :=
          fun hi => hne (pagePath_inj hlt hv (by rw [pagePath, pagePath, hpath, hi]))
        simp [Machine.poke, hi]
      · exact congrFun (Machine.poke_mem_of_ne ht) _
    rw [Option.bind_some, Option.bind_some, hword]

theorem unmapPage_none {va : Nat} (h : Space s F D p root) (hr : OnRoot s root) (hva : va < 2 ^ 47)
    (hnone : s.pageEntry root (va / FRAME_SIZE) = none) : (unmapPage va).run s = some ((), s) := by
  refine unmapPage_absent (vpnIndex_lt _ 0) (h.leafPte_run hr hva) fun tbl hw hp => ?_
  rw [Machine.pageEntry, hw, Option.bind_some, if_pos hp] at hnone
  cases hnone

theorem framesOf_singleton (hv : vpn < 2 ^ 35) : s.framesOf root {vpn} = {f | ∃ entry, s.pageEntry root vpn =
    some entry ∧ entryPpn entry = f} := by
  ext f
  constructor
  · rintro ⟨v, rfl, -, he⟩
    exact he
  · exact fun he => ⟨vpn, rfl, hv, he⟩

theorem unmapPage_gone {va : Nat} (h : Space s F (s.lowerFrames root) p root) (hr : OnRoot s root) (hva : va < 2 ^ 47) :
    ∃ t F', (unmapPage va).run s = some ((), t) ∧ PagesGone s F p root {va / FRAME_SIZE} t F' := by
  have hv : va / FRAME_SIZE < 2 ^ 35 := by
    simp only [FRAME_SIZE]; omega
  cases he : s.pageEntry root (va / FRAME_SIZE) with
  | none =>
    refine ⟨s, F, unmapPage_none h hr hva he, TornDown.refl h, ?_, fun _ _ _ => rfl, ?_, fun _ _ _ _ _ => rfl,
      fun _ _ _ _ _ hw => ⟨hw, fun _ => rfl⟩⟩
    · rintro v rfl -
      exact he
    · rw [framesOf_singleton hv, he]
      simp
  | some entry =>
    obtain ⟨tbl, hw, hp, rfl⟩ := Machine.pageEntry_some.mp he
    have hedge := edge_of_present (vpnIndex_lt _ 0) hp
    have hpage := Machine.page_mem hv he
    have hm := (h.owned _ (h.pages hpage)).2
    obtain ⟨t, F', hrun, htorn⟩ := unmapPage_tears h hr hva
    have hcut := unmapPage_run h hr hva hw hp hm
    obtain rfl := (Prod.mk.inj (Option.some.inj (hrun.symm.trans hcut))).2
    obtain ⟨htf, -, -, -, hspace⟩ := h.cut hv hw hedge
    have hpath := walk_pagePath hw hedge
    have hplen := fun v => pagePath_length v 3
    refine ⟨_, F', hcut, htorn, ?_, fun v hlt hne => pageEntry_uncut h hv hw hedge hlt hne, ?_,
      fun v entry hlt hne he' => ?_, fun π g i hπ hlen hg => ?_⟩
    · rintro v rfl -
      have hzero : ((s.poke tbl (vpnIndex (va / FRAME_SIZE) 0) 0).freed
          (entryPpn (s.mem tbl (vpnIndex (va / FRAME_SIZE) 0)))).mem tbl (vpnIndex (va / FRAME_SIZE) 0) = 0 := by
        refine (congrFun (Machine.poke_mem_of_ne htf) _).trans ?_
        simp [Machine.poke]
      rw [Machine.pageEntry, walk_uncut h hv hw hedge (lowerPath_initial hv (List.prefix_refl _))
        (by rw [tablePath_length]), hw, Option.bind_some, hzero, if_neg not_present_zero]
    · rw [htorn.space.wf.unique hspace.wf, framesOf_singleton hv, he, Set.insert_eq, Set.union_comm]
      congr 1
      ext f
      simp [eq_comm]
    · have hwalk := pageEntry_walk_path he'
      have hgf : entryPpn entry ≠ entryPpn (s.mem tbl (vpnIndex (va / FRAME_SIZE) 0)) := by
        intro e
        rw [← e] at hpath
        exact hne (pagePath_inj hlt hv (h.once _ _ _ (lowerPath_pagePath hlt) (lowerPath_pagePath hv) (hplen v).le
          (hplen _).le hwalk hpath))
      have hgt : entryPpn entry ≠ tbl := by
        intro e
        rw [← e] at hw
        have := congrArg List.length (h.once _ _ _ (lowerPath_pagePath hlt) (lowerPath_initial hv (List.prefix_refl _))
          (hplen v).le (by rw [tablePath_length]; omega) hwalk hw)
        rw [hplen, tablePath_length] at this
        omega
      exact (Machine.poke_mem_of_ne hgf).trans (Machine.poke_mem_of_ne hgt)
    · rw [walk_uncut h hv hw hedge hπ hlen] at hg
      exact ⟨hg, word_uncut h hv hw hedge hπ hlen hg⟩

/-! ## A range -/

/-- The pages that start in `[start, stop)`. -/
def pagesFrom (start stop : Nat) : Set Nat := {v | start ≤ v * FRAME_SIZE ∧ v * FRAME_SIZE < stop}

theorem pagesFrom_empty {start stop : Nat} (h : stop ≤ start) : pagesFrom start stop = ∅ := by
  refine Set.eq_empty_iff_forall_notMem.mpr ?_
  rintro n ⟨hlo, hhi⟩
  omega

theorem pagesFrom_next {start : Nat} (hstart : start % FRAME_SIZE = 0) (k : Nat) :
    pagesFrom start (start + (k + 1) * FRAME_SIZE) =
      pagesFrom start (start + k * FRAME_SIZE) ∪ {(start + k * FRAME_SIZE) / FRAME_SIZE} := by
  ext v
  simp only [pagesFrom, FRAME_SIZE, Set.mem_union, Set.mem_ofPred_eq, Set.mem_singleton_iff] at *
  omega

theorem unmapRange_gone {start stop : Nat} (h : Space s F (s.lowerFrames root) p root) (hr : OnRoot s root)
    (hstart : start % FRAME_SIZE = 0) (hstop : stop ≤ 2 ^ 47) :
    ∃ t F', (unmapRange start stop).run s = some ((), t) ∧ PagesGone s F p root (pagesFrom start stop) t F' := by
  have hstep : ∀ k, k < pageCount start stop → ∀ u,
    (∃ F', PagesGone s F p root (pagesFrom start (start + k * FRAME_SIZE)) u F') →
      ∃ t, (unmapPage (start + k * FRAME_SIZE)).run u = some ((), t) ∧
        ∃ F', PagesGone s F p root (pagesFrom start (start + (k + 1) * FRAME_SIZE)) t F' := by
    rintro k hk u ⟨F', hu⟩
    have hlt := pageCount_lt hk
    obtain ⟨t, F'', hrun, ht⟩ := unmapPage_gone hu.torn.space (hu.torn.onRoot hr)
      (show start + k * FRAME_SIZE < 2 ^ 47 by omega)
    refine ⟨t, hrun, F'', ?_⟩
    rw [pagesFrom_next hstart]
    exact hu.trans ht
  have hnone : pagesFrom start (start + 0 * FRAME_SIZE) = ∅ := by
    rw [Nat.zero_mul]
    exact pagesFrom_empty (Nat.le_refl start)
  obtain ⟨t, hrun, F', ht⟩ := Prog.forRange_total
    (fun k u => ∃ F', PagesGone s F p root (pagesFrom start (start + k * FRAME_SIZE)) u F') hstep
    ⟨F, by rw [hnone]; exact PagesGone.refl h⟩
  have hall : pagesFrom start (start + pageCount start stop * FRAME_SIZE) = pagesFrom start stop := by
    ext v
    simp only [pagesFrom, pageCount, FRAME_SIZE, Set.mem_ofPred_eq] at *
    omega
  exact ⟨t, F', hrun, by rw [← hall]; exact ht⟩

end

end Kernel
