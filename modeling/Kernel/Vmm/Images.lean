import Kernel.Vmm.Break

/-!
# What an operation does to the bytes of its process

An image is what a process can read in its lower half. An operation adds pages,
takes pages away or writes a word, and the images of the others stay.
-/

namespace Kernel

open Lib

/-- The bytes of the lower half. -/
def Machine.image (s : Machine) (root : Nat) : Image := fun a => if a < 2 ^ 47 then s.userByte root a else none

/-- From `M` to `M'` there are bytes in all of `P`, and no byte of `M` changed. -/
structure Grown (M M' : Image) (P : Nat → Prop) : Prop where
  kept : ∀ a b, M a = some b → M' a = some b
  there : ∀ a, P a → (M' a).isSome
  others : ∀ a, ¬ P a → M' a = M a

/-- The bytes outside of `P`. -/
def Image.without (M : Image) (P : Nat → Prop) [DecidablePred P] : Image := fun a => if P a then none else M a

/-- The bytes with word `w` at word `j` of page `vpn`, if that page is there. -/
def Image.write (M : Image) (vpn j : Nat) (w : Word) : Image := fun a =>
  if a / FRAME_SIZE = vpn ∧ a % FRAME_SIZE / 8 = j then (M a).map fun _ => wordByte w (a % 8) else M a

section

variable {M M' M'' : Image} {P Q : Nat → Prop}

theorem Grown.refl (M : Image) : Grown M M fun _ => False :=
  ⟨fun _ _ h => h, fun _ h => h.elim, fun _ _ => rfl⟩

theorem Grown.trans (h : Grown M M' P) (h' : Grown M' M'' Q) : Grown M M'' fun a => P a ∨ Q a where
  kept a b hb := h'.kept a b (h.kept a b hb)
  there a ha := by
    rcases ha with hP | hQ
    · obtain ⟨b, hb⟩ := Option.isSome_iff_exists.mp (h.there a hP)
      rw [h'.kept a b hb]
      rfl
    · exact h'.there a hQ
  others a ha := by
    rw [h'.others a fun hQ => ha (Or.inr hQ), h.others a fun hP => ha (Or.inl hP)]

theorem Grown.congr (h : Grown M M' P) (hPQ : ∀ a, P a ↔ Q a) : Grown M M' Q where
  kept := h.kept
  there a ha := h.there a ((hPQ a).mpr ha)
  others a ha := h.others a fun hP => ha ((hPQ a).mp hP)

end

section

variable {s t u w : Machine} {F F' D : Set Nat} {p root va start stop size f new_break a vpn : Nat} {user write : Bool}

theorem image_low (ha : a < 2 ^ 47) : s.image root a = s.userByte root a := if_pos ha

theorem image_high (ha : ¬ a < 2 ^ 47) : s.image root a = none := if_neg ha

theorem page_low (ha : a < 2 ^ 47) : a / FRAME_SIZE < 2 ^ 35 := by
  simp only [FRAME_SIZE]; omega

theorem image_congr (htables : ∀ g ∈ s.lowerTables root, t.mem g = s.mem g)
    (hpages : ∀ g ∈ s.lowerPages root, t.mem g = s.mem g) : t.image root = s.image root := by
  funext a
  unfold Machine.image
  split_ifs with ha
  · unfold Machine.userByte
    rw [pageEntry_congr (page_low ha) htables]
    cases he : s.pageEntry root (a / FRAME_SIZE) with
    | none => rfl
    | some entry =>
      rw [Option.map_some, Option.map_some]
      unfold Machine.frameByte
      rw [hpages _ (Machine.page_mem (page_low ha) he)]
  · rfl

theorem Space.image_congr (h : Space s F D p root) (hmem : ∀ g ∈ D, t.mem g = s.mem g) : t.image root = s.image root :=
  Kernel.image_congr (fun g hg => hmem g (h.tables hg)) fun g hg => hmem g (h.pages hg)

/-! ## Pages that come -/

theorem PageAdded.image {flags : Word} (h : PageAdded s F D root (va / FRAME_SIZE) f flags w t F')
    (hf : flags &&& addressMask = 0) (hva : va < 2 ^ 47) :
    t.image root = fun a =>
      if a / FRAME_SIZE = va / FRAME_SIZE then some (w.frameByte f (a % FRAME_SIZE)) else s.image root a := by
  funext a
  by_cases ha : a < 2 ^ 47
  · rw [image_low ha, image_low ha, h.userByte hf ha]
  · rw [image_high ha, image_high ha, if_neg]
    simp only [FRAME_SIZE]
    omega

theorem PageAdded.grown {flags : Word} (h : PageAdded s F D root (va / FRAME_SIZE) f flags w t F')
    (hf : flags &&& addressMask = 0) (hva : va < 2 ^ 47) (hnone : s.pageEntry root (va / FRAME_SIZE) = none) :
    Grown (s.image root) (t.image root) fun a => a / FRAME_SIZE = va / FRAME_SIZE := by
  rw [h.image hf hva]
  refine ⟨fun a b hb => ?_, fun a ha => by simp only [if_pos ha, Option.isSome_some], fun a ha => if_neg ha⟩
  rw [if_neg fun hpage => ?_]
  · exact hb
  · have hbyte : s.userByte root a = none := userByte_none (by rw [hpage]; exact hnone)
    unfold Machine.image at hb
    rw [hbyte, ite_self] at hb
    cases hb

theorem mapPage_grown (h : Space s F D s.acting root) (hr : OnRoot s root) (hva : va < 2 ^ 47) (hclean : pageClean va s)
    (hrun : (mapPage user write va).run s = some ((), t)) :
    Grown (s.image root) (t.image root) fun a => a / FRAME_SIZE = va / FRAME_SIZE := by
  cases he : s.pageEntry root (va / FRAME_SIZE) with
  | some entry =>
    rw [mapPage_some h hr hva he, Option.some.injEq, Prod.mk.injEq] at hrun
    obtain ⟨-, rfl⟩ := hrun
    refine ⟨fun _ _ hb => hb, fun a ha => ?_, fun _ _ => rfl⟩
    have hlow : a < 2 ^ 47 := by
      simp only [FRAME_SIZE] at ha
      omega
    rw [image_low hlow, Machine.userByte, ha, he]
    rfl
  | none =>
    obtain ⟨f, u, F', -, hadded⟩ := mapPage_adds h hr hva hclean he hrun
    exact hadded.grown (leafFlags_masked user write) hva he

/-- After `k` turns of the loop over the pages from `first` on. -/
structure GrownSoFar (s : Machine) (F D : Set Nat) (root first k : Nat) (u : Machine) : Prop where
  space : ∃ F' D', Space u F' D' s.acting root ∧ Evolves s F D u F' D'
  grown : Grown (s.image root) (u.image root) fun a => first ≤ a / FRAME_SIZE ∧ a / FRAME_SIZE < first + k

theorem map_range_grown (h : Space s F D s.acting root) (hr : OnRoot s root) (hend : start + size ≤ 2 ^ 47)
    (hclean : mapRangeClean user write start size s) (hrun : (map_range start size user write).run s = some ((), t)) :
    Grown (s.image root) (t.image root) (touches start size) := by
  have hnone : ∀ first, Grown (s.image root) (s.image root) fun a => first ≤ a / FRAME_SIZE ∧
    a / FRAME_SIZE < first + 0 :=
    fun first => (Grown.refl _).congr fun a => ⟨False.elim, fun ha => by omega⟩
  by_cases hsize : size = 0
  · rw [map_range, if_pos hsize, Prog.run_pure] at hrun
    obtain ⟨-, rfl⟩ := hrun
    exact (Grown.refl _).congr fun a => ⟨False.elim, fun ha => ha.1 hsize⟩
  have hcount : pageCount (start / FRAME_SIZE * FRAME_SIZE) (mapEnd start size) = pagesOf start size := by
    rw [pageCount_mapEnd hsize hend, pagesOf, if_neg hsize]
  rw [mapRangeClean, rangeClean, hcount] at hclean
  rw [map_range_eq user write hsize hend] at hrun
  have hloop := Prog.forRange_inv_turns (fun k u => GrownSoFar s F D root (start / FRAME_SIZE) k u) ?_
    ⟨⟨F, D, h, Evolves.refl s F D⟩, hnone _⟩ hrun
  · refine hloop.grown.congr fun a => ?_
    unfold touches pagesOf
    rw [if_neg hsize]
    omega
  · intro k hk u v hu hturns hstep
    obtain ⟨F₁, D₁, hspace, he⟩ := hu.space
    have hact := Machine.regs_acting he.regs
    rw [← hact] at hspace
    have hru := hr.congr he.regs
    have hlt := page_lt hend hk
    have hpage : (start / FRAME_SIZE * FRAME_SIZE + k * FRAME_SIZE) / FRAME_SIZE = start / FRAME_SIZE + k := by
      simp only [FRAME_SIZE]
      omega
    obtain ⟨F₂, D₂, hv, he'⟩ := mapPage_spec hspace hru hlt (hclean k hk u hturns) hstep
    have hgrown := mapPage_grown hspace hru hlt (hclean k hk u hturns) hstep
    rw [hact] at hv
    refine ⟨⟨F₂, D₂, hv, he.trans he'⟩, (hu.grown.trans hgrown).congr fun a => ?_⟩
    rw [hpage]
    omega

/-! ## Pages that go -/

theorem PagesGone.image {P : Set Nat} [DecidablePred (· ∈ P)] (h : PagesGone s F p root P t F') :
    t.image root = (s.image root).without fun a => a / FRAME_SIZE ∈ P := by
  funext a
  unfold Image.without
  by_cases ha : a < 2 ^ 47
  · have hv := page_low ha
    rw [image_low ha, image_low ha]
    split_ifs with hP
    · exact userByte_none (h.gone _ hP hv)
    · unfold Machine.userByte
      rw [h.kept _ hv hP]
      cases he : s.pageEntry root (a / FRAME_SIZE) with
      | none => rfl
      | some entry =>
        rw [Option.map_some, Option.map_some]
        unfold Machine.frameByte
        rw [h.words _ entry hv hP he]
  · rw [image_high ha, image_high ha, ite_self]

theorem unmapRange_image (h : Space s F D s.acting root) (hr : OnRoot s root)
    (haligned : start % FRAME_SIZE = 0 ∧ stop % FRAME_SIZE = 0) (hstop : stop ≤ 2 ^ 47)
    (hrun : (unmapRange start stop).run s = some ((), t)) :
    t.image root = (s.image root).without fun a => start ≤ a ∧ a < stop := by
  classical
  obtain ⟨t', F', hrun', hgone⟩ := unmapRange_gone h.shrink hr haligned.1 hstop
  rw [hrun, Option.some.injEq, Prod.mk.injEq] at hrun'
  obtain ⟨-, rfl⟩ := hrun'
  rw [hgone.image]
  funext a
  have hiff : a / FRAME_SIZE ∈ pagesFrom start stop ↔ start ≤ a ∧ a < stop := by
    simp only [pagesFrom, Set.mem_ofPred_eq, FRAME_SIZE] at *
    omega
  unfold Image.without
  simp only [hiff]

/-! ## The break -/

/-- Between the old end and the new one pages came or went. -/
def Moved (M : Image) (old_end new_end : Nat) (M' : Image) : Prop :=
  if old_end ≤ new_end then Grown M M' fun a => old_end ≤ a ∧ a < new_end
  else M' = M.without fun a => new_end ≤ a ∧ a < old_end

theorem set_heap_break_image {r : Int} (h : Space s F D s.acting root) (hr : OnRoot s root) (hheap : HeapOk s)
    (hclean : brkClean new_break s) (hmay : s.mayBreak new_break)
    (hrun : (set_heap_break new_break).run s = some (r, t)) :
    r = 0 ∧ t.heapBreak = new_break ∧ t.heapStart = s.heapStart ∧
      Moved (s.image root) (roundUpPage s.heapBreak) (roundUpPage new_break) (t.image root) := by
  have hold := hheap.break_lt hmay
  obtain ⟨hstart, hbreak, hin, hlt⟩ := hmay
  have hend := roundUpPage_le hlt
  have hend' := roundUpPage_le hold
  have haligned := roundUpPage_aligned s.heapBreak
  have haligned' := roundUpPage_aligned new_break
  unfold set_heap_break at hrun
  rw [Prog.get_bind_run, if_neg (by omega), if_neg (by omega)] at hrun
  dsimp only at hrun
  by_cases hgrow : roundUpPage new_break > roundUpPage s.heapBreak
  · have hcanonical : canonical (roundUpPage s.heapBreak) := Or.inl (by omega)
    rw [if_pos hgrow, VA, bind_assoc, Prog.assert_bind_run hcanonical, pure_bind] at hrun
    obtain ⟨_, u, hpages, hrun⟩ := Prog.run_bind.mp hrun
    rw [Prog.modify_bind_run, Prog.run_pure] at hrun
    obtain ⟨rfl, rfl⟩ := hrun
    have hmap := hclean hstart hbreak hin hlt hgrow
    have hgrown := map_range_grown h hr (by omega) hmap hpages
    obtain ⟨_, _, -, he⟩ := map_range_spec h hr (by omega) hmap hpages
    have hregs := congrArg Machine.heapStart he.regs
    refine ⟨rfl, rfl, hregs, ?_⟩
    rw [Moved, if_pos (by omega)]
    refine Grown.congr (P := touches (roundUpPage s.heapBreak) (roundUpPage new_break - roundUpPage s.heapBreak))
      hgrown fun a => ?_
    simp only [touches, FRAME_SIZE] at *
    omega
  rw [if_neg hgrow] at hrun
  by_cases hshrink : roundUpPage new_break < roundUpPage s.heapBreak
  · rw [if_pos hshrink] at hrun
    obtain ⟨_, u, hpages, hrun⟩ := Prog.run_bind.mp hrun
    rw [Prog.modify_bind_run, Prog.run_pure] at hrun
    obtain ⟨rfl, rfl⟩ := hrun
    obtain ⟨_, _, -, he⟩ := unmapRange_spec h hr hend' hpages
    have hregs := congrArg Machine.heapStart he.regs
    refine ⟨rfl, rfl, hregs, ?_⟩
    have himage := unmapRange_image h hr ⟨haligned', haligned⟩ hend' hpages
    rw [Moved, if_neg (by omega)]
    exact himage
  · rw [if_neg hshrink, Prog.modify_bind_run, Prog.run_pure] at hrun
    obtain ⟨rfl, rfl⟩ := hrun
    refine ⟨rfl, rfl, rfl, ?_⟩
    rw [Moved, if_pos (by omega)]
    exact (Grown.refl _).congr fun a => ⟨False.elim, fun ha => by omega⟩

/-! ## A store -/

theorem userStore_image (h : Space s F D p root) (hv : vpn < 2 ^ 35) (j : Nat) (v : Word) :
    (s.userStore root vpn j v).image root = (s.image root).write vpn j v := by
  have htables : ∀ g ∈ s.lowerTables root, (s.userStore root vpn j v).mem g = s.mem g := by
    intro g hg
    refine userStore_other hv fun hpage => ?_
    obtain ⟨π, hπ, hlen, hw⟩ := hpage
    obtain ⟨ρ, hρ, hlen', hw'⟩ := hg
    have := congrArg List.length (h.forest.paths_inj hπ hρ (by omega) (by omega) hw hw')
    omega
  funext a
  unfold Image.write
  by_cases ha : a < 2 ^ 47
  · have hva := page_low ha
    rw [image_low ha, image_low ha, Machine.userByte, Machine.userByte, pageEntry_congr hva htables]
    cases he : s.pageEntry root (a / FRAME_SIZE) with
    | none => simp
    | some entry =>
      have hoff : a % FRAME_SIZE % 8 = a % 8 := by
        simp only [FRAME_SIZE]
        omega
      simp only [Option.map_some, Machine.frameByte, hoff]
      unfold Machine.userStore
      cases he' : s.pageEntry root vpn with
      | none =>
        rw [if_neg]
        rintro ⟨hpage, -⟩
        rw [hpage, he'] at he
        cases he
      | some entry' =>
        dsimp only [Machine.poke]
        by_cases hat : a / FRAME_SIZE = vpn ∧ a % FRAME_SIZE / 8 = j
        · obtain ⟨hpage, hword⟩ := hat
          rw [hpage, he', Option.some.injEq] at he
          rw [if_pos ⟨congrArg entryPpn he.symm, hword⟩, if_pos ⟨hpage, hword⟩]
        · rw [if_neg hat, if_neg fun hsame => hat ⟨?_, hsame.2⟩]
          exact h.frames_inj hva hv he he' hsame.1
  · rw [image_high ha, image_high ha]
    simp

/-! ## A fork -/

theorem RootCopy.image {child : Nat} {G : Set Nat} (h : RootCopy s F root child t G) :
    t.image child = s.image root := by
  funext a
  by_cases ha : a < 2 ^ 47
  · rw [image_low ha, image_low ha, Machine.userByte, Machine.userByte]
    obtain ⟨hnone, hsome⟩ := h.page (page_low ha)
    cases he : s.pageEntry root (a / FRAME_SIZE) with
    | none => rw [hnone he]; rfl
    | some entry =>
      obtain ⟨c, hc, hentry, hwords⟩ := hsome entry he
      rw [hentry, Option.map_some, Option.map_some, entryPpn_mkEntry hc (flags_masked entry)]
      unfold Machine.frameByte
      rw [hwords _ (by simp only [FRAME_SIZE]; omega)]
  · rw [image_high ha, image_high ha]

end

end Kernel
