import Kernel.Vmm.Grow

/-!
# What `set_heap_break` does to the pages

They come and go between the old end of the heap and the new one.
-/

namespace Kernel

open Lib

/-- If the break grows, there are frames for every page that is missing. -/
def brkFrames (new_break : Nat) (s : Machine) : Prop :=
  s.heapStart ≠ 0 → s.heapBreak ≠ 0 → s.heapStart ≤ new_break → new_break < 0x0000800000000000 →
    roundUpPage s.heapBreak < roundUpPage new_break →
    mapRangeFrames true true (roundUpPage s.heapBreak) (roundUpPage new_break - roundUpPage s.heapBreak) s

/-- The target is in the heap, and the heap has been set up. -/
def Machine.mayBreak (s : Machine) (new_break : Nat) : Prop :=
  s.heapStart ≠ 0 ∧ s.heapBreak ≠ 0 ∧ s.heapStart ≤ new_break ∧ new_break < 2 ^ 47

/-- The heap starts on a page, and the break is there or in the lower half. -/
structure HeapFits (s : Machine) : Prop where
  aligned : s.heapStart % FRAME_SIZE = 0
  low : 0x1000 ≤ s.heapStart
  high : s.heapStart < 2 ^ 64
  le : s.heapStart ≤ s.heapBreak
  ok : HeapOk s

/-- The pages between the break of `s` and `new_break` have come or gone. -/
structure BreakMoved (s : Machine) (F : Set Nat) (root new_break : Nat) (t : Machine) (F' : Set Nat) : Prop where
  space : Space t F' (t.lowerFrames root) s.acting root
  regs : t.regs = Machine.regs { s with heapBreak := new_break }
  there : ∀ v ∈ pagesFrom (roundUpPage s.heapBreak) (roundUpPage new_break), v < 2 ^ 35 →
    ∃ entry, t.pageEntry root v = some entry
  gone : ∀ v ∈ pagesFrom (roundUpPage new_break) (roundUpPage s.heapBreak), v < 2 ^ 35 → t.pageEntry root v = none
  kept : ∀ v entry, v < 2 ^ 35 → v ∉ pagesFrom (roundUpPage new_break) (roundUpPage s.heapBreak) →
    s.pageEntry root v = some entry → t.pageEntry root v = some entry ∧ t.mem (entryPpn entry) = s.mem (entryPpn entry)
  others : ∀ v, v < 2 ^ 35 → v ∉ pagesFrom (roundUpPage s.heapBreak) (roundUpPage new_break) →
    s.pageEntry root v = none → t.pageEntry root v = none
  freed : F' \ F = s.framesOf root (pagesFrom (roundUpPage new_break) (roundUpPage s.heapBreak))
  userOpen : UserOpen s root → UserOpen t root

section

variable {s t u : Machine} {F F' D : Set Nat} {root new_break n v : Nat}

theorem roundUpPage_of_le (h : n ≤ 2 ^ 47) : n ≤ roundUpPage n ∧ roundUpPage n < n + FRAME_SIZE := by
  simp only [roundUpPage, add64, FRAME_SIZE]
  omega

theorem roundUpPage_self (h : n % FRAME_SIZE = 0) (hlt : n < 2 ^ 64) : roundUpPage n = n := by
  simp only [roundUpPage, add64, FRAME_SIZE] at *
  omega

theorem HeapOk.break_lt (h : HeapOk s) (hmay : s.mayBreak new_break) : s.heapBreak < 2 ^ 47 := by
  obtain ⟨-, -, hin, hlt⟩ := hmay
  rcases h with heq | hbreak
  · omega
  · exact hbreak

theorem HeapFits.mayBreak_iff (h : HeapFits s) :
    s.mayBreak new_break ↔ s.heapStart ≤ new_break ∧ new_break < 2 ^ 47 := by
  have hlow := h.low
  have hle := h.le
  unfold Machine.mayBreak
  omega

theorem PagesGrown.moves
    (h : PagesGrown s F root (pagesFrom (roundUpPage s.heapBreak) (roundUpPage new_break)) u F')
    (hle : roundUpPage s.heapBreak ≤ roundUpPage new_break) :
    BreakMoved s F root new_break { u with heapBreak := new_break } F' where
  space := h.space.congr rfl rfl rfl rfl rfl
  regs := congrArg (fun r : Machine => { r with heapBreak := new_break }) h.regs
  there := h.there
  gone v hv := by
    rw [pagesFrom_empty hle] at hv
    exact absurd hv (Set.notMem_empty v)
  kept v entry hlt _ he := h.kept v entry hlt he
  others v hlt hv hnone := (h.others v hlt hv).trans hnone
  freed := by
    rw [pagesFrom_empty hle, framesOf_empty]
    exact Set.sdiff_eq_empty.mpr h.sub
  userOpen := h.userOpen

theorem PagesGone.moves (h : Space s F (s.lowerFrames root) s.acting root)
    (hgone : PagesGone s F s.acting root (pagesFrom (roundUpPage new_break) (roundUpPage s.heapBreak)) u F')
    (hregs : u.regs = s.regs) (hle : roundUpPage new_break ≤ roundUpPage s.heapBreak) :
    BreakMoved s F root new_break { u with heapBreak := new_break } F' where
  space := hgone.torn.space.congr rfl rfl rfl rfl rfl
  regs := congrArg (fun r : Machine => { r with heapBreak := new_break }) hregs
  there v hv := by
    rw [pagesFrom_empty hle] at hv
    exact absurd hv (Set.notMem_empty v)
  gone := hgone.gone
  kept v entry hlt hv he := ⟨(hgone.kept v hlt hv).trans he, hgone.words v entry hlt hv he⟩
  others v hlt _ hnone := by
    by_cases hv : v ∈ pagesFrom (roundUpPage new_break) (roundUpPage s.heapBreak)
    · exact hgone.gone v hv hlt
    · exact (hgone.kept v hlt hv).trans hnone
  freed := by
    rw [hgone.freed, Set.union_sdiff_left]
    refine Disjoint.sdiff_eq_left ?_
    rw [Set.disjoint_left]
    exact fun f hf hfree => (h.owned f (h.pages (framesOf_lower hf))).1 hfree
  userOpen ho := by
    have := ho.gone hgone
    exact this

theorem set_heap_break_refused (h : ¬ s.mayBreak new_break) : (set_heap_break new_break).run s = some (-1, s) := by
  unfold set_heap_break
  rw [Prog.get_bind_run]
  split_ifs with hset hin
  · rfl
  · rfl
  · exact absurd ⟨by omega, by omega, by omega, by omega⟩ h

theorem set_heap_break_moves (h : Space s F (s.lowerFrames root) s.acting root) (hr : OnRoot s root) (hok : HeapOk s)
    (hmay : s.mayBreak new_break) (hclean : brkClean new_break s) (hframes : brkFrames new_break s) :
    ∃ t F', (set_heap_break new_break).run s = some (0, t) ∧ BreakMoved s F root new_break t F' := by
  have hold := hok.break_lt hmay
  obtain ⟨hstart, hbreak, hin, hlt⟩ := hmay
  have hend := roundUpPage_le hlt
  have hend' := roundUpPage_le hold
  have haligned := roundUpPage_aligned s.heapBreak
  have hva : roundUpPage s.heapBreak < roundUpPage new_break → canonical (roundUpPage s.heapBreak) :=
    fun hgrow => Or.inl (by omega)
  unfold set_heap_break
  rw [Prog.get_bind_run, if_neg (by omega), if_neg (by omega)]
  by_cases hgrow : roundUpPage new_break > roundUpPage s.heapBreak
  · obtain ⟨u, F', hrun, hgrown⟩ := map_range_grows h hr haligned
      (show roundUpPage new_break - roundUpPage s.heapBreak ≠ 0 by omega) (by omega)
      (hclean hstart hbreak hin hlt hgrow) (hframes hstart hbreak hin hlt hgrow)
    rw [show roundUpPage s.heapBreak + (roundUpPage new_break - roundUpPage s.heapBreak) =
      roundUpPage new_break by omega] at hgrown
    refine ⟨_, F', ?_, hgrown.moves (by omega)⟩
    dsimp only
    rw [if_pos hgrow, VA, bind_assoc, Prog.assert_bind_run (hva hgrow), pure_bind, Prog.bind_run hrun]
    rfl
  · by_cases hshrink : roundUpPage new_break < roundUpPage s.heapBreak
    · obtain ⟨u, F', hrun, hgone⟩ := unmapRange_gone h hr (roundUpPage_aligned new_break) hend'
      obtain ⟨_, _, -, hevolves⟩ := unmapRange_spec h hr hend' hrun
      refine ⟨_, F', ?_, hgone.moves h hevolves.regs (by omega)⟩
      dsimp only
      rw [if_neg hgrow, if_pos hshrink, Prog.bind_run hrun]
      rfl
    · have hsame : roundUpPage s.heapBreak = roundUpPage new_break := by omega
      have hgrown := PagesGrown.refl h
      rw [← pagesFrom_empty hsame.ge] at hgrown
      refine ⟨_, F, ?_, hgrown.moves hsame.le⟩
      dsimp only
      rw [if_neg hgrow, if_neg hshrink]
      rfl

/-! ## What a move is for one page -/

theorem BreakMoved.start (h : BreakMoved s F root new_break t F') :
    t.heapStart = s.heapStart ∧ t.heapBreak = new_break := by
  have hstart := congrArg Machine.heapStart h.regs
  have hbreak := congrArg Machine.heapBreak h.regs
  exact ⟨hstart, hbreak⟩

theorem BreakMoved.acting (h : BreakMoved s F root new_break t F') : t.acting = s.acting := by
  have := congrArg Machine.acting h.regs
  exact this

theorem BreakMoved.onRoot (h : BreakMoved s F root new_break t F') (hr : OnRoot s root) :
    OnRoot t root := by
  have := congrArg Machine.cr3 h.regs
  exact this.trans hr

theorem BreakMoved.freed_iff {entry : Word} (hs : Space s F D s.acting root)
    (h : BreakMoved s F root new_break t F') (hv : v < 2 ^ 35) (he : s.pageEntry root v = some entry) :
    entryPpn entry ∈ F' \ F ↔ v ∈ pagesFrom (roundUpPage new_break) (roundUpPage s.heapBreak) := by
  rw [h.freed]
  constructor
  · rintro ⟨w, hw, hlt, entry', he', hf⟩
    rwa [hs.frames_inj hlt hv he' he hf] at hw
  · exact fun hp => ⟨v, hp, hv, entry, he, rfl⟩

end

end Kernel
