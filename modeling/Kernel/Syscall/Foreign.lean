import Kernel.Syscall.Brk

/-!
# Pages that `brk` has not mapped

Growing skips the pages that are there. Shrinking takes every page that is there,
whoever mapped it.
-/

namespace Kernel

open Lib

/-- Every page of `a` that is not `brk`'s is in `b`, on the same frame and with the same words. -/
def ForeignKept (root : Nat) (a b : Machine × Books) : Prop :=
  ∀ v entry, v < 2 ^ 35 → a.1.pageEntry root v = some entry → ¬ a.2.owns v →
    b.1.pageEntry root v = some entry ∧ b.1.mem (entryPpn entry) = a.1.mem (entryPpn entry)

/-- Between the end that the target asks for and the end of the heap, every page that is there is `brk`'s. -/
def BrkApart (root : Nat) (s : Machine × Books) (target : Nat) : Prop :=
  s.1.mayBreak target → ∀ v ∈ pagesFrom (roundUpPage target) (roundUpPage s.1.heapBreak), v < 2 ^ 35 →
    ∀ entry, s.1.pageEntry root v = some entry → s.2.owns v

/-- The address space is in order, and the process runs on it. -/
structure SpaceOn (root : Nat) (s : Machine) : Prop where
  space : ∃ F, Space s F (s.lowerFrames root) s.acting root
  onRoot : OnRoot s root
  heap : HeapOk s

/-- What is foreign stays foreign. -/
def StillForeign (root : Nat) (a b : Machine × Books) : Prop :=
  ∀ v entry, v < 2 ^ 35 → a.1.pageEntry root v = some entry → ¬ a.2.owns v → ¬ b.2.owns v

section

variable {s t u : Machine} {F F' D : Set Nat} {B C : Books} {a b c : Machine × Books} {root rdi r v new_break : Nat}

theorem ForeignKept.trans (h : ForeignKept root a b) (hstill : StillForeign root a b) (h' : ForeignKept root b c) :
    ForeignKept root a c := by
  intro v entry hv he hnot
  obtain ⟨he', hmem⟩ := h v entry hv he hnot
  obtain ⟨he'', hmem'⟩ := h' v entry hv he' (hstill v entry hv he hnot)
  exact ⟨he'', hmem'.trans hmem⟩

/-! ## One call -/

theorem BreakMoved.foreign (h : BreakMoved s F root new_break t F') (hs : Space s F D s.acting root)
    (hapart : BrkApart root (s, B) new_break) (hmay : s.mayBreak new_break) :
    ForeignKept root (s, B) (t, B.next root s t) ∧ StillForeign root (s, B) (t, B.next root s t) := by
  have hout : ∀ v entry, v < 2 ^ 35 → s.pageEntry root v = some entry → ¬ B.owns v →
      v ∉ pagesFrom (roundUpPage new_break) (roundUpPage s.heapBreak) :=
    fun v entry hv he hnot hp => hnot (hapart hmay v hp hv entry he)
  refine ⟨fun v entry hv he hnot => h.kept v entry hv (hout v entry hv he hnot) he, fun v entry hv he hnot => ?_⟩
  have hf : entryPpn entry ∉ F' \ F := fun hf => hout v entry hv he hnot ((h.freed_iff hs hv he).mp hf)
  obtain ⟨htaken, hfreed⟩ := Books.next_kept (B := B) hs.wf h.space.wf he hf
  unfold Books.owns at hnot ⊢
  rw [htaken, hfreed]
  exact hnot

theorem BreakMoved.apart (h : BreakMoved s F root new_break t F')
    (hkept : ForeignKept root (s, B) (t, B.next root s t)) : BrkApart root (s, B) new_break := by
  intro _ v hp hv entry he
  by_contra hnot
  have := (hkept v entry hv he hnot).1
  rw [h.gone v hp hv] at this
  cases this

theorem SpaceOn.moved (h : SpaceOn root s) (hm : BreakMoved s F root new_break t F') (hmay : s.mayBreak new_break) :
    SpaceOn root t := by
  refine ⟨⟨F', by rw [hm.acting]; exact hm.space⟩, hm.onRoot h.onRoot, Or.inr ?_⟩
  rw [hm.start.2]
  exact hmay.2.2.2

theorem SpaceOn.call (h : SpaceOn root s) (B : Books) (hclean : brkClean rdi s) (hframes : brkFrames rdi s) :
    ∃ r t, (sys_brk rdi).run s = some (r, t) ∧ SpaceOn root t ∧
      (ForeignKept root (s, B) (t, B.next root s t) ↔ BrkApart root (s, B) rdi) ∧
      (BrkApart root (s, B) rdi → StillForeign root (s, B) (t, B.next root s t)) := by
  obtain ⟨F, hs⟩ := h.space
  by_cases hmay : s.mayBreak rdi
  · obtain ⟨t, F', hrun, hm⟩ := set_heap_break_moves hs h.onRoot h.heap hmay hclean hframes
    exact ⟨rdi, t, sys_brk_served hmay hrun, h.moved hm hmay, ⟨hm.apart, fun hapart => (hm.foreign hs hapart hmay).1⟩,
      fun hapart => (hm.foreign hs hapart hmay).2⟩
  · refine ⟨s.heapBreak, s, sys_brk_refused hmay, h, ⟨fun _ hmay' => absurd hmay' hmay, fun _ => ?_⟩, fun _ => ?_⟩
    · exact fun v entry hv he _ => ⟨he, rfl⟩
    · rw [Books.next_self hs.wf]
      exact fun v entry hv he hnot => hnot

/-! ## Runs -/

/-- The frames last, and no foreign page is behind the new end. -/
def BrkReadyApart (root : Nat) (s : Machine × Books) (call : Nat × Nat) : Prop :=
  BrkReady s call ∧ BrkApart root s call.1

theorem foreign_run {calls : List (Nat × Nat)} (h : SpaceOn root a.1)
    (hrun : (brkSystem root).GuardedRun (BrkReadyApart root) a calls b) :
    SpaceOn root b.1 ∧ ForeignKept root a b ∧ StillForeign root a b := by
  refine hrun.preserves (I := fun b => SpaceOn root b.1 ∧ ForeignKept root a b ∧ StillForeign root a b) ?_
    ⟨h, fun v entry _ he _ => ⟨he, rfl⟩, fun v entry _ _ hnot => hnot⟩
  rintro ⟨s, B⟩ call ⟨t, C⟩ ⟨hs, hkept, hstill⟩ ⟨hready, hapart⟩ ⟨hcall, hbooks⟩
  obtain ⟨r, t', hcall', ht, hiff, hstill'⟩ := hs.call B hready.1 hready.2
  rw [hcall', Option.some.injEq, Prod.mk.injEq] at hcall
  obtain ⟨-, rfl⟩ := hcall
  obtain rfl : C = B.next root s t' := hbooks
  refine ⟨ht, hkept.trans hstill (hiff.mpr hapart), fun v entry hv he hnot => ?_⟩
  exact hstill' hapart v entry hv (hkept v entry hv he hnot).1 (hstill v entry hv he hnot)

/-- **Foreign pages.** While no call takes the end of the heap below a page that is not `brk`'s, all such pages stay on
their frames with their words. The first call that does takes it away. -/
theorem foreign_kept_iff {calls : List (Nat × Nat)} (h : Space s F D s.acting root) (hr : OnRoot s root)
    (hok : HeapOk s) (hrun : (brkSystem root).GuardedRun (BrkReadyApart root) (s, B) calls (u, C)) :
    ForeignKept root (s, B) (u, C) ∧ ∀ rdi, brkClean rdi u → brkFrames rdi u → ∃ r t,
      (sys_brk rdi).run u = some (r, t) ∧
      (ForeignKept root (u, C) (t, C.next root u t) ↔ BrkApart root (u, C) rdi) := by
  obtain ⟨hu, hkept, -⟩ := foreign_run ⟨⟨F, h.shrink⟩, hr, hok⟩ hrun
  refine ⟨hkept, fun rdi hclean hframes => ?_⟩
  obtain ⟨r, t, hcall, -, hiff, -⟩ := hu.call C hclean hframes
  exact ⟨r, t, hcall, hiff⟩

/-! ## A heap that grows and shrinks -/

theorem onePageHeap_none {b : Nat} (h : v ∈ pagesFrom (2 ^ 39) (2 ^ 39 + 0x1000)) :
    (onePageHeap b).pageEntry 100 v = none := by
  obtain ⟨hlo, hhi⟩ := h
  have hindex : vpnIndex v 3 = 1 := by
    simp only [FRAME_SIZE, vpnIndex] at *
    omega
  have hedge : (onePageHeap b).edge 100 1 = none := (onePage_edge 100 1).trans (if_neg (by omega))
  rw [Machine.pageEntry, tablePath, hindex, walk_cons, hedge]
  rfl

theorem onePage_foreign : ∃ u C, (brkSystem 100).GuardedRun (BrkReadyApart 100) (onePageHeap (2 ^ 39), Books.empty)
    [(2 ^ 39 + 1, 2 ^ 39 + 1), (2 ^ 39, 2 ^ 39)] (u, C) ∧ ForeignKept 100 (onePageHeap (2 ^ 39), Books.empty) (u, C) ∧
    ∀ rdi, brkClean rdi u → brkFrames rdi u → ∃ r t, (sys_brk rdi).run u = some (r, t) ∧
      (ForeignKept 100 (u, C) (t, C.next 100 u t) ↔ BrkApart 100 (u, C) rdi) := by
  have hup : roundUpPage (2 ^ 39) = 2 ^ 39 := roundUpPage_self (by unfold FRAME_SIZE; omega) (by omega)
  have hup' : roundUpPage (2 ^ 39 + 1) = 2 ^ 39 + 0x1000 := by
    unfold roundUpPage add64 FRAME_SIZE
    omega
  have hready := onePageHeap_ready
  have hmay : (onePageHeap (2 ^ 39)).mayBreak (2 ^ 39 + 1) := by
    simp only [Machine.mayBreak, onePageHeap]
    omega
  have hspace := (onePageHeap_space (2 ^ 39)).shrink
  obtain ⟨t, F', hrun, hm⟩ := set_heap_break_moves hspace onePage_onRoot (Or.inl rfl) hmay hready.1 hready.2
  obtain ⟨hstart, hbreak⟩ := hm.start
  have hgrow : BrkReadyApart 100 (onePageHeap (2 ^ 39), Books.empty) (2 ^ 39 + 1, 2 ^ 39 + 1) := by
    refine ⟨hready, fun _ v hv => ?_⟩
    rw [pagesFrom_empty (by rw [hup', show (onePageHeap (2 ^ 39)).heapBreak = 2 ^ 39 from rfl, hup]; omega)] at hv
    exact absurd hv (Set.notMem_empty v)
  have hshrink : BrkReadyApart 100 (t, Books.empty.next 100 (onePageHeap (2 ^ 39)) t) (2 ^ 39, 2 ^ 39) := by
    refine ⟨brkReady_of_le (by rw [hbreak, hup, hup']; omega), fun _ v hv hlt entry he => ?_⟩
    -- The page that goes was not there before the heap grew.
    have hnone : (onePageHeap (2 ^ 39)).pageEntry 100 v = none := by
      rw [hup, hbreak, hup'] at hv
      exact onePageHeap_none hv
    obtain ⟨hfreed, -, htaken⟩ := Books.next_absent (B := Books.empty) (t := t) hnone
    show (Books.empty.next _ _ _).freed v < (Books.empty.next _ _ _).taken v
    rw [hfreed, htaken (by rw [he]; exact Option.some_ne_none _)]
    exact Nat.lt_succ_self _
  have hmay' : t.mayBreak (2 ^ 39) := by
    have hheap : t.heapStart = 2 ^ 39 := hstart
    unfold Machine.mayBreak
    omega
  obtain ⟨u, F₁, hrun', -⟩ := set_heap_break_moves (by rw [hm.acting]; exact hm.space) (hm.onRoot onePage_onRoot)
    (Or.inr (by omega)) hmay' hshrink.1.1 hshrink.1.2
  have hguarded := ((System.GuardedRun.nil (onePageHeap (2 ^ 39), Books.empty)).snoc hgrow
    (brk_step (sys_brk_served hmay hrun))).snoc hshrink (brk_step (sys_brk_served hmay' hrun'))
  exact ⟨_, _, hguarded, foreign_kept_iff hspace onePage_onRoot (Or.inl rfl) hguarded⟩

/-! ## A heap that starts where the stack does -/

theorem brkReady_of_there (hr : OnRoot s 100) (hbreak : s.heapBreak = 0x7fffffe0000)
    (hthere : s.pageEntry 100 0x7fffffe0 ≠ none) : BrkReady (s, B) (0x7fffffe0001, 0x7fffffe0001) := by
  have haligned : 0x7fffffe0000 % FRAME_SIZE = 0 := by
    rw [FRAME_SIZE]
  have hup : roundUpPage 0x7fffffe0000 = 0x7fffffe0000 := roundUpPage_self haligned (by omega)
  have hup' : roundUpPage 0x7fffffe0001 = 0x7fffffe1000 := by
    unfold roundUpPage add64 FRAME_SIZE
    omega
  have hturn : ∀ k w, k < pageCount (0x7fffffe0000 / FRAME_SIZE * FRAME_SIZE) (mapEnd 0x7fffffe0000 0x1000) →
      (Prog.forRange k fun k => mapPage true true (0x7fffffe0000 / FRAME_SIZE * FRAME_SIZE + k * FRAME_SIZE)).run s =
        some ((), w) → w.pageEntry w.root ((0x7fffffe0000 / FRAME_SIZE * FRAME_SIZE + k * FRAME_SIZE) / FRAME_SIZE)
          ≠ none := by
    intro k w hk hturns
    obtain ⟨hfirst, hcount⟩ := onePage_turns haligned (by omega)
    rw [hfirst] at hk ⊢
    obtain rfl : k = 0 := by omega
    obtain rfl : s = w := (Prod.mk.inj (Option.some.inj hturns)).2
    rw [hr.root (by omega), show (0x7fffffe0000 + 0 * FRAME_SIZE) / FRAME_SIZE = 0x7fffffe0 by rw [FRAME_SIZE]]
    exact hthere
  constructor
  · intro _ _ _ _ _
    dsimp only
    rw [hbreak, hup, hup']
    exact fun k hk w hturns hnone => absurd hnone (hturn k w hk hturns)
  · intro _ _ _ _ _
    dsimp only
    rw [hbreak, hup, hup']
    exact fun k hk w hturns hnone => absurd hnone (hturn k w hk hturns)

/-- The first page of the stack, which the heap takes for its own when it shrinks. -/
theorem onePage_stack_lost : ∃ s u B, (map_range 0x7fffffe0000 0x10000 true true).run (onePageHeap 0x7fffffe0000) =
    some ((), s) ∧
    (brkSystem 100).GuardedRun BrkReady (s, Books.empty)
    [(0x7fffffe0001, 0x7fffffe0001), (0x7fffffe0000, 0x7fffffe0000)]
      (u, B) ∧ ¬ ForeignKept 100 (s, Books.empty) (u, B) := by
  have haligned : 0x7fffffe0000 % FRAME_SIZE = 0 := by
    rw [FRAME_SIZE]
  have hup : roundUpPage 0x7fffffe0000 = 0x7fffffe0000 := roundUpPage_self haligned (by omega)
  have hup' : roundUpPage 0x7fffffe0001 = 0x7fffffe1000 := by
    unfold roundUpPage add64 FRAME_SIZE
    omega
  have hr : OnRoot (onePageHeap 0x7fffffe0000) 100 := onePage_onRoot
  have hspace := (onePageHeap_space 0x7fffffe0000).shrink
  have hz : HandsZeros (onePageHeap 0x7fffffe0000) := handsZeros_of_avail rfl
  have hpages : pagesOf 0x7fffffe0000 0x10000 = 16 := by
    rw [pagesOf, if_neg (by omega)]
    simp only [FRAME_SIZE]
  obtain ⟨s, hmap⟩ := hz.map_range_returns hspace hr (show 0x7fffffe0000 + 0x10000 ≤ 2 ^ 47 by omega)
    (by rw [hpages, onePageFree_ncard])
  obtain ⟨F, hs⟩ := hz.map_range hspace hr (by omega) hmap
  have hregs := hs.evolves.regs
  have hsr : OnRoot s 100 := hs.onRoot hr
  obtain ⟨entry, he⟩ : ∃ entry, s.pageEntry 100 0x7fffffe0 = some entry := by
    have hbyte := hs.bytes 0x7fffffe0000 (by omega)
    have hpage : 0x7fffffe0000 / FRAME_SIZE = 0x7fffffe0 := by rw [FRAME_SIZE]
    have htouches : touches 0x7fffffe0000 0x10000 0x7fffffe0000 := by
      simp only [touches, FRAME_SIZE]
      omega
    rw [Machine.userByte, hpage, Image.extend, if_pos htouches] at hbyte
    cases he : s.pageEntry 100 0x7fffffe0 with
    | some entry => exact ⟨entry, rfl⟩
    | none =>
      rw [he] at hbyte
      cases h : (onePageHeap 0x7fffffe0000).userByte 100 0x7fffffe0000 <;> rw [h] at hbyte <;> cases hbyte
  have hstart : s.heapStart = 0x7fffffe0000 := congrArg Machine.heapStart hregs
  have hbreak : s.heapBreak = 0x7fffffe0000 := congrArg Machine.heapBreak hregs
  have hmay : s.mayBreak 0x7fffffe0001 := by
    unfold Machine.mayBreak
    omega
  have hready : BrkReady (s, Books.empty) (0x7fffffe0001, 0x7fffffe0001) :=
    brkReady_of_there hsr hbreak (by simp [he])
  obtain ⟨t, F₁, hgrow, ht⟩ :=
    set_heap_break_moves hs.next.shrink hsr (Or.inl (by rw [hstart, hbreak])) hmay hready.1 hready.2
  obtain ⟨htstart, htbreak⟩ := ht.start
  have hmay' : t.mayBreak 0x7fffffe0000 := by
    unfold Machine.mayBreak
    omega
  have hready' : BrkReady (t, Books.empty.next 100 s t) (0x7fffffe0000, 0x7fffffe0000) :=
    brkReady_of_le (by rw [htbreak, hup, hup']; omega)
  obtain ⟨u, F₂, hshrink, hu⟩ := set_heap_break_moves (by rw [ht.acting]; exact ht.space) (ht.onRoot hsr)
    (Or.inr (by omega)) hmay' hready'.1 hready'.2
  have htwo := ((System.GuardedRun.nil (s, Books.empty)).snoc hready
    (brk_step (sys_brk_served hmay hgrow))).snoc hready'
    (brk_step (sys_brk_served hmay' hshrink))
  refine ⟨s, u, _, hmap, htwo, fun hkept => ?_⟩
  have hlost : u.pageEntry 100 0x7fffffe0 = none := by
    refine hu.gone 0x7fffffe0 ?_ (by omega)
    rw [htbreak, hup, hup']
    simp only [pagesFrom, FRAME_SIZE, Set.mem_ofPred_eq]
    omega
  have := (hkept 0x7fffffe0 entry (by omega) he (by simp [Books.owns, Books.empty])).1
  rw [hlost] at this
  cases this

end

end Kernel
