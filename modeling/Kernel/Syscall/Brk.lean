import Kernel.Vmm.Break

/-!
# `brk` (`syscall.cc`)

The books count for every page how often `brk` has mapped it, and how often the
frame that `brk` gave it has become free again.
-/

namespace Kernel

open Lib

def get_heap_break : K Nat := do
  let s ← get
  pure s.heapBreak

/-- The value that `brk` returns. -/
def sys_brk (rdi : Nat) : K Nat := do
  if rdi = 0 then get_heap_break
  else do
    let target := rdi
    let failed ← set_heap_break target
    if failed ≠ 0 then get_heap_break
    else pure target

/-! ## The books -/

structure Books where
  taken : Nat → Nat
  freed : Nat → Nat

def Books.empty : Books := ⟨fun _ => 0, fun _ => 0⟩

/-- The page is one that `brk` has mapped. -/
def Books.owns (B : Books) (vpn : Nat) : Prop := B.freed vpn < B.taken vpn

/-- From `s` to `t` the frame has become free. -/
def FrameFreed (s t : Machine) (f : Nat) : Prop := ∃ F F', PhysWf s F ∧ PhysWf t F' ∧ f ∈ F' \ F

open Classical in
/-- The books after a call that led from `s` to `t`. -/
noncomputable def Books.next (B : Books) (root : Nat) (s t : Machine) : Books where
  taken vpn := B.taken vpn + if s.pageEntry root vpn = none ∧ t.pageEntry root vpn ≠ none then 1 else 0
  freed vpn := B.freed vpn +
    if B.owns vpn ∧ ∃ entry, s.pageEntry root vpn = some entry ∧ FrameFreed s t (entryPpn entry) then 1 else 0

/-- The calls of `brk` by the process on `root`, with their arguments and results. -/
noncomputable def brkSystem (root : Nat) : System (Machine × Books) (Nat × Nat) where
  init s := s.2 = Books.empty
  step s call t := (sys_brk call.1).run s.1 = some (call.2, t.1) ∧ t.2 = s.2.next root s.1 t.1

/-- There are frames left, and those for tables have no present word. -/
def BrkReady (s : Machine × Books) (call : Nat × Nat) : Prop := brkClean call.1 s.1 ∧ brkFrames call.1 s.1

/-- The heap is mapped, and what `brk` has mapped above it has been given back. -/
structure HeapKept (root : Nat) (s : Machine) (B : Books) : Prop where
  space : ∃ F, Space s F (s.lowerFrames root) s.acting root
  onRoot : OnRoot s root
  userOpen : UserOpen s root
  fits : HeapFits s
  pages : ∀ v, s.heapStart ≤ v * FRAME_SIZE → v * FRAME_SIZE < roundUpPage s.heapBreak → s.mayWrite root v
  returned : ∀ v, v < 2 ^ 35 → roundUpPage s.heapBreak ≤ v * FRAME_SIZE → B.taken v ≠ 0 →
    s.pageEntry root v = none ∧ B.freed v = B.taken v
  placed : ∀ v, v < 2 ^ 35 → B.taken v ≠ 0 → s.heapStart ≤ v * FRAME_SIZE
  books : ∀ v, v < 2 ^ 35 → B.freed v ≤ B.taken v ∧ B.taken v ≤ B.freed v + 1

/-- What a call of `brk` answers and does. -/
structure BrkAnswer (root : Nat) (s : Machine) (rdi r : Nat) (t : Machine) : Prop where
  served : s.heapStart ≤ rdi → rdi < 2 ^ 47 → r = rdi ∧ t.heapBreak = rdi
  refused : ¬ (s.heapStart ≤ rdi ∧ rdi < 2 ^ 47) → r = s.heapBreak ∧ t = s
  start : t.heapStart = s.heapStart
  gone : ∀ v ∈ pagesFrom (roundUpPage t.heapBreak) (roundUpPage s.heapBreak), t.pageEntry root v = none
  /-- The frames of these pages are free now, and no other frame that was in use. -/
  freed : ∃ F F', PhysWf s F ∧ PhysWf t F' ∧
    F' \ F = s.framesOf root (pagesFrom (roundUpPage t.heapBreak) (roundUpPage s.heapBreak))
  /-- No two of them were on one frame. -/
  once : ∀ v w e e', v < 2 ^ 35 → w < 2 ^ 35 → s.pageEntry root v = some e → s.pageEntry root w = some e' →
    entryPpn e = entryPpn e' → v = w
  bytes : ∀ a, s.heapStart ≤ a → a < s.heapBreak → a < t.heapBreak →
    (s.userByte root a).isSome ∧ t.userByte root a = s.userByte root a

section

variable {s t u : Machine} {F F' D : Set Nat} {B : Books} {root rdi r v b : Nat}

theorem FrameFreed.iff {f : Nat} (hF : PhysWf s F) (hF' : PhysWf t F') : FrameFreed s t f ↔ f ∈ F' \ F := by
  constructor
  · rintro ⟨G, G', hG, hG', hf⟩
    rwa [hG.unique hF, hG'.unique hF'] at hf
  · exact fun hf => ⟨F, F', hF, hF', hf⟩

theorem Books.next_self (hF : PhysWf s F) (B : Books) (root : Nat) : B.next root s s = B := by
  have hfreed : ∀ f, ¬ FrameFreed s s f := by
    intro f hf
    obtain ⟨hf', hf⟩ := (FrameFreed.iff hF hF).mp hf
    exact hf hf'
  unfold Books.next
  congr 1
  · funext v
    rw [if_neg (by simp), Nat.add_zero]
  · funext v
    rw [if_neg, Nat.add_zero]
    rintro ⟨-, entry, -, hf⟩
    exact hfreed _ hf

/-! ## One call -/

theorem sys_brk_refused (h : ¬ s.mayBreak rdi) : (sys_brk rdi).run s = some (s.heapBreak, s) := by
  unfold sys_brk
  by_cases hzero : rdi = 0
  · rw [if_pos hzero]
    rfl
  · rw [if_neg hzero]
    dsimp only
    rw [Prog.bind_run (set_heap_break_refused h)]
    rfl

theorem sys_brk_served {t : Machine} (h : s.mayBreak rdi) (hrun : (set_heap_break rdi).run s = some (0, t)) :
    (sys_brk rdi).run s = some (rdi, t) := by
  have hzero : rdi ≠ 0 := by
    obtain ⟨hstart, -, hin, -⟩ := h
    omega
  unfold sys_brk
  rw [if_neg hzero]
  dsimp only
  rw [Prog.bind_run hrun]
  rfl

theorem HeapFits.page_lt (h : HeapFits s) (hlo : s.heapStart ≤ v * FRAME_SIZE)
    (hhi : v * FRAME_SIZE < roundUpPage s.heapBreak) : v < 2 ^ 35 := by
  rcases h.ok with heq | hlt
  · rw [heq, roundUpPage_self h.aligned h.high] at hhi
    omega
  · have := roundUpPage_le hlt
    simp only [FRAME_SIZE] at hhi
    omega

theorem HeapFits.byte_page (h : HeapFits s) {a : Nat} (hlo : s.heapStart ≤ a) (hhi : a < s.heapBreak) :
    s.heapStart ≤ a / FRAME_SIZE * FRAME_SIZE ∧ a / FRAME_SIZE * FRAME_SIZE < roundUpPage s.heapBreak := by
  have haligned := h.aligned
  rcases h.ok with heq | hlt
  · omega
  · have := roundUpPage_of_le (Nat.le_of_lt hlt)
    simp only [FRAME_SIZE] at *
    omega

theorem Books.next_kept {entry : Word} (hF : PhysWf s F) (hF' : PhysWf t F') (he : s.pageEntry root v = some entry)
    (hfree : entryPpn entry ∉ F' \ F) : (B.next root s t).taken v = B.taken v ∧
        (B.next root s t).freed v = B.freed v := by
  unfold Books.next
  dsimp only
  rw [if_neg (by rw [he]; simp), if_neg]
  · exact ⟨rfl, rfl⟩
  · rintro ⟨-, entry', he', hf⟩
    rw [he, Option.some.injEq] at he'
    subst he'
    exact hfree ((FrameFreed.iff hF hF').mp hf)

theorem Books.next_absent (he : s.pageEntry root v = none) :
    (B.next root s t).freed v = B.freed v ∧
      (t.pageEntry root v = none → (B.next root s t).taken v = B.taken v) ∧
      (t.pageEntry root v ≠ none → (B.next root s t).taken v = B.taken v + 1) := by
  unfold Books.next
  dsimp only
  refine ⟨?_, fun hnone => ?_, fun hthere => ?_⟩
  · rw [if_neg, Nat.add_zero]
    rintro ⟨-, entry, he', -⟩
    rw [he] at he'
    cases he'
  · rw [if_neg fun h => h.2 hnone, Nat.add_zero]
  · rw [if_pos ⟨he, hthere⟩]

theorem Books.next_freed {entry : Word} (hF : PhysWf s F) (hF' : PhysWf t F') (he : s.pageEntry root v = some entry)
    (hfree : entryPpn entry ∈ F' \ F) : (B.next root s t).taken v = B.taken v ∧
      (B.owns v → (B.next root s t).freed v = B.freed v + 1) ∧
        (¬ B.owns v → (B.next root s t).freed v = B.freed v) := by
  unfold Books.next
  dsimp only
  refine ⟨?_, fun howns => ?_, fun hnot => ?_⟩
  · rw [if_neg (by rw [he]; simp), Nat.add_zero]
  · rw [if_pos ⟨howns, entry, he, (FrameFreed.iff hF hF').mpr hfree⟩]
  · rw [if_neg fun h => hnot h.1, Nat.add_zero]

theorem HeapKept.owned (h : HeapKept root s B) (hv : v < 2 ^ 35) (howns : B.owns v) :
    ∃ entry, s.pageEntry root v = some entry := by
  unfold Books.owns at howns
  have htaken : B.taken v ≠ 0 := by omega
  by_cases hend : roundUpPage s.heapBreak ≤ v * FRAME_SIZE
  · have := (h.returned v hv hend htaken).2
    omega
  · obtain ⟨entry, he, -⟩ := h.pages v (h.placed v hv htaken) (by omega)
    exact ⟨entry, he⟩

theorem HeapKept.not_owned (h : HeapKept root s B) (hv : v < 2 ^ 35) (he : s.pageEntry root v = none) : ¬ B.owns v := by
  intro howns
  obtain ⟨entry, he'⟩ := h.owned hv howns
  rw [he] at he'
  cases he'

section

variable {new_break : Nat} (h : HeapKept root s B) (hs : Space s F (s.lowerFrames root) s.acting root)
  (hmay : s.mayBreak new_break) (hm : BreakMoved s F root new_break t F')

include h hm

theorem HeapKept.moved_pages (hlt : new_break < 2 ^ 47) :
    ∀ v, s.heapStart ≤ v * FRAME_SIZE → v * FRAME_SIZE < roundUpPage new_break → t.mayWrite root v := by
  intro v hlo hhi
  have hup := roundUpPage_le hlt
  have huser := hm.userOpen h.userOpen
  have hv : v < 2 ^ 35 := by
    simp only [FRAME_SIZE] at hhi
    omega
  by_cases hend : v * FRAME_SIZE < roundUpPage s.heapBreak
  · obtain ⟨entry, he, -⟩ := h.pages v hlo hend
    refine huser.mayWrite hv (hm.kept v entry hv ?_ he).1
    rintro ⟨hv', -⟩
    omega
  · obtain ⟨entry, he⟩ := hm.there v ⟨by omega, hhi⟩ hv
    exact huser.mayWrite hv he

include hs

theorem HeapKept.moved_books (hv : v < 2 ^ 35) :
    (B.next root s t).freed v ≤ (B.next root s t).taken v ∧
        (B.next root s t).taken v ≤ (B.next root s t).freed v + 1 := by
  have hbooks := h.books v hv
  cases he : s.pageEntry root v with
  | none =>
    obtain ⟨hfreed, hsame, hmore⟩ := Books.next_absent (B := B) (t := t) he
    have hnot := h.not_owned hv he
    unfold Books.owns at hnot
    by_cases hnone : t.pageEntry root v = none
    · rw [hfreed, hsame hnone]
      exact hbooks
    · rw [hfreed, hmore hnone]
      omega
  | some entry =>
    by_cases hf : entryPpn entry ∈ F' \ F
    · obtain ⟨hsame, howned, hnot⟩ := Books.next_freed (B := B) hs.wf hm.space.wf he hf
      by_cases howns : B.owns v
      · rw [hsame, howned howns]
        unfold Books.owns at howns
        omega
      · rw [hsame, hnot howns]
        exact hbooks
    · obtain ⟨hsame, hfreed⟩ := Books.next_kept (B := B) hs.wf hm.space.wf he hf
      rw [hsame, hfreed]
      exact hbooks

theorem HeapKept.moved_returned (hv : v < 2 ^ 35) (hend : roundUpPage new_break ≤ v * FRAME_SIZE)
    (htaken : (B.next root s t).taken v ≠ 0) :
    t.pageEntry root v = none ∧ (B.next root s t).freed v = (B.next root s t).taken v := by
  have hbooks := h.books v hv
  cases he : s.pageEntry root v with
  | none =>
    have hnone : t.pageEntry root v = none := by
      refine hm.others v hv ?_ he
      rintro ⟨-, hv'⟩
      omega
    obtain ⟨hfreed, hsame, -⟩ := Books.next_absent (B := B) (t := t) he
    have hnot := h.not_owned hv he
    unfold Books.owns at hnot
    exact ⟨hnone, by rw [hfreed, hsame hnone]; omega⟩
  | some entry =>
    have hgone : v ∈ pagesFrom (roundUpPage new_break) (roundUpPage s.heapBreak) := by
      refine ⟨hend, ?_⟩
      by_contra hold
      -- The books of a page behind both ends are as they were, and say that it is not there.
      have hf : entryPpn entry ∉ F' \ F := fun hf => hold ((hm.freed_iff hs hv he).mp hf).2
      obtain ⟨hsame, -⟩ := Books.next_kept (B := B) hs.wf hm.space.wf he hf
      rw [hsame] at htaken
      rw [(h.returned v hv (by omega) htaken).1] at he
      cases he
    obtain ⟨hsame, howned, hnot⟩ := Books.next_freed (B := B) hs.wf hm.space.wf he ((hm.freed_iff hs hv he).mpr hgone)
    refine ⟨hm.gone v hgone hv, ?_⟩
    by_cases howns : B.owns v
    · rw [hsame, howned howns]
      unfold Books.owns at howns
      omega
    · rw [hsame, hnot howns]
      unfold Books.owns at howns
      omega

omit hs in
theorem HeapKept.moved_placed (hend : s.heapStart ≤ roundUpPage s.heapBreak) (hv : v < 2 ^ 35)
    (htaken : (B.next root s t).taken v ≠ 0) : s.heapStart ≤ v * FRAME_SIZE := by
  by_cases hbefore : B.taken v ≠ 0
  · exact h.placed v hv hbefore
  -- The call has mapped the page, so it is behind the old end.
  have hnew : s.pageEntry root v = none ∧ t.pageEntry root v ≠ none := by
    by_contra hnot
    unfold Books.next at htaken
    dsimp only at htaken
    rw [if_neg hnot] at htaken
    omega
  by_contra hlow
  refine hnew.2 (hm.others v hv ?_ hnew.1)
  rintro ⟨hv', -⟩
  omega

include hmay

theorem HeapKept.moved : HeapKept root t (B.next root s t) := by
  have hup := roundUpPage_of_le (Nat.le_of_lt (h.fits.ok.break_lt hmay))
  obtain ⟨-, -, hin, hlt⟩ := hmay
  obtain ⟨hstart, hbreak⟩ := hm.start
  have hle := h.fits.le
  refine ⟨⟨F', by rw [hm.acting]; exact hm.space⟩, hm.onRoot h.onRoot, hm.userOpen h.userOpen, ?_, ?_, ?_, ?_,
    fun v hv => h.moved_books hs hm hv⟩
  · refine ⟨by rw [hstart]; exact h.fits.aligned, by rw [hstart]; exact h.fits.low, by rw [hstart]; exact h.fits.high,
      by omega, Or.inr (by omega)⟩
  · rw [hstart, hbreak]
    exact h.moved_pages hm hlt
  · rw [hbreak]
    exact fun v hv hend htaken => h.moved_returned hs hm hv hend htaken
  · rw [hstart]
    exact fun v hv htaken => h.moved_placed hm (by omega) hv htaken

theorem HeapKept.answer : BrkAnswer root s new_break new_break t := by
  have hend := roundUpPage_le (h.fits.ok.break_lt hmay)
  obtain ⟨-, -, hin, hlt⟩ := hmay
  obtain ⟨hstart, hbreak⟩ := hm.start
  have hup := roundUpPage_of_le (Nat.le_of_lt hlt)
  refine ⟨fun _ _ => ⟨rfl, hbreak⟩, fun hnot => absurd ⟨hin, hlt⟩ hnot, hstart, fun v hv => ?_,
    ⟨F, F', hs.wf, hm.space.wf, ?_⟩,
    fun v w e e' hv hw he he' hf => hs.frames_inj hv hw he he' hf, fun a hlo hhi hhi' => ?_⟩
  · rw [hbreak] at hv
    refine hm.gone v hv ?_
    have := hv.2
    simp only [FRAME_SIZE] at this
    omega
  · rw [hbreak]
    exact hm.freed
  · obtain ⟨hpage, hpage'⟩ := h.fits.byte_page hlo hhi
    have hv := h.fits.page_lt hpage hpage'
    obtain ⟨entry, he, -⟩ := h.pages _ hpage hpage'
    obtain ⟨he', hmem⟩ := hm.kept _ entry hv (by
      rintro ⟨hv', -⟩
      simp only [FRAME_SIZE] at hv'
      omega) he
    unfold Machine.userByte
    rw [he, he']
    refine ⟨rfl, ?_⟩
    rw [Option.map_some, Option.map_some, Machine.frameByte, Machine.frameByte, hmem]

end

theorem HeapKept.isSome (h : HeapKept root s B) {a : Nat} (hlo : s.heapStart ≤ a) (hhi : a < s.heapBreak) :
    (s.userByte root a).isSome := by
  obtain ⟨hpage, hpage'⟩ := h.fits.byte_page hlo hhi
  obtain ⟨entry, he, -⟩ := h.pages _ hpage hpage'
  unfold Machine.userByte
  rw [he]
  rfl

theorem HeapKept.refused (h : HeapKept root s B) (hnot : ¬ (s.heapStart ≤ rdi ∧ rdi < 2 ^ 47)) :
    BrkAnswer root s rdi s.heapBreak s := by
  obtain ⟨F, hs⟩ := h.space
  have hnone := pagesFrom_empty (Nat.le_refl (roundUpPage s.heapBreak))
  refine ⟨fun hin hlt => absurd ⟨hin, hlt⟩ hnot, fun _ => ⟨rfl, rfl⟩, rfl, fun v hv => ?_, ⟨F, F, hs.wf, hs.wf, ?_⟩,
    fun v w e e' hv hw he he' hf => hs.frames_inj hv hw he he' hf, fun a hlo hhi _ => ⟨h.isSome hlo hhi, rfl⟩⟩
  · rw [hnone] at hv
    exact absurd hv (Set.notMem_empty v)
  · rw [hnone, framesOf_empty, Set.sdiff_self]

theorem HeapKept.call (h : HeapKept root s B) (hclean : brkClean rdi s) (hframes : brkFrames rdi s) :
    ∃ r t, (sys_brk rdi).run s = some (r, t) ∧ BrkAnswer root s rdi r t ∧ HeapKept root t (B.next root s t) := by
  obtain ⟨F, hs⟩ := h.space
  by_cases hmay : s.mayBreak rdi
  · obtain ⟨t, F', hrun, hm⟩ := set_heap_break_moves hs h.onRoot h.fits.ok hmay hclean hframes
    exact ⟨rdi, t, sys_brk_served hmay hrun, h.answer hs hmay hm, h.moved hs hmay hm⟩
  · refine ⟨s.heapBreak, s, sys_brk_refused hmay, h.refused fun hin => hmay (h.fits.mayBreak_iff.mpr hin), ?_⟩
    rw [Books.next_self hs.wf]
    exact h

/-! ## Runs -/

theorem HeapKept.step {s t : Machine × Books} {call : Nat × Nat} (h : HeapKept root s.1 s.2) (hready : BrkReady s call)
    (hstep : (brkSystem root).step s call t) : HeapKept root t.1 t.2 := by
  obtain ⟨hrun, hbooks⟩ := hstep
  obtain ⟨r, t', hrun', -, ht⟩ := h.call hready.1 hready.2
  rw [hrun, Option.some.injEq, Prod.mk.injEq] at hrun'
  rw [hbooks, hrun'.2]
  exact ht

theorem init_heap_break_kept {s₁ : Machine} (h : Space s F D s.acting root) (hr : OnRoot s root)
    (hopen : UserOpen s root)
    (hb : b % FRAME_SIZE = 0) (h64 : b < 2 ^ 64) (hinit : (init_heap_break b).run s = some ((), s₁)) :
    HeapKept root s₁ Books.empty := by
  rw [init_heap_break, Prog.run_modify] at hinit
  subst hinit
  have haligned : (if b < 0x1000 then 0x1000 else b) % FRAME_SIZE = 0 := by
    split_ifs
    · rw [FRAME_SIZE]
    · exact hb
  refine ⟨⟨F, h.shrink.congr rfl rfl rfl rfl rfl⟩, hr, hopen, ⟨haligned, ?_, ?_, Nat.le_refl _, Or.inl rfl⟩,
    fun v hlo hhi => ?_, fun _ _ _ htaken => absurd rfl htaken, fun _ _ htaken => absurd rfl htaken,
    fun _ _ => ⟨Nat.le_refl _, Nat.zero_le _⟩⟩
  · dsimp only
    split_ifs <;> omega
  · dsimp only
    split_ifs <;> omega
  · dsimp only at hlo hhi
    rw [roundUpPage_self haligned (by split_ifs <;> omega)] at hhi
    omega

/-- **The heap.** From any break on a page, and while frames last, every `brk` with a target in the heap returns the
target and moves the break there, and every other one returns the break and changes nothing. The heap stays mapped, and
what `brk` has mapped above it is given back, each frame once. -/
theorem brk_keeps_heap {s₁ : Machine} {calls : List (Nat × Nat)} (h : Space s F D s.acting root) (hr : OnRoot s root)
    (hopen : UserOpen s root) (hb : b % FRAME_SIZE = 0) (h64 : b < 2 ^ 64)
    (hinit : (init_heap_break b).run s = some ((), s₁))
    (hrun : (brkSystem root).GuardedRun BrkReady (s₁, Books.empty) calls (u, B)) :
    HeapKept root u B ∧ ∀ rdi, brkClean rdi u → brkFrames rdi u →
      ∃ r t, (sys_brk rdi).run u = some (r, t) ∧ BrkAnswer root u rdi r t ∧ HeapKept root t (B.next root u t) := by
  have hinv := hrun.preserves (I := fun s => HeapKept root s.1 s.2) (fun _ _ _ h hg hstep => h.step hg hstep)
    (init_heap_break_kept h hr hopen hb h64 hinit)
  exact ⟨hinv, fun _ hclean hframes => hinv.call hclean hframes⟩

end

/-! ## A heap far above the page of `onePage` -/

theorem onePage_space : Space onePage onePageFree (onePage.lowerFrames 100) onePage.acting 100 := by
  refine Space.of_once onePage_wf (onePage_root ▸ onePage_source) onePage_lowerOnce ?_
  rintro g ⟨π, -, hlen, hw⟩
  have := (onePage_walk hw).2
  exact if_pos (by omega)

theorem onePage_userOpen : UserOpen onePage 100 := by
  intro π g i _ _ _ _ hp
  have hentry : onePage.mem g i = if i = 0 ∧ 100 ≤ g ∧ g < 104 then mkEntry (g + 1) (leafFlags true true) else 0 := rfl
  rw [hentry] at hp ⊢
  split_ifs at hp ⊢
  · exact userWritable_mkEntry userWritable_leafFlags _
  · exact absurd hp not_present_zero

/-- `onePage` with its heap elsewhere. -/
def onePageHeap (b : Nat) : Machine := { onePage with heapStart := b, heapBreak := b }

theorem onePageHeap_space (b : Nat) : Space (onePageHeap b) onePageFree (onePage.lowerFrames 100) onePage.acting 100 :=
  onePage_space.congr rfl rfl rfl rfl rfl

section

variable {b start : Nat}

theorem onePage_turns (haligned : start % FRAME_SIZE = 0) (hend : start + 0x1000 ≤ 2 ^ 47) :
    start / FRAME_SIZE * FRAME_SIZE = start ∧ pageCount start (mapEnd start 0x1000) = 1 := by
  have hfirst : start / FRAME_SIZE * FRAME_SIZE = start := Nat.div_mul_cancel (Nat.dvd_of_mod_eq_zero haligned)
  have hcount := pageCount_mapEnd (show 0x1000 ≠ 0 by omega) hend
  rw [hfirst] at hcount
  refine ⟨hfirst, hcount.trans ?_⟩
  simp only [FRAME_SIZE] at *
  omega

theorem onePageHeap_clean (haligned : start % FRAME_SIZE = 0) (hend : start + 0x1000 ≤ 2 ^ 47)
    (hindex : vpnIndex (start / FRAME_SIZE) 3 ≠ 0) : mapRangeClean true true start 0x1000 (onePageHeap b) := by
  obtain ⟨hfirst, hcount⟩ := onePage_turns haligned hend
  intro k hk u hturns _ f w halloc
  rw [hfirst] at hk hturns ⊢
  obtain rfl : k = 0 := by omega
  obtain rfl : onePageHeap b = u := (Prod.mk.inj (Option.some.inj hturns)).2
  have hpage := (onePageHeap_space b).pageFrame halloc
  have hroot : (onePageHeap b).root = 100 := onePage_root
  have hout : (100 : Nat) ∉ onePageFree := by simp [onePageFree]
  rw [hroot, Nat.zero_mul, Nat.add_zero]
  refine mapClean_blank hpage.space.wf (alloc_cleared (onePageHeap_space b).wf rfl halloc).1
    (fun h100 => hout h100.1) ?_
  rw [(hpage.other 100 fun e => hout (e ▸ hpage.free)).1]
  have hzero : (onePageHeap b).mem 100 (vpnIndex (start / FRAME_SIZE) 3) = 0 := if_neg fun h => hindex h.1
  rw [hzero]
  exact not_present_zero

theorem onePageHeap_frames (haligned : start % FRAME_SIZE = 0) (hend : start + 0x1000 ≤ 2 ^ 47) :
    mapRangeFrames true true start 0x1000 (onePageHeap b) := by
  obtain ⟨hfirst, hcount⟩ := onePage_turns haligned hend
  intro k hk u hturns _ F hF
  rw [hfirst] at hk hturns
  obtain rfl : k = 0 := by omega
  obtain rfl : onePageHeap b = u := (Prod.mk.inj (Option.some.inj hturns)).2
  rw [hF.unique (onePageHeap_space b).wf, onePageFree_ncard]
  exact Nat.le_trans (Nat.add_le_add_left (tablesMissing_le _ _ 3 _) 1) (by omega)

end

theorem onePageHeap_ready : BrkReady (onePageHeap (2 ^ 39), Books.empty) (2 ^ 39 + 1, 2 ^ 39 + 1) := by
  have haligned : 2 ^ 39 % FRAME_SIZE = 0 := by
    unfold FRAME_SIZE
    omega
  have hindex : vpnIndex (2 ^ 39 / FRAME_SIZE) 3 ≠ 0 := by
    unfold vpnIndex FRAME_SIZE
    omega
  have hbreak : roundUpPage (onePageHeap (2 ^ 39)).heapBreak = 2 ^ 39 :=
    roundUpPage_self (n := 2 ^ 39) haligned (by omega)
  have hsize : roundUpPage (2 ^ 39 + 1) - 2 ^ 39 = 0x1000 := by
    unfold roundUpPage add64 FRAME_SIZE
    omega
  constructor
  · intro _ _ _ _ _
    rw [hbreak, hsize]
    exact onePageHeap_clean haligned (by omega) hindex
  · intro _ _ _ _ _
    rw [hbreak, hsize]
    exact onePageHeap_frames haligned (by omega)

theorem brk_step {s t : Machine} {B : Books} {root rdi r : Nat} (h : (sys_brk rdi).run s = some (r, t)) :
    (brkSystem root).step (s, B) (rdi, r) (t, B.next root s t) := ⟨h, rfl⟩

theorem brkReady_of_le {s : Machine} {B : Books} {rdi r : Nat} (h : roundUpPage rdi ≤ roundUpPage s.heapBreak) :
    BrkReady (s, B) (rdi, r) :=
  ⟨fun _ _ _ _ hlt => absurd hlt (Nat.not_lt.mpr h), fun _ _ _ _ hlt => absurd hlt (Nat.not_lt.mpr h)⟩

theorem onePage_heap : ∃ u B, (brkSystem 100).GuardedRun BrkReady (onePageHeap (2 ^ 39), Books.empty)
    [(2 ^ 39 + 1, 2 ^ 39 + 1), (2 ^ 39, 2 ^ 39)] (u, B) ∧ HeapKept 100 u B ∧ ∀ rdi, brkClean rdi u → brkFrames rdi u →
      ∃ r t, (sys_brk rdi).run u = some (r, t) ∧ BrkAnswer 100 u rdi r t ∧ HeapKept 100 t (B.next 100 u t) := by
  have hinit : (init_heap_break (2 ^ 39)).run onePage = some ((), onePageHeap (2 ^ 39)) := rfl
  have haligned : 2 ^ 39 % FRAME_SIZE = 0 := by
    unfold FRAME_SIZE
    omega
  have hready := onePageHeap_ready
  have hstart := init_heap_break_kept onePage_space onePage_onRoot onePage_userOpen haligned (by omega) hinit
  obtain ⟨r, t, hrun, hanswer, ht⟩ := hstart.call hready.1 hready.2
  obtain ⟨rfl, hbreak⟩ := hanswer.served (Nat.le_succ _) (by omega)
  have hheap : t.heapStart = 2 ^ 39 := hanswer.start
  have hready' : BrkReady (t, Books.empty.next 100 (onePageHeap (2 ^ 39)) t) (2 ^ 39, 2 ^ 39) := by
    refine brkReady_of_le ?_
    rw [hbreak]
    simp only [roundUpPage, add64, FRAME_SIZE]
    omega
  obtain ⟨r, u, hrun', hanswer', -⟩ := ht.call hready'.1 hready'.2
  obtain ⟨rfl, -⟩ := hanswer'.served (by omega) (by omega)
  have hguarded := ((System.GuardedRun.nil (onePageHeap (2 ^ 39), Books.empty)).snoc hready
    (brk_step hrun)).snoc hready'
    (brk_step hrun')
  exact ⟨_, _, hguarded, brk_keeps_heap onePage_space onePage_onRoot onePage_userOpen haligned (by omega)
    hinit hguarded⟩

end Kernel
