import Kernel.Vmm.Mappings

/-!
# The list of shared mappings

Shared mappings lie between the direct map and the kernel. The search for an address
may wrap around, and then no address of the range has room.
-/

namespace Kernel

open Lib

/-- In order of address, apart, and each of some pages of the range that starts at `lo`. -/
structure SharedMappings (lo : Nat) (l : List VME) : Prop where
  ordered : vmeSpan.Ordered l
  nonempty : ∀ vme ∈ l, vme.start < vme.end
  inside : ∀ vme ∈ l, lo ≤ vme.start ∧ vme.end ≤ sharedEnd
  aligned : ∀ vme ∈ l, vme.start % FRAME_SIZE = 0 ∧ vme.end % FRAME_SIZE = 0
  shared : ∀ vme ∈ l, vme.shared = true

/-- The shared range starts on a page and does not wrap. -/
structure SharedRange (s : Machine) : Prop where
  aligned : s.hhdm_offset % FRAME_SIZE = 0
  le : s.hhdm_offset + sharedPaLimit ≤ sharedEnd

/-- Somewhere in the range there is room for `length` bytes in pages. -/
def SharedRoom (lo : Nat) (l : List VME) (length : Nat) : Prop :=
  ∃ a, lo ≤ a ∧ a + pagesLength length ≤ sharedEnd ∧ vmeSpan.Free l a (a + pagesLength length)

section

variable {s t : Machine} {size length lo n i : Nat} {l : List VME} {flags : BitVec 32} {file offset : Nat}

theorem SharedRange.start (h : SharedRange s) : s.sharedStart = s.hhdm_offset + sharedPaLimit := by
  have := h.le
  simp only [Machine.sharedStart, add64, sharedEnd] at *
  omega

/-! ## The search -/

theorem findGap_fits (ho : vmeSpan.Ordered l) (hf : ∀ vme ∈ l, vme.start ≤ vme.end) (hn : ∀ vme ∈ l, n ≤ vme.start)
    (hfit : (findGap size n l).2.1 + size < 2 ^ 64) : findGap size n l = vmeSpan.firstFit size n l := by
  induction l generalizing n with
  | nil => rfl
  | cons vme next ih =>
    have hpair := List.pairwise_cons.mp ho
    have hstart := hn vme (by simp)
    have hforward := hf vme (by simp)
    unfold findGap at hfit ⊢
    unfold Span.firstFit
    by_cases hgap : add64 n size ≤ vme.start
    · rw [if_pos hgap] at hfit ⊢
      have hsum : add64 n size = n + size := Nat.mod_eq_of_lt hfit
      rw [hsum] at hgap
      rw [vmeSpan_lo, if_pos hgap]
    · rw [if_neg hgap] at hfit ⊢
      have hrest : findGap size vme.end next = vmeSpan.firstFit size vme.end next :=
        ih hpair.2 (fun v hv => hf v (by simp [hv])) hpair.1 hfit
      have hmono : vme.end ≤ (vmeSpan.firstFit size vme.end next).2.1 :=
        (Span.firstFit_fits (S := vmeSpan) size hpair.2 (fun v hv => hf v (by simp [hv])) hpair.1).1
      rw [← hrest] at hmono
      rw [vmeSpan_lo, vmeSpan_hi, ← hrest]
      generalize findGap size vme.end next = found at hfit hmono ⊢
      obtain ⟨passed, va, rest⟩ := found
      have hsum : add64 n size = n + size := Nat.mod_eq_of_lt (by dsimp only at hfit hmono; omega)
      rw [hsum] at hgap
      rw [if_neg hgap]

theorem findGap_least (hi : n ≤ i) (hsize : 0 < size) (hwrap : i + size < 2 ^ 64) (hl : ∀ vme ∈ l, vme.start < vme.end)
    (hfree : vmeSpan.Free l i (i + size)) : (findGap size n l).2.1 ≤ i := by
  induction l generalizing n with
  | nil => exact hi
  | cons vme next ih =>
    have hsum : add64 n size = n + size := Nat.mod_eq_of_lt (by omega)
    unfold findGap
    by_cases hgap : add64 n size ≤ vme.start
    · rw [if_pos hgap]
      exact hi
    · rw [if_neg hgap]
      have hend : vme.end ≤ i := by
        by_contra hlt
        have hne := hl vme (by simp)
        exact hfree (max i vme.start) (by omega) (by omega)
          ⟨vme, by simp, by simp only [Span.Holds, vmeSpan_lo, vmeSpan_hi]; omega⟩
      refine ih hend (fun v hv => hl v (by simp [hv])) fun m hm hm' hheld => hfree m hm hm' ?_
      obtain ⟨v, hv, hvm⟩ := hheld
      exact ⟨v, by simp [hv], hvm⟩

/-! ## The call -/

/-- The list with a mapping of `length` bytes at `va`. -/
structure SharedPlaced (s : Machine) (length file offset va : Nat) (t : Machine) : Prop where
  low : s.sharedStart ≤ va
  high : va + pagesLength length ≤ sharedEnd
  aligned : va % FRAME_SIZE = 0
  free : vmeSpan.Free s.sharedVmes va (va + pagesLength length)
  state : ∃ passed rest, s.sharedVmes = passed ++ rest ∧ t = { s with
    vmeLive := s.newVme s.vmeLive :: s.vmeLive
    sharedVmes := passed ++ ⟨s.newVme s.vmeLive, va, va + pagesLength length, true, file, offset⟩ :: rest }
  list : SharedMappings s.sharedStart t.sharedVmes

theorem mmap_shared_run {passed rest : List VME} {va : Nat} (hflags : flags &&& MAP_SHARED ≠ 0)
    (h : MayMap length flags file offset)
    (hgap : findGap (roundUpPage length) s.sharedStart s.sharedVmes = (passed, va, rest)) :
    (mmap length flags file offset).run s =
      if va > sharedEnd ∨ sub64 sharedEnd va < roundUpPage length then some (MAP_FAILED, s)
      else some (va, { s with
        vmeLive := s.newVme s.vmeLive :: s.vmeLive
        sharedVmes := passed ++
          ⟨s.newVme s.vmeLive, va, add64 va (roundUpPage length), true, file, offset⟩ :: rest }) := by
  obtain ⟨hlength, hoffset, hkind⟩ := h
  unfold mmap
  have hanonymous : ¬ ((decide (flags &&& MAP_ANONYMOUS ≠ 0) = true) ∧ file ≠ 0) := by
    rintro ⟨h, hfile⟩
    exact hfile (hkind.mp (by simpa using h))
  have hnamed : ¬ (¬ (decide (flags &&& MAP_ANONYMOUS ≠ 0) = true) ∧ file = 0) := by
    rintro ⟨h, hfile⟩
    exact h (by simpa using hkind.mpr hfile)
  rw [if_neg hlength, if_neg (by simp [hoffset]), if_neg hanonymous, if_neg hnamed]
  dsimp only
  rw [if_pos (by simpa using hflags), Prog.get_bind_run, hgap]
  dsimp only
  split_ifs <;> rfl

theorem SharedMappings.insert {passed rest : List VME} (vme : VME) (h : SharedMappings lo (passed ++ rest))
    (hpassed : ∀ v ∈ passed, v.end ≤ vme.start) (hrest : ∀ v ∈ rest, vme.end ≤ v.start) (hne : vme.start < vme.end)
    (hin : lo ≤ vme.start ∧ vme.end ≤ sharedEnd) (hpages : vme.start % FRAME_SIZE = 0 ∧ vme.end % FRAME_SIZE = 0)
    (hshared : vme.shared = true) : SharedMappings lo (passed ++ vme :: rest) := by
  have hmem : ∀ {v}, v ∈ passed ++ vme :: rest → v = vme ∨ v ∈ passed ++ rest := by
    intro v hv
    rwa [List.mem_append, List.mem_cons, or_left_comm, ← List.mem_append] at hv
  refine ⟨Span.Ordered.insert (S := vmeSpan) h.ordered hpassed hrest, ?_, ?_, ?_, ?_⟩
  all_goals
    intro v hv
    obtain rfl | hv := hmem hv
  · exact hne
  · exact h.nonempty v hv
  · exact hin
  · exact h.inside v hv
  · exact hpages
  · exact h.aligned v hv
  · exact hshared
  · exact h.shared v hv

theorem findGap_page (size : Nat) (hrange : SharedRange s) (h : SharedMappings s.sharedStart s.sharedVmes) :
    s.sharedStart ≤ (findGap size s.sharedStart s.sharedVmes).2.1 ∧
      (findGap size s.sharedStart s.sharedVmes).2.1 ≤ sharedEnd ∧
      (findGap size s.sharedStart s.sharedVmes).2.1 % FRAME_SIZE = 0 := by
  have hstart := hrange.start
  rcases findGap_va size s.sharedStart s.sharedVmes with hva | ⟨v, hv, hva⟩
  · have haligned := hrange.aligned
    have hle := hrange.le
    rw [hva, hstart]
    refine ⟨Nat.le_refl _, hle, ?_⟩
    unfold sharedPaLimit
    simp only [FRAME_SIZE] at haligned ⊢
    omega
  · have hin := h.inside v hv
    have hne := h.nonempty v hv
    rw [hva]
    exact ⟨by omega, hin.2, (h.aligned v hv).2⟩

/-- A shared `mmap` fails when there is no room, and else places its mapping where there was none. -/
theorem mmap_shared (hrange : SharedRange s) (h : SharedMappings s.sharedStart s.sharedVmes)
    (hflags : flags &&& MAP_SHARED ≠ 0) (hmay : MayMap length flags file offset)
    (hlength : pagesLength length < 2 ^ 64) : (¬ SharedRoom s.sharedStart s.sharedVmes length ∧
      (mmap length flags file offset).run s = some (MAP_FAILED, s)) ∨
    ∃ va t, SharedPlaced s length file offset va t ∧ (mmap length flags file offset).run s = some (va, t) := by
  obtain ⟨passed, va, rest, hgap⟩ : ∃ passed va rest,
      findGap (roundUpPage length) s.sharedStart s.sharedVmes = (passed, va, rest) := ⟨_, _, _, rfl⟩
  have hrun := mmap_shared_run hflags hmay hgap
  have happend := findGap_append (roundUpPage length) s.sharedStart s.sharedVmes
  obtain ⟨hlow, hle, hpage⟩ := findGap_page (roundUpPage length) hrange h
  have hpos := le_pagesLength length
  have hne := hmay.1
  have hend : sharedEnd < 2 ^ 64 := by decide
  rw [hgap] at happend hlow hle hpage
  rw [roundUpPage_eq hlength] at hgap hrun
  dsimp only at happend hlow hle hpage
  by_cases hfull : va > sharedEnd ∨ sub64 sharedEnd va < pagesLength length
  · rw [if_pos hfull] at hrun
    refine Or.inl ⟨?_, hrun⟩
    rintro ⟨a, hlow, hhigh, hfree⟩
    have hleast := findGap_least hlow (by omega) (by omega) h.nonempty hfree
    rw [hgap] at hleast
    dsimp only at hleast
    unfold sub64 at hfull
    omega
  · rw [if_neg hfull] at hrun
    unfold sub64 at hfull
    have hfits := findGap_fits h.ordered (fun v hv => Nat.le_of_lt (h.nonempty v hv))
      (fun v hv => (h.inside v hv).1) (by rw [hgap]; dsimp only; omega)
    obtain ⟨-, hpassed, hrest⟩ := Span.firstFit_fits (S := vmeSpan) (pagesLength length) h.ordered
      (fun v hv => Nat.le_of_lt (h.nonempty v hv)) fun v hv => (h.inside v hv).1
    rw [← hfits, hgap] at hpassed hrest
    dsimp only at hpassed hrest
    have hsum : add64 va (pagesLength length) = va + pagesLength length := Nat.mod_eq_of_lt (by omega)
    rw [hsum] at hrun
    have halign := pagesLength_aligned length
    have hlist := SharedMappings.insert ⟨s.newVme s.vmeLive, va, va + pagesLength length, true, file, offset⟩
      (happend ▸ h) hpassed hrest (by dsimp only; omega) ⟨hlow, by dsimp only; omega⟩
      ⟨hpage, by simp only [FRAME_SIZE] at *; omega⟩ rfl
    have hround := hlist.ordered.around
    rw [happend] at hround
    exact Or.inr ⟨va, _, ⟨hlow, by omega, hpage, hround, ⟨passed, rest, happend.symm, rfl⟩, hlist⟩, hrun⟩

end

end Kernel
