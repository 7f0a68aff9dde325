import Kernel.Lib.Transition
import Kernel.Vmm.Fork
import Kernel.Vmm.Private

/-!
# The private mappings over runs

`mmap` does not ask whether the lower half has room for a private mapping, nor
whether the rounded length is still the length.
-/

namespace Kernel

open Lib

/-! ## The gap -/

section

variable {s t : Machine} {length n a : Nat} {vme : VME} {l l' : List VME}

theorem findGap_eq (hn : n + length < 2 ^ 64) (hl : ∀ vme ∈ l, vme.end + length < 2 ^ 64) :
    findGap length n l = vmeSpan.firstFit length n l := by
  induction l generalizing n with
  | nil => rfl
  | cons vme next ih =>
    have hsum : add64 n length = n + length := Nat.mod_eq_of_lt hn
    unfold findGap Span.firstFit
    rw [hsum, ih (hl vme (by simp)) fun v hv => hl v (by simp [hv])]
    rfl

theorem findGap_va (length n : Nat) (l : List VME) :
    (findGap length n l).2.1 = n ∨ ∃ vme ∈ l, (findGap length n l).2.1 = vme.end := by
  induction l generalizing n with
  | nil => exact Or.inl rfl
  | cons vme next ih =>
    unfold findGap
    split_ifs
    · exact Or.inl rfl
    · right
      rcases ih vme.end with h | ⟨v, hv, h⟩
      · exact ⟨vme, by simp, h⟩
      · exact ⟨v, by simp [hv], h⟩

theorem findGap_append (length n : Nat) (l : List VME) : (findGap length n l).1 ++ (findGap length n l).2.2 = l := by
  induction l generalizing n with
  | nil => rfl
  | cons vme next ih =>
    unfold findGap
    split_ifs
    · rfl
    · simp [ih]

/-- The length in whole pages. A `uint64_t` may not hold it. -/
def pagesLength (length : Nat) : Nat := (length + (FRAME_SIZE - 1)) / FRAME_SIZE * FRAME_SIZE

theorem pagesLength_aligned (length : Nat) : pagesLength length % FRAME_SIZE = 0 := by
  unfold pagesLength
  exact Nat.mul_mod_left _ _

theorem le_pagesLength (length : Nat) : length ≤ pagesLength length := by
  simp only [pagesLength, FRAME_SIZE]
  omega

theorem pagesLength_le (h : length ≤ n) (hn : n % FRAME_SIZE = 0) : pagesLength length ≤ n := by
  simp only [pagesLength, FRAME_SIZE] at *
  omega

theorem roundUpPage_eq (h : pagesLength length < 2 ^ 64) : roundUpPage length = pagesLength length := by
  simp only [roundUpPage, pagesLength, add64, FRAME_SIZE] at *
  omega

/-- The arguments pass the checks of `mmap`. -/
def MayMap (length : Nat) (flags : BitVec 32) (file offset : Nat) : Prop :=
  length ≠ 0 ∧ offset % FRAME_SIZE = 0 ∧ (flags &&& MAP_ANONYMOUS ≠ 0 ↔ file = 0)

/-- Somewhere in the lower half there is room for `length` bytes in pages. -/
def HasRoom (l : List VME) (length : Nat) : Prop :=
  ∃ a, 0x1000 ≤ a ∧ a + pagesLength length ≤ 2 ^ 47 ∧ vmeSpan.Free l a (a + pagesLength length)

/-- In order of address, apart, and each of some pages of the lower half. -/
structure Mappings (l : List VME) : Prop extends PrivateVmes l where
  sorted : l.Pairwise fun v w => v.start < w.start
  nonempty : ∀ vme ∈ l, vme.start < vme.end

theorem PrivateVmes.mappings (h : PrivateVmes l) (hne : ∀ vme ∈ l, vme.start < vme.end) : Mappings l := by
  refine ⟨h, ?_, hne⟩
  refine List.Pairwise.imp_of_mem (fun {v w} hv _ hvw => ?_) h.ordered
  have := hne v hv
  simp only [vmeSpan_lo, vmeSpan_hi] at hvw
  omega

/-- The mapping at `a` has addresses that no VME had, and a new VME has them. -/
def Placed (l l' : List VME) (length a : Nat) : Prop :=
  vmeSpan.Free l a (a + length) ∧
    ∃ passed rest vme, l = passed ++ rest ∧ l' = passed ++ vme :: rest ∧ vme.start ≤ a ∧ a + length ≤ vme.end

theorem placed_in_gap {passed rest : List VME} {va addr file offset : Nat} (h : Mappings l) (hlength : length ≠ 0)
    (hroom : HasRoom l length) (hgap : findGap (roundUpPage length) 0x1000 l = (passed, va, rest))
    (hvme : vme = ⟨addr, va, add64 va (roundUpPage length), false, file, offset⟩) :
    Mappings (passed ++ vme :: rest) ∧ Placed l (passed ++ vme :: rest) length va := by
  obtain ⟨a, hlow, hhigh, hfree⟩ := hroom
  have hlen := le_pagesLength length
  have hva := findGap_va (roundUpPage length) 0x1000 l
  have happend := findGap_append (roundUpPage length) 0x1000 l
  rw [roundUpPage_eq (by omega)] at hgap hvme hva happend
  rw [hgap] at hva happend
  rw [findGap_eq (by omega) fun v hv => by have := (h.each v hv).high; omega] at hgap
  obtain ⟨hva', hpassed, hrest⟩ := Span.firstFit_fits (S := vmeSpan) (pagesLength length) h.ordered
    (fun v hv => (h.each v hv).forward) fun v hv => (h.each v hv).low
  have hleast := Span.firstFit_least (S := vmeSpan) hlow (show 0 < pagesLength length by omega) h.nonempty hfree
  rw [hgap] at hva' hpassed hrest hleast
  dsimp only at hva hva' hpassed hrest hleast happend
  have haligned : va % FRAME_SIZE = 0 := by
    rcases hva with rfl | ⟨v, hv, rfl⟩
    · simp [FRAME_SIZE]
    · exact (h.each v hv).aligned.2
  have hsum : add64 va (pagesLength length) = va + pagesLength length := Nat.mod_eq_of_lt (by omega)
  have hstop := add64_aligned haligned (pagesLength_aligned length)
  rw [hsum] at hvme hstop
  have hpriv : vme.Private := by
    subst hvme
    exact ⟨by dsimp only; omega, hva', by dsimp only; omega, ⟨haligned, hstop⟩, rfl⟩
  have hstart : vme.start = va := by rw [hvme]
  have hend : vme.end = va + pagesLength length := by rw [hvme]
  have hlist : PrivateVmes (passed ++ vme :: rest) := by
    refine ⟨Span.Ordered.insert (by rw [happend]; exact h.ordered) (fun v hv => ?_) fun v hv => ?_, fun v hv => ?_⟩
    · rw [vmeSpan_lo, hstart]
      exact hpassed v hv
    · rw [vmeSpan_hi, hend]
      exact hrest v hv
    · rcases List.mem_append.mp hv with hv | hv
      · exact h.each v (by simp [← happend, hv])
      · rcases List.mem_cons.mp hv with rfl | hv
        · exact hpriv
        · exact h.each v (by simp [← happend, hv])
  refine ⟨hlist.mappings fun v hv => ?_, fun n hn hn' => ?_, passed, rest, vme, happend.symm, rfl, by omega, by omega⟩
  · rcases List.mem_append.mp hv with hv | hv
    · exact h.nonempty v (by simp [← happend, hv])
    · rcases List.mem_cons.mp hv with rfl | hv
      · omega
      · exact h.nonempty v (by simp [← happend, hv])
  · have hround := hlist.ordered.around n (by rw [vmeSpan_lo]; omega) (by rw [vmeSpan_hi]; omega)
    rwa [happend] at hround

theorem room_of_placed (h : Mappings l') (hplaced : Placed l l' length a) : HasRoom l length := by
  obtain ⟨-, passed, rest, vme, rfl, rfl, hlo, hhi⟩ := hplaced
  have hpriv := h.each vme (by simp)
  have hpages : vme.start + pagesLength length ≤ vme.end := by
    have hle : length ≤ vme.end - vme.start := by omega
    have := pagesLength_le hle (Nat.sub_mod_eq_zero_of_mod_eq (by rw [hpriv.aligned.1, hpriv.aligned.2]))
    have := hpriv.forward
    omega
  refine ⟨vme.start, hpriv.low, Nat.le_trans hpages hpriv.high, fun n hn hn' => ?_⟩
  exact h.ordered.around n hn (by rw [vmeSpan_hi]; omega)

/-! ## The calls -/

variable {flags : BitVec 32} {file offset : Nat}

theorem mmap_refused (h : ¬ MayMap length flags file offset) :
    (mmap length flags file offset).run s = some (MAP_FAILED, s) := by
  unfold mmap
  by_cases hlength : length = 0
  · rw [if_pos hlength]
    rfl
  rw [if_neg hlength]
  by_cases hoffset : offset % FRAME_SIZE = 0
  · rw [if_neg (by simp [hoffset])]
    have hkind : ¬ (flags &&& MAP_ANONYMOUS ≠ 0 ↔ file = 0) := fun hkind => h ⟨hlength, hoffset, hkind⟩
    by_cases hanonymous : flags &&& MAP_ANONYMOUS ≠ 0
    · have hfile : file ≠ 0 := fun hfile => hkind ⟨fun _ => hfile, fun _ => hanonymous⟩
      rw [if_pos (by simp [hfile]; simpa using hanonymous)]
      rfl
    · have hfile : file = 0 := by
        by_contra hfile
        exact hkind ⟨fun h => absurd h hanonymous, fun h => absurd h hfile⟩
      rw [if_neg (by simp [hfile]), if_pos (by simp [hfile]; simpa using hanonymous)]
      rfl
  · rw [if_pos hoffset]
    rfl

theorem mmap_private {passed rest : List VME} {va : Nat} (hflags : flags &&& MAP_SHARED = 0)
    (h : MayMap length flags file offset)
    (hgap : findGap (roundUpPage length) 0x1000 s.privateVmes = (passed, va, rest)) :
    (mmap length flags file offset).run s = some (va, { s with
      vmeLive := s.newVme s.vmeLive :: s.vmeLive
      privateVmes := passed ++
        ⟨s.newVme s.vmeLive, va, add64 va (roundUpPage length), false, file, offset⟩ :: rest }) := by
  obtain ⟨hlength, hoffset, hkind⟩ := h
  unfold mmap
  have hanonymous : ¬ ((decide (flags &&& MAP_ANONYMOUS ≠ 0) = true) ∧ file ≠ 0) := by
    rintro ⟨h, hfile⟩
    exact hfile (hkind.mp (by simpa using h))
  have hnamed : ¬ (¬ (decide (flags &&& MAP_ANONYMOUS ≠ 0) = true) ∧ file = 0) := by
    rintro ⟨h, hfile⟩
    exact h (by simpa using hkind.mpr hfile)
  rw [if_neg hlength, if_neg (by simp [hoffset]), if_neg hanonymous, if_neg hnamed]
  simp only [hflags]
  rw [if_neg (by simp), Prog.get_bind_run, hgap]
  rfl

/-! ## Runs -/

/-- The calls of a process, and what else happens. -/
inductive MapCall where
  | mmap (length : Nat) (flags : BitVec 32) (file offset : Nat)
  | munmap (start length : Nat)
  | other

/-- Private `mmap` and `munmap` with arguments of 64 bits. The list is left alone by anything else. -/
def mapSystem : System Machine MapCall where
  init s := Mappings s.privateVmes
  step s call t :=
    match call with
    | .mmap length flags file offset => length < 2 ^ 64 ∧ offset < 2 ^ 64 ∧ flags &&& MAP_SHARED = 0 ∧
        ∃ a, (Kernel.mmap length flags file offset).run s = some (a, t)
    | .munmap start length => start < 2 ^ 64 ∧ length < 2 ^ 64 ∧ ∃ r, (Kernel.munmap start length).run s = some (r, t)
    | .other => t.privateVmes = s.privateVmes

/-- A mapping that passes the checks has room. -/
def RoomFor (s : Machine) : MapCall → Prop
  | .mmap length flags file offset => MayMap length flags file offset → HasRoom s.privateVmes length
  | _ => True

theorem Mappings.cut {start stop : Nat} (h : Mappings l) (hcut : vmeSpan.CutOut VME.Part start stop l l') :
    Mappings l' := by
  refine (h.toPrivateVmes.cut hcut).mappings fun w hw => ?_
  obtain ⟨v, hv, hpart, -⟩ := hcut.part hw
  exact hpart.nonempty (h.nonempty v hv)

theorem munmap_mappings {start : Nat} {r : Int} (h : Mappings s.privateVmes)
    (hrun : (munmap start length).run s = some (r, t)) : Mappings t.privateVmes := by
  by_cases hmay : s.mayUnmap start length
  · exact h.cut (munmap_cuts h.toPrivateVmes hmay hrun).1
  · rw [munmap_refused hmay, Option.some.injEq, Prod.mk.injEq] at hrun
    rw [← hrun.2]
    exact h

theorem mmap_mappings_iff (h : Mappings s.privateVmes) (hflags : flags &&& MAP_SHARED = 0) :
    ∃ a t, (mmap length flags file offset).run s = some (a, t) ∧
      ((Mappings t.privateVmes ∧ (a ≠ MAP_FAILED → Placed s.privateVmes t.privateVmes length a)) ↔
        RoomFor s (.mmap length flags file offset)) := by
  by_cases hmay : MayMap length flags file offset
  · obtain ⟨passed, va, rest, hgap⟩ : ∃ passed va rest,
        findGap (roundUpPage length) 0x1000 s.privateVmes = (passed, va, rest) := ⟨_, _, _, rfl⟩
    refine ⟨va, _, mmap_private hflags hmay hgap, fun hkept _ => ?_, fun hroom => ?_⟩
    · -- The address is that of a page, so it is not -1.
      have hva := findGap_va (roundUpPage length) 0x1000 s.privateVmes
      rw [hgap] at hva
      have hne : va ≠ MAP_FAILED := by
        unfold MAP_FAILED
        rcases hva with hva | ⟨v, hv, hva⟩
        · dsimp only at hva
          omega
        · have := (h.each v hv).high
          dsimp only at hva
          omega
      exact room_of_placed hkept.1 (hkept.2 hne)
    · obtain ⟨hlist, hplaced⟩ := placed_in_gap h hmay.1 (hroom hmay) hgap rfl
      exact ⟨hlist, fun _ => hplaced⟩
  · refine ⟨MAP_FAILED, s, mmap_refused hmay, fun _ hm => absurd hm hmay, fun _ => ⟨h, fun hne => absurd rfl hne⟩⟩

theorem mapSystem_step {call : MapCall} (h : Mappings s.privateVmes) (hroom : RoomFor s call)
    (hstep : mapSystem.step s call t) : Mappings t.privateVmes := by
  cases call with
  | mmap length flags file offset =>
    obtain ⟨-, -, hflags, a, hrun⟩ := hstep
    obtain ⟨a', t', hrun', hkept⟩ : ∃ a' t', (Kernel.mmap length flags file offset).run s = some (a', t') ∧
        Mappings t'.privateVmes := by
      obtain ⟨a', t', hrun', hiff⟩ := mmap_mappings_iff h hflags
      exact ⟨a', t', hrun', (hiff.mpr hroom).1⟩
    rw [hrun', Option.some.injEq, Prod.mk.injEq] at hrun
    rw [← hrun.2]
    exact hkept
  | munmap start length =>
    obtain ⟨-, -, r, hrun⟩ := hstep
    exact munmap_mappings h hrun
  | other =>
    have hsame : t.privateVmes = s.privateVmes := hstep
    rw [hsame]
    exact h

/-- **The private mappings.** While every mapping has room, the list stays in order and every mapping is new. One
that has no room breaks this. -/
theorem mappings_kept_iff (hs : mapSystem.GuardedReachable RoomFor s) :
    Mappings s.privateVmes ∧ ∀ length flags file offset, flags &&& MAP_SHARED = 0 →
      ∃ a t, (mmap length flags file offset).run s = some (a, t) ∧
        ((Mappings t.privateVmes ∧ (a ≠ MAP_FAILED → Placed s.privateVmes t.privateVmes length a)) ↔
          RoomFor s (.mmap length flags file offset)) := by
  obtain ⟨s₀, calls, h₀, hrun⟩ := hs
  have hinit : Mappings s₀.privateVmes := h₀
  have h : Mappings s.privateVmes :=
    hrun.preserves (I := fun s => Mappings s.privateVmes) (fun _ _ _ h hg hstep => mapSystem_step h hg hstep) hinit
  exact ⟨h, fun _ _ _ _ hflags => mmap_mappings_iff h hflags⟩

end

/-! ## A length that rounds to nothing -/

theorem onePage_mappings : Mappings onePage.privateVmes := by
  refine PrivateVmes.mappings ⟨List.pairwise_singleton _ _, fun vme hvme => ?_⟩ fun vme hvme => ?_
  · obtain rfl := List.mem_singleton.mp hvme
    exact ⟨by decide, by decide, by decide, by unfold FRAME_SIZE; decide, rfl⟩
  · obtain rfl := List.mem_singleton.mp hvme
    decide

/-- `onePage` with a page more. -/
def twoMappings : Machine :=
  { onePage with
    vmeLive := onePage.newVme onePage.vmeLive :: onePage.vmeLive
    privateVmes := ⟨onePage.newVme onePage.vmeLive, 0x1000, 0x2000, false, 0, 0⟩ :: onePage.privateVmes }

theorem twoMappings_reachable : mapSystem.GuardedReachable RoomFor twoMappings := by
  have hpages : pagesLength 0x1000 = 0x1000 := by
    simp only [pagesLength, FRAME_SIZE]
  have hround : roundUpPage 0x1000 = 0x1000 := by
    rw [roundUpPage_eq (by rw [hpages]; omega), hpages]
  have hroom : HasRoom onePage.privateVmes 0x1000 := by
    refine ⟨0x1000, le_rfl, by rw [hpages]; omega, fun n hn hn' => ?_⟩
    rw [hpages] at hn'
    rintro ⟨vme, hvme, hlo, -⟩
    obtain rfl := List.mem_singleton.mp hvme
    simp only [vmeSpan_lo] at hlo
    omega
  have hgap : findGap (roundUpPage 0x1000) 0x1000 onePage.privateVmes = ([], 0x1000, onePage.privateVmes) := by
    rw [hround]
    rfl
  have hmay : MayMap 0x1000 MAP_ANONYMOUS 0 0 := ⟨by decide, by simp, by decide⟩
  have hrun := mmap_private (by decide) hmay hgap
  rw [hround] at hrun
  exact ⟨onePage, [.mmap 0x1000 MAP_ANONYMOUS 0 0], onePage_mappings,
    (System.GuardedRun.nil onePage).snoc (fun _ => hroom)
    ⟨by omega, by omega, by decide, _, hrun⟩⟩

theorem twoMappings_kept : Mappings twoMappings.privateVmes ∧ ∀ length flags file offset, flags &&& MAP_SHARED = 0 →
    ∃ a t, (mmap length flags file offset).run twoMappings = some (a, t) ∧
      ((Mappings t.privateVmes ∧ (a ≠ MAP_FAILED → Placed twoMappings.privateVmes t.privateVmes length a)) ↔
        RoomFor twoMappings (.mmap length flags file offset)) := mappings_kept_iff twoMappings_reachable

/-- A mapping of all but the last byte of the address space succeeds, and is empty. -/
theorem onePage_empty_mapping : ∃ s t a, mapSystem.Reachable s ∧
    (mmap (2 ^ 64 - 1) MAP_ANONYMOUS 0 0).run s = some (a, t) ∧ a ≠ MAP_FAILED ∧ ¬ Mappings t.privateVmes := by
  have hmay : MayMap (2 ^ 64 - 1) MAP_ANONYMOUS 0 0 := ⟨by decide, by simp, by decide⟩
  have hround : roundUpPage (2 ^ 64 - 1) = 0 := by
    simp only [roundUpPage, add64, FRAME_SIZE]
    rfl
  have hgap : findGap (roundUpPage (2 ^ 64 - 1)) 0x1000 onePage.privateVmes = ([], 0x1000, onePage.privateVmes) := by
    rw [hround]
    rfl
  refine ⟨onePage, _, _, ⟨onePage, [], onePage_mappings, System.Run.nil onePage⟩, mmap_private (by decide) hmay hgap,
    by decide, fun h => ?_⟩
  have hne := h.nonempty _ (List.mem_append.mpr (Or.inr List.mem_cons_self))
  rw [hround] at hne
  exact absurd hne (by decide)

end Kernel
