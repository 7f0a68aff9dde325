import Kernel.Vmm.Isolation
import Kernel.Vmm.Memory

/-!
# What new pages read

`alloc` clears a frame that was never used, and hands out a recycled one as it
is. `map_range` does not clear the frames of its pages.
-/

namespace Kernel

open Lib

/-- A page that is in `t` and was not in `s` reads as zeros. -/
def NewPagesZero (s t : Machine) (root : Nat) : Prop :=
  ∀ a, a < 2 ^ 47 → s.userByte root a = none → ∀ b, t.userByte root a = some b → b = 0

/-- If the page is not there and a recycled frame is next, that frame has no word but zeros. -/
def pageZero (va : Nat) (s : Machine) : Prop :=
  s.pageEntry s.root (va / FRAME_SIZE) = none → s.avail ≠ 0 → ∀ i, i < 512 → s.mem (s.frameOf s.avail) i = 0

def mapRangeZero (user write : Bool) (start size : Nat) (s : Machine) : Prop :=
  size ≠ 0 → ∀ k, k < pageCount (start / FRAME_SIZE * FRAME_SIZE) (mapEnd start size) → ∀ u,
    (Prog.forRange k fun k => mapPage user write (start / FRAME_SIZE * FRAME_SIZE + k * FRAME_SIZE)).run s =
        some ((), u) →
    pageZero (start / FRAME_SIZE * FRAME_SIZE + k * FRAME_SIZE) u

/-! ## One page -/

section

variable {s t u : Machine} {F D : Set Nat} {root va f : Nat} {user write : Bool}

theorem frameByte_zero : (∀ j, j < 4096 → s.frameByte f j = 0) ↔ ∀ i, i < 512 → s.mem f i = 0 := by
  constructor
  · intro h i hi
    have hbytes : ∀ k, k < 8 → wordByte (s.mem f i) k = wordByte 0 k := by
      intro k hk
      have hj := h (8 * i + k) (by omega)
      rw [Machine.frameByte, show (8 * i + k) / 8 = i by omega, show (8 * i + k) % 8 = k by omega] at hj
      rw [hj]
      simp [wordByte]
    rw [← wordOfBytes_wordByte (s.mem f i), ← wordOfBytes_wordByte 0]
    exact wordOfBytes_congr hbytes
  · intro h j hj
    rw [Machine.frameByte, h (j / 8) (by omega)]
    simp [wordByte]

/-- What `alloc` hands out has no word but zeros, unless it is recycled and had others. -/
theorem alloc_zero (h : PhysWf s F) (halloc : PhysMem.alloc.run s = some (f, u)) :
    (∀ i, i < 512 → u.mem f i = 0) ↔ (s.avail ≠ 0 → ∀ i, i < 512 → s.mem (s.frameOf s.avail) i = 0) := by
  by_cases ha : s.avail = 0
  · have hzero := (alloc_cleared h ha halloc).2
    exact iff_of_true hzero fun hne => absurd ha hne
  · obtain ⟨l, hl, -⟩ := h
    cases l with
    | nil => exact absurd hl.chain ha
    | cons g l =>
      rw [alloc_avail hl, Option.some.injEq, Prod.mk.injEq] at halloc
      obtain ⟨rfl, rfl⟩ := halloc
      have hframe : s.frameOf s.avail = g := by
        rw [hl.chain.1]
        exact frameOf_vaOf s g 0 (by omega)
      rw [hframe]
      exact ⟨fun hzero _ => hzero, fun hzero => hzero ha⟩

/-- A recycled frame with another behind it holds the link to that one. -/
theorem FreeList.link_ne_zero {g : Nat} {l : List Nat} (h : FreeList s (f :: g :: l)) : s.mem f 0 ≠ 0 := by
  obtain ⟨-, -, hlink, -⟩ := h.chain
  intro hzero
  rw [hzero] at hlink
  exact vaOf_ne_zero h.hhdm g hlink.symm

theorem mapPage_zero (h : Space s F D s.acting root) (hr : OnRoot s root) (hva : va < 2 ^ 47) (hclean : pageClean va s)
    (hrun : (mapPage user write va).run s = some ((), t)) :
    (∀ a, a < 2 ^ 47 → ∀ b, s.userByte root a = some b → t.userByte root a = some b) ∧
      (NewPagesZero s t root ↔ pageZero va s) := by
  rw [pageZero, hr.root h.root_lt]
  cases he : s.pageEntry root (va / FRAME_SIZE) with
  | some entry =>
    rw [mapPage_some h hr hva he, Option.some.injEq, Prod.mk.injEq] at hrun
    obtain ⟨-, rfl⟩ := hrun
    refine ⟨fun _ _ _ hb => hb, iff_of_true (fun a _ hnone b hb => ?_) nofun⟩
    rw [hnone] at hb
    cases hb
  | none =>
    obtain ⟨f, u, F', halloc, hadded⟩ := mapPage_adds h hr hva hclean he hrun
    have hbyte := fun a ha => hadded.userByte (a := a) (leafFlags_masked user write) ha
    have hnone : ∀ a, a / FRAME_SIZE = va / FRAME_SIZE → s.userByte root a = none := by
      intro a ha
      rw [Machine.userByte, ha, he]
      rfl
    refine ⟨fun a ha b hb => ?_, ?_⟩
    · rw [hbyte a ha, if_neg fun e => ?_]
      · exact hb
      · rw [hnone a e] at hb
        cases hb
    · refine Iff.trans ?_ (forall_prop_of_true rfl).symm
      rw [← alloc_zero h.wf halloc, ← frameByte_zero]
      constructor
      · intro hzero j hj
        have hpage : (va / FRAME_SIZE * FRAME_SIZE + j) / FRAME_SIZE = va / FRAME_SIZE := by
          simp only [FRAME_SIZE]; omega
        have hoff : (va / FRAME_SIZE * FRAME_SIZE + j) % FRAME_SIZE = j := by
          simp only [FRAME_SIZE]; omega
        have hlt : va / FRAME_SIZE * FRAME_SIZE + j < 2 ^ 47 := by
          simp only [FRAME_SIZE]; omega
        refine hzero _ hlt (hnone _ hpage) _ ?_
        rw [hbyte _ hlt, if_pos hpage, hoff]
      · intro hzero a ha hs b hb
        rw [hbyte a ha] at hb
        split_ifs at hb with hpage
        · rw [← Option.some.inj hb]
          exact hzero _ (by simp only [FRAME_SIZE]; omega)
        · rw [hs] at hb
          cases hb

end

/-! ## A range of pages -/

/-- After `k` turns of the loop over the pages from `first` on. -/
structure PagesSoFar (s : Machine) (F D : Set Nat) (root first : Nat) (user write : Bool) (k : Nat) (u : Machine) :
    Prop where
  space : ∃ F' D', Space u F' D' s.acting root ∧ Evolves s F D u F' D'
  turns : (Prog.forRange k fun k => mapPage user write (first + k * FRAME_SIZE)).run s = some ((), u)
  kept : ∀ a, a < 2 ^ 47 → ∀ b, s.userByte root a = some b → u.userByte root a = some b
  zero : NewPagesZero s u root ↔ ∀ i, i < k → ∀ v,
    (Prog.forRange i fun k => mapPage user write (first + k * FRAME_SIZE)).run s = some ((), v) →
    pageZero (first + i * FRAME_SIZE) v

section

variable {s t u v : Machine} {F D : Set Nat} {root first stop start size k : Nat} {user write : Bool}

theorem NewPagesZero.trans (hu : ∀ a, a < 2 ^ 47 → ∀ b, s.userByte root a = some b → u.userByte root a = some b)
    (hv : ∀ a, a < 2 ^ 47 → ∀ b, u.userByte root a = some b → v.userByte root a = some b) :
    NewPagesZero s v root ↔ NewPagesZero s u root ∧ NewPagesZero u v root := by
  constructor
  · intro h
    refine ⟨fun a ha hs b hb => h a ha hs b (hv a ha b hb), fun a ha hnone b hb => h a ha ?_ b hb⟩
    cases hs : s.userByte root a with
    | none => rfl
    | some c =>
      rw [hu a ha c hs] at hnone
      cases hnone
  · rintro ⟨h₁, h₂⟩ a ha hs b hb
    cases hua : u.userByte root a with
    | none => exact h₂ a ha hua b hb
    | some c =>
      rw [hv a ha c hua, Option.some.injEq] at hb
      rw [← hb]
      exact h₁ a ha hs c hua

theorem PagesSoFar.turn (hso : PagesSoFar s F D root first user write k u) (hr : OnRoot s root)
    (hva : first + k * FRAME_SIZE < 2 ^ 47) (hclean : pageClean (first + k * FRAME_SIZE) u)
    (hrun : (mapPage user write (first + k * FRAME_SIZE)).run u = some ((), v)) :
    PagesSoFar s F D root first user write (k + 1) v := by
  obtain ⟨F', D', hu, he⟩ := hso.space
  have hact := Machine.regs_acting he.regs
  rw [← hact] at hu
  obtain ⟨hkept, hzero⟩ := mapPage_zero hu (hr.congr he.regs) hva hclean hrun
  obtain ⟨F'', D'', hv, he'⟩ := mapPage_spec hu (hr.congr he.regs) hva hclean hrun
  rw [hact] at hv
  refine ⟨⟨F'', D'', hv, he.trans he'⟩, ?_, fun a ha b hb => hkept a ha b (hso.kept a ha b hb), ?_⟩
  · rw [Prog.forRange_succ, Prog.bind_run hso.turns]
    exact hrun
  · rw [NewPagesZero.trans hso.kept hkept, hso.zero, hzero]
    constructor
    · rintro ⟨hbefore, hlast⟩ i hi w hw
      rcases Nat.lt_succ_iff_lt_or_eq.mp hi with hlt | rfl
      · exact hbefore i hlt w hw
      · rw [hso.turns, Option.some.injEq, Prod.mk.injEq] at hw
        rw [← hw.2]
        exact hlast
    · exact fun hall => ⟨fun i hi => hall i (by omega), hall k (by omega) u hso.turns⟩

theorem nextPage_le (h : start / FRAME_SIZE * FRAME_SIZE + k * FRAME_SIZE < 2 ^ 47) :
    start / FRAME_SIZE * FRAME_SIZE + (k + 1) * FRAME_SIZE ≤ 2 ^ 47 := by
  simp only [FRAME_SIZE] at *
  omega

theorem mapPage_canonical {va : Nat} (hle : va ≤ 2 ^ 47) (hrun : (mapPage user write va).run s = some ((), t)) :
    va < 2 ^ 47 := by
  rw [mapPage, isMapped, leafPte, VA] at hrun
  simp only [Prog.run_bind, Prog.run_assert] at hrun
  obtain ⟨_, _, ⟨_, _, ⟨_, _, ⟨_, _, ⟨hcanonical, -⟩, -⟩, -⟩, -⟩, -⟩ := hrun
  rcases hcanonical with hlow | hhigh
  · exact hlow
  · omega

/-- The pages that `map_range` adds read as zeros exactly when no turn takes a recycled frame that is not all zeros. -/
theorem map_range_zero (h : Space s F D s.acting root) (hr : OnRoot s root) (hstart : start < 2 ^ 47)
    (hclean : mapRangeClean user write start size s) (hrun : (map_range start size user write).run s = some ((), t)) :
    NewPagesZero s t root ↔ mapRangeZero user write start size s := by
  have hsame : NewPagesZero s s root := by
    intro a _ hnone b hb
    rw [hnone] at hb
    cases hb
  rcases map_range_loop hrun with ⟨h0, rfl⟩ | ⟨h0, hrun⟩
  · exact iff_of_true hsame fun hne => absurd h0 hne
  have hzero : PagesSoFar s F D root (start / FRAME_SIZE * FRAME_SIZE) user write 0 s :=
    ⟨⟨F, D, h, Evolves.refl s F D⟩, rfl, fun _ _ _ hb => hb,
      iff_of_true hsame fun _ hi => absurd hi (Nat.not_lt_zero _)⟩
  have hloop := Prog.forRange_inv
    (fun k u => PagesSoFar s F D root (start / FRAME_SIZE * FRAME_SIZE) user write k u ∧
      start / FRAME_SIZE * FRAME_SIZE + k * FRAME_SIZE ≤ 2 ^ 47)
    (fun k hk u v hu hstep => ?_) ⟨hzero, ?_⟩ hrun
  · rw [hloop.1.zero]
    exact ⟨fun hall _ => hall, fun hall => hall h0⟩
  · have hlt := mapPage_canonical hu.2 hstep
    exact ⟨hu.1.turn hr hlt (hclean k hk u hu.1.turns) hstep, nextPage_le hlt⟩
  · simp only [FRAME_SIZE]
    omega

end

/-! ## Histories -/

section

variable {entries : List MemmapEntry} {nodes : Nat → BlockIO} {w : World}

/-- **New pages.** After any history, the pages that `map_range` adds read as zeros exactly when no frame
that it takes for a page is a recycled one with a word other than zero. -/
theorem new_pages_zero {p start size : Nat} {user write : Bool} {P : Process} {t : Machine}
    (h : System.GuardedReachable (memorySystem entries nodes) (CleanMemory nodes) w) (hp : w.procs p = some P)
    (hstart : start < 2 ^ 47) (hclean : mapRangeClean user write start size (w.m.enter p P))
    (hrun : (map_range start size user write).run (w.m.enter p P) = some ((), t)) :
    NewPagesZero (w.m.enter p P) t P.root ↔ mapRangeZero user write start size (w.m.enter p P) := by
  obtain ⟨F, D, hinv⟩ := worldInv_of_memory h
  obtain ⟨hspace, hr, -⟩ := (hinv.procs p P hp).enter
  exact map_range_zero hspace hr hstart hclean hrun

end

theorem new_pages_zero_first : ∃ (w : World) (P : Process) (t : Machine),
    w.procs 0 = some P ∧ (map_range (508 * FRAME_SIZE) FRAME_SIZE true true).run (w.m.enter 0 P) = some ((), t) ∧
      (t.pageEntry P.root 508).isSome ∧ NewPagesZero (w.m.enter 0 P) t P.root := by
  obtain ⟨t₀, hrun₀⟩ := init_thread_returns bootMachine_booted (Set.nonempty_of_ncard_ne_zero (by
    have := bootMachine_frames
    omega))
  obtain ⟨r, hroot⟩ := init_thread_spec bootMachine_booted hrun₀
  obtain ⟨w, hw⟩ := hroot.fresh bootMachine_booted hrun₀
  obtain ⟨t, d, v, hrun, hclean, hloaded⟩ := hw.page bootMachine_frames
  obtain ⟨F, D, hinv⟩ := worldInv_of_clean hw.reach
  have hP := hinv.procs 0 _ hw.proc
  obtain ⟨a, b, c, -, hchain⟩ := hloaded.chain
  obtain ⟨entry, hentry, -⟩ := hchain.page
  refine ⟨w, _, t, hw.proc, hrun, ?_, ?_⟩
  · rw [hP.root_eq rfl]
    exact Option.isSome_of_eq_some hentry
  · refine (new_pages_zero (memory_of_world (fun _ => emptyFile) hw.reach) hw.proc (by rw [FRAME_SIZE]; omega) hclean
      hrun).mpr ?_
    intro _ k hk u hu _ havail
    have halign : 508 * FRAME_SIZE % FRAME_SIZE = 0 ∧ 508 * FRAME_SIZE + FRAME_SIZE ≤ 2 ^ 47 ∧
        508 * FRAME_SIZE / FRAME_SIZE * FRAME_SIZE = 508 * FRAME_SIZE := by
      rw [FRAME_SIZE]; omega
    rw [halign.2.2, mapEnd_one halign.1 halign.2.1, pageCount_one] at hk
    obtain rfl : k = 0 := by omega
    rw [Prog.forRange_zero, Prog.run_pure] at hu
    rw [hu.2] at havail
    exact absurd hw.avail havail

/-- The page that a parent adds after its child exited has the words of the child's root. -/
theorem new_pages_not_zero : ¬ ∀ (w : World) (P : Process) (start size : Nat) (t : Machine),
    System.GuardedReachable (worldSystem [bootEntry]) CleanStep w → w.procs 0 = some P → start + size ≤ 2 ^ 47 →
    mapRangeClean true true start size (w.m.enter 0 P) →
    (map_range start size true true).run (w.m.enter 0 P) = some ((), t) → NewPagesZero (w.m.enter 0 P) t P.root := by
  intro hall
  obtain ⟨w, r, a, b, c, f₁, f₂, f₃, f₄, e, l, h⟩ := bootMachine_booted.orphaned bootMachine_frames
  obtain ⟨F, D, hinv⟩ := worldInv_of_clean h.reach
  have hroot := (hinv.procs 0 _ h.proc).root_eq rfl
  have hpage := fun t => hall w _ (509 * FRAME_SIZE) FRAME_SIZE t h.reach h.proc
  obtain ⟨m, F, D, hm, hspace, hr, hready, -, -⟩ := h.enter
  rw [hroot, hm] at hpage
  have halign : 509 * FRAME_SIZE % FRAME_SIZE = 0 ∧ 509 * FRAME_SIZE + FRAME_SIZE ≤ 2 ^ 47 ∧
      509 * FRAME_SIZE < 2 ^ 47 ∧ 509 * FRAME_SIZE / FRAME_SIZE = 509 := by
    rw [FRAME_SIZE]; omega
  obtain ⟨hclean, t, hrun, -, -⟩ := hready.page hspace hr (by omega)
  have hzero := hpage t halign.2.1 (mapRangeClean_one halign.1 halign.2.1 hclean)
    ((map_range_one halign.1 halign.2.1).trans hrun)
  -- The child's root heads the list, and its first word is the link to the next frame.
  have hact : m.acting = 0 := by rw [← hm]; rfl
  rw [← hact] at hspace
  rw [(mapPage_zero hspace hr halign.2.2.1 hclean hrun).2, pageZero, hr.root hspace.root_lt, halign.2.2.2] at hzero
  obtain ⟨havail, -⟩ := hready.list.chain
  have hframe : m.frameOf (m.vaOf f₁) = f₁ := frameOf_vaOf m f₁ 0 (by omega)
  have hword := hzero (hready.page_none (by omega)) (by rw [havail]; exact vaOf_ne_zero hready.list.hhdm f₁)
    0 (by omega)
  rw [havail, hframe] at hword
  exact hready.list.link_ne_zero hword

end Kernel
