import Kernel.PhysMem.Proofs
import Kernel.Lib.Transition
import Mathlib.Data.List.Induction

/-!
# Every usable frame is in one place

Any run of `alloc` and `free` from boot, with the owners of allocated frames
writing to them in between.
-/

namespace Kernel

open Lib

/-! ## Boot -/

def MemmapEntry.usable (e : MemmapEntry) : Prop := e.type = LIMINE_MEMMAP_USABLE

instance (e : MemmapEntry) : Decidable e.usable := by unfold MemmapEntry.usable; infer_instance

def MemmapEntry.range (e : MemmapEntry) : Range := ⟨e.base, e.length⟩

/-- A frame of some usable entry. -/
def usableFrame (entries : List MemmapEntry) (f : Nat) : Prop := ∃ e ∈ entries, e.usable ∧ e.range.has f

/-- What the boot loader promises: usable entries are whole frames, do not overlap, and are direct-mapped. -/
structure BootMap (hhdm_offset : Nat) (entries : List MemmapEntry) : Prop where
  hhdm_high : 2 ^ 64 - 2 ^ 47 ≤ hhdm_offset
  hhdm_aligned : hhdm_offset % FRAME_SIZE = 0
  base_aligned : ∀ e ∈ entries, e.usable → e.base % FRAME_SIZE = 0
  length_aligned : ∀ e ∈ entries, e.usable → e.length % FRAME_SIZE = 0
  length_pos : ∀ e ∈ entries, e.usable → 0 < e.length
  mapped : ∀ e ∈ entries, e.usable → hhdm_offset + e.base + e.length ≤ 2 ^ 64
  disjoint : entries.Pairwise fun a b =>
    a.usable → b.usable → a.base + a.length ≤ b.base ∨ b.base + b.length ≤ a.base

/-- The allocator as its constructor leaves it. Memory holds anything. -/
def Booted (entries : List MemmapEntry) (s : Machine) : Prop :=
  BootMap s.hhdm_offset entries ∧ s.avail = 0 ∧ s.free_ranges = PhysMem.init entries

theorem PhysMem.init_append (entries : List MemmapEntry) (e : MemmapEntry) :
    PhysMem.init (entries ++ [e]) =
      if e.usable then e.range :: PhysMem.init entries else PhysMem.init entries := by
  simp only [PhysMem.init, List.foldl_append, List.foldl_cons, List.foldl_nil]
  rfl

theorem PhysMem.mem_init (entries : List MemmapEntry) (r : Range) :
    r ∈ PhysMem.init entries ↔ ∃ e ∈ entries, e.usable ∧ e.range = r := by
  induction entries using List.reverseRecOn with
  | nil => simp [PhysMem.init]
  | append_singleton entries e ih =>
    rw [PhysMem.init_append]
    split_ifs with he
    · rw [List.mem_cons, ih]
      simp only [List.mem_append, List.mem_singleton]
      grind
    · rw [ih]
      simp only [List.mem_append, List.mem_singleton]
      grind

theorem PhysMem.init_disjoint (entries : List MemmapEntry)
    (h : entries.Pairwise fun a b =>
      a.usable → b.usable → a.base + a.length ≤ b.base ∨ b.base + b.length ≤ a.base) :
    (PhysMem.init entries).Pairwise fun a b => ∀ f, a.has f → ¬ b.has f := by
  induction entries using List.reverseRecOn with
  | nil => exact List.Pairwise.nil
  | append_singleton entries e ih =>
    rw [List.pairwise_append] at h
    rw [PhysMem.init_append]
    split_ifs with he
    · refine List.pairwise_cons.mpr ⟨?_, ih h.1⟩
      intro r hr f hf hrf
      obtain ⟨d, hd, hdu, rfl⟩ := (PhysMem.mem_init entries r).mp hr
      have := h.2.2 d hd e (List.mem_singleton_self e) hdu he
      simp only [Range.has, MemmapEntry.range] at hf hrf
      omega
    · exact ih h.1

theorem Booted.freeList {entries : List MemmapEntry} {s : Machine} (h : Booted entries s) : FreeList s [] where
  hhdm := ⟨h.1.hhdm_high, h.1.hhdm_aligned⟩
  chain := h.2.1
  nodup := List.nodup_nil
  mapped := by simp
  ranges r hr := by
    rw [h.2.2, PhysMem.mem_init] at hr
    obtain ⟨e, he, hu, rfl⟩ := hr
    exact ⟨h.1.base_aligned e he hu, h.1.length_aligned e he hu, h.1.length_pos e he hu, h.1.mapped e he hu⟩
  disjoint := by rw [h.2.2]; exact PhysMem.init_disjoint entries h.1.disjoint
  apart := by simp

theorem Booted.inRanges {entries : List MemmapEntry} {s : Machine} (h : Booted entries s) (f : Nat) :
    s.inRanges f ↔ usableFrame entries f := by
  simp only [Machine.inRanges, usableFrame, h.2.2, PhysMem.mem_init]
  grind

theorem Booted.physWf {entries : List MemmapEntry} {s : Machine} (h : Booted entries s) :
    PhysWf s {f | usableFrame entries f} :=
  ⟨[], h.freeList, fun f => by rw [h.inRanges]; simp⟩

/-! ## Runs -/

/-- The machine, and the frames that were handed out and not freed. -/
structure PhysState where
  machine : Machine
  allocated : Set Nat

inductive PhysOp where
  | alloc
  | free (ppn : Nat)
  | write (ppn i : Nat) (w : Word)

/-- One call, or one write by the owner of a frame. -/
inductive PhysStep : PhysState → PhysOp → PhysState → Prop where
  | alloc {s : PhysState} {f : Nat} {t : Machine} :
      PhysMem.alloc.run s.machine = some (f, t) →
      PhysStep s .alloc ⟨t, insert f s.allocated⟩
  | free {s : PhysState} {f : Nat} {t : Machine} :
      f ∈ s.allocated → (PhysMem.free f).run s.machine = some ((), t) →
      PhysStep s (.free f) ⟨t, s.allocated \ {f}⟩
  | write {s : PhysState} {f i : Nat} {w : Word} :
      f ∈ s.allocated → i < 512 →
      PhysStep s (.write f i w) ⟨s.machine.poke f i w, s.allocated⟩

/-- All runs from the boot map `entries`. -/
def physSystem (entries : List MemmapEntry) : System PhysState PhysOp where
  init s := Booted entries s.machine ∧ s.allocated = ∅
  step := PhysStep

/-- Every usable frame is allocated or free, and no frame is both. -/
structure PhysInv (entries : List MemmapEntry) (s : PhysState) : Prop where
  hhdm : BootMap s.machine.hhdm_offset entries
  wf : PhysWf s.machine ({f | usableFrame entries f} \ s.allocated)
  usable : ∀ f ∈ s.allocated, usableFrame entries f

theorem usableFrame.maps {entries : List MemmapEntry} {s : Machine} (h : BootMap s.hhdm_offset entries)
    {f : Nat} (hf : usableFrame entries f) : s.maps f := by
  obtain ⟨e, he, hu, hf⟩ := hf
  exact Range.Ok.maps ⟨h.base_aligned e he hu, h.length_aligned e he hu, h.length_pos e he hu,
    h.mapped e he hu⟩ hf

theorem PhysInv.step {entries : List MemmapEntry} {s t : PhysState} {op : PhysOp}
    (h : PhysInv entries s) (hs : PhysStep s op t) : PhysInv entries t := by
  cases hs with
  | @alloc f u hrun =>
    have hspec := alloc_spec h.wf hrun
    refine ⟨by rw [Machine.regs_hhdm hspec.regs]; exact h.hhdm, ?_, ?_⟩
    · have hset : {g | usableFrame entries g} \ insert f s.allocated =
          ({g | usableFrame entries g} \ s.allocated) \ {f} := by
        rw [Set.sdiff_sdiff, Set.union_singleton]
      simpa only [hset] using hspec.wf
    · intro g hg
      rcases hg with rfl | hg
      · exact hspec.mem_free.1
      · exact h.usable g hg
  | @free f u hf hrun =>
    have hmaps := (h.usable f hf).maps h.hhdm
    have hu := free_spec h.wf hmaps hrun
    subst hu
    refine ⟨h.hhdm, ?_, fun g hg => h.usable g hg.1⟩
    have hset : {g | usableFrame entries g} \ (s.allocated \ {f}) =
        insert f ({g | usableFrame entries g} \ s.allocated) := by
      have hf' : {f} ⊆ {g | usableFrame entries g} := Set.singleton_subset_iff.mpr (h.usable f hf)
      rw [Set.sdiff_sdiff_right, Set.inter_eq_self_of_subset_right hf', Set.union_singleton]
    simpa only [hset] using h.wf.freed (fun hm => hm.2 hf) hmaps
  | @write f i w hf hi =>
    refine ⟨h.hhdm, h.wf.congr rfl rfl rfl fun g hg => ?_, h.usable⟩
    exact Machine.poke_mem_of_ne fun hgf => hg.2 (hgf ▸ hf)

theorem physInv_inductive (entries : List MemmapEntry) :
    (physSystem entries).Inductive (PhysInv entries) where
  init s hs := by
    obtain ⟨hboot, hempty⟩ := hs
    refine ⟨hboot.1, ?_, by simp [hempty]⟩
    rw [hempty, Set.sdiff_empty]
    exact hboot.physWf
  step s op t h hs := h.step hs

/-- What holds of the three places a usable frame can be in. -/
structure Partitioned (entries : List MemmapEntry) (s : PhysState) (l : List Nat) : Prop where
  /-- `avail` threads through the frames of `l`, each decoded from its link. -/
  avail : AvailList s.machine s.machine.avail l
  avail_once : l.Nodup
  ranges_once : s.machine.free_ranges.Pairwise fun a b => ∀ f, a.has f → ¬ b.has f
  covers : ∀ f, usableFrame entries f ↔ f ∈ s.allocated ∨ f ∈ l ∨ s.machine.inRanges f
  allocated_not_avail : ∀ f ∈ s.allocated, f ∉ l
  allocated_not_range : ∀ f ∈ s.allocated, ¬ s.machine.inRanges f
  avail_not_range : ∀ f ∈ l, ¬ s.machine.inRanges f

theorem PhysInv.partitioned {entries : List MemmapEntry} {s : PhysState} (h : PhysInv entries s) :
    ∃ l, Partitioned entries s l := by
  obtain ⟨l, hl, hF⟩ := h.wf
  refine ⟨l, hl.chain, hl.nodup, hl.disjoint, ?_, ?_, ?_, hl.apart⟩
  · intro f
    have := hF f
    have := h.usable f
    simp only [Set.mem_sdiff, Set.mem_ofPred_eq] at *
    grind
  · intro f hf hfl
    exact ((hF f).mpr (Or.inl hfl)).2 hf
  · intro f hf hfr
    exact ((hF f).mpr (Or.inr hfr)).2 hf

/-- **Frame partition.** In every run from boot the usable frames are the allocated ones, the ones
on `avail` and the ones in `free_ranges`, each in one place only. `alloc` returns a usable frame
that was not allocated, and it panics only when every usable frame is allocated. -/
theorem frames_partitioned {entries : List MemmapEntry} {s : PhysState}
    (h : (physSystem entries).Reachable s) :
    (∃ l, Partitioned entries s l) ∧
    (∀ f t, PhysMem.alloc.run s.machine = some (f, t) → usableFrame entries f ∧ f ∉ s.allocated) ∧
    (PhysMem.alloc.run s.machine = none → ∀ f, usableFrame entries f → f ∈ s.allocated) := by
  have hinv := (physInv_inductive entries).reachable h
  refine ⟨hinv.partitioned, ?_, ?_⟩
  · intro f t hrun
    exact (alloc_spec hinv.wf hrun).mem_free
  · intro hnone f hf
    by_contra hfa
    rcases alloc_total hinv.wf with ⟨g, u, hg, _⟩ | ⟨_, hempty⟩
    · rw [hg] at hnone; simp at hnone
    · exact hempty f ⟨hf, hfa⟩

/-! ## A machine with two usable frames -/

def smallEntry : MemmapEntry := ⟨0x100000, 0x2000, LIMINE_MEMMAP_USABLE⟩

def smallMachine : Machine where
  hhdm_offset := 0xFFFF800000000000
  common_cr3 := 0
  mem _ _ := 0xFF
  avail := 0
  free_ranges := [smallEntry.range]
  cr3 := 0
  n_active := 0
  privateVmes := []
  sharedVmes := []
  heapStart := 0
  heapBreak := 0
  vmeLive := []
  newVme _ := 0
  acting := 0
  owner _ := none

theorem small_booted : Booted [smallEntry] smallMachine := by
  refine ⟨⟨by decide, by rw [FRAME_SIZE]; decide, ?_, ?_, ?_, ?_, ?_⟩, rfl, rfl⟩
  · intro e he _; obtain rfl := List.mem_singleton.mp he; rw [FRAME_SIZE]; decide
  · intro e he _; obtain rfl := List.mem_singleton.mp he; rw [FRAME_SIZE]; decide
  · intro e he _; obtain rfl := List.mem_singleton.mp he; decide
  · intro e he _; obtain rfl := List.mem_singleton.mp he; decide
  · exact List.pairwise_singleton _ _

/-- The state after the first `alloc`. -/
def smallState : PhysState :=
  ⟨smallMachine.tookRange smallEntry.range [], insert (smallEntry.range.base / FRAME_SIZE) ∅⟩

theorem small_reachable : (physSystem [smallEntry]).Reachable smallState := by
  have hl := small_booted.freeList
  have hok : smallEntry.range.Ok smallMachine := hl.ranges _ List.mem_cons_self
  have hrun : PhysMem.alloc.run smallMachine = _ := alloc_range hl.hhdm rfl rfl hok
  exact ⟨⟨smallMachine, ∅⟩, _, ⟨small_booted, rfl⟩, (System.Run.nil _).snoc (PhysStep.alloc hrun)⟩

theorem small_usable {f : Nat} : usableFrame [smallEntry] f ↔ f = 256 ∨ f = 257 := by
  simp only [usableFrame, List.mem_singleton, exists_eq_left, MemmapEntry.usable, smallEntry,
    MemmapEntry.range, Range.has, FRAME_SIZE, true_and]
  omega

theorem small_freed : ∃ s, (physSystem [smallEntry]).Reachable s ∧ s.machine.avail ≠ 0 ∧ s.allocated.Nonempty := by
  have hinv := (physInv_inductive [smallEntry]).reachable small_reachable
  have hfirst : smallEntry.range.base / FRAME_SIZE = 256 := by rw [FRAME_SIZE]; rfl
  have hsecond : 257 ∈ {f | usableFrame [smallEntry] f} \ smallState.allocated := by
    refine ⟨small_usable.mpr (Or.inr rfl), ?_⟩
    rintro (h | h)
    · rw [hfirst] at h
      cases h
    · cases h
  obtain ⟨g, u, halloc⟩ := alloc_returns hinv.wf ⟨257, hsecond⟩
  have hspec := alloc_spec hinv.wf halloc
  have hreach := small_reachable.step (PhysStep.alloc halloc)
  have hinv := (physInv_inductive [smallEntry]).reachable hreach
  have hmem : 256 ∈ insert g smallState.allocated := Or.inr (Or.inl hfirst.symm)
  have hmaps : u.maps 256 := (small_usable.mpr (Or.inl rfl)).maps hinv.hhdm
  refine ⟨_, hreach.step (PhysStep.free hmem (free_run hinv.wf.hhdm hmaps)), vaOf_ne_zero hinv.wf.hhdm 256, g,
    Or.inl rfl, ?_⟩
  rintro rfl
  exact hspec.mem_free.2 (Or.inl hfirst.symm)

theorem frames_partitioned_small :
    ∃ s l, Partitioned [smallEntry] s l ∧ s.machine.avail ≠ 0 ∧ s.allocated.Nonempty := by
  obtain ⟨s, hreach, havail, hallocated⟩ := small_freed
  obtain ⟨l, hl⟩ := (frames_partitioned hreach).1
  exact ⟨s, l, hl, havail, hallocated⟩

end Kernel
