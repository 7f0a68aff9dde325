import Kernel.PhysMem.Code
import Mathlib.Data.Set.Insert
import Mathlib.Order.BooleanAlgebra.Set

/-!
# The frame allocator loses and duplicates nothing

The free frames are a list threaded through the frames themselves and the boot
ranges. Each operation has one spec in terms of the set of free frames.
-/

namespace Kernel

open Lib

/-! ## The direct map -/

/-- The direct map starts in the upper canonical half, at a frame boundary. -/
structure HhdmOk (s : Machine) : Prop where
  high : 2 ^ 64 - 2 ^ 47 ≤ s.hhdm_offset
  aligned : s.hhdm_offset % FRAME_SIZE = 0

/-- The direct map reaches frame `f`. -/
def Machine.maps (s : Machine) (f : Nat) : Prop := s.hhdm_offset + (f + 1) * FRAME_SIZE ≤ 2 ^ 64

def Machine.vaOf (s : Machine) (f : Nat) : Nat := s.hhdm_offset + f * FRAME_SIZE

theorem HhdmOk.congr {s t : Machine} (hs : HhdmOk s) (h : t.hhdm_offset = s.hhdm_offset) : HhdmOk t :=
  ⟨by rw [h]; exact hs.high, by rw [h]; exact hs.aligned⟩

theorem Machine.maps_congr {s t : Machine} (h : t.hhdm_offset = s.hhdm_offset) (f : Nat) :
    t.maps f ↔ s.maps f := by
  rw [maps, maps, h]

theorem Machine.vaOf_congr {s t : Machine} (h : t.hhdm_offset = s.hhdm_offset) (f : Nat) :
    t.vaOf f = s.vaOf f := by
  rw [vaOf, vaOf, h]

theorem Machine.maps_lt {s : Machine} {f : Nat} (hh : HhdmOk s) (hf : s.maps f) : f < 2 ^ 35 := by
  have := hh.high
  simp only [maps, FRAME_SIZE] at hf
  omega

theorem frameOf_vaOf (s : Machine) (f i : Nat) (hi : i < 512) : s.frameOf (s.vaOf f + 8 * i) = f := by
  simp only [Machine.frameOf, Machine.vaOf, FRAME_SIZE]; omega

theorem wordOf_vaOf (s : Machine) (f i : Nat) (hi : i < 512) : s.wordOf (s.vaOf f + 8 * i) = i := by
  simp only [Machine.wordOf, Machine.vaOf, FRAME_SIZE]; omega

theorem load_vaOf {s : Machine} {f i : Nat} (hi : i < 512) :
    (load (s.vaOf f) i).run s = some (s.mem f i, s) := by
  rw [load, Prog.get_bind_run, frameOf_vaOf s f i hi, wordOf_vaOf s f i hi]
  rfl

theorem store_vaOf {s : Machine} {f i : Nat} {w : Word} (hi : i < 512) :
    (store (s.vaOf f) i w).run s = some ((), s.poke f i w) := by
  simp [store, frameOf_vaOf, wordOf_vaOf, hi]

theorem VA.ofPPN_run {s : Machine} {f : Nat} (hh : HhdmOk s) (hf : s.maps f) :
    (VA.ofPPN f).run s = some (s.vaOf f, s) := by
  have hhigh := hh.high
  have hva : add64 (PA.ofPPN f) s.hhdm_offset = s.vaOf f := by
    simp only [Machine.maps, FRAME_SIZE] at hf
    simp only [add64, PA.ofPPN, Machine.vaOf, FRAME_SIZE]
    omega
  have hcan : canonical (s.vaOf f) := Or.inr (by rw [Machine.vaOf]; omega)
  rw [VA.ofPPN, VA.ofPA, Prog.get_bind_run, hva, VA, Prog.assert_bind_run hcan]
  rfl

theorem AvailFrame.ppn_vaOf {s : Machine} {f : Nat} (hh : HhdmOk s) (hf : s.maps f) :
    AvailFrame.ppn s (s.vaOf f) = f := by
  have := Machine.maps_lt hh hf
  simp only [Machine.maps, FRAME_SIZE] at hf
  simp only [AvailFrame.ppn, sub64, Machine.vaOf, PPN, FRAME_SIZE]; omega

/-! ## The free frames -/

/-- A range holds frame `f`. -/
def Range.has (r : Range) (f : Nat) : Prop := r.base ≤ f * FRAME_SIZE ∧ f * FRAME_SIZE < r.base + r.length

/-- A range is a positive number of whole frames that the direct map reaches. -/
structure Range.Ok (s : Machine) (r : Range) : Prop where
  base_aligned : r.base % FRAME_SIZE = 0
  length_aligned : r.length % FRAME_SIZE = 0
  length_pos : 0 < r.length
  mapped : s.hhdm_offset + r.base + r.length ≤ 2 ^ 64

/-- `p` heads a list of `AvailFrame`s that goes through the frames of `l`. -/
def AvailList (s : Machine) : Nat → List Nat → Prop
  | p, [] => p = 0
  | p, f :: l => p = s.vaOf f ∧ AvailFrame.ppn s p = f ∧ AvailList s (s.mem f 0).toNat l

def Machine.inRanges (s : Machine) (f : Nat) : Prop := ∃ r ∈ s.free_ranges, r.has f

/-- The allocator's own data is in order, with the frames of `l` on its list. -/
structure FreeList (s : Machine) (l : List Nat) : Prop where
  hhdm : HhdmOk s
  chain : AvailList s s.avail l
  nodup : l.Nodup
  mapped : ∀ f ∈ l, s.maps f
  ranges : ∀ r ∈ s.free_ranges, r.Ok s
  disjoint : s.free_ranges.Pairwise fun a b => ∀ f, a.has f → ¬ b.has f
  apart : ∀ f ∈ l, ¬ s.inRanges f

def PhysWf (s : Machine) (F : Set Nat) : Prop :=
  ∃ l, FreeList s l ∧ ∀ f, f ∈ F ↔ f ∈ l ∨ s.inRanges f

theorem Range.Ok.congr {s t : Machine} {r : Range} (hr : r.Ok s) (h : t.hhdm_offset = s.hhdm_offset) : r.Ok t :=
  ⟨hr.base_aligned, hr.length_aligned, hr.length_pos, by rw [h]; exact hr.mapped⟩

theorem Range.Ok.maps {s : Machine} {r : Range} (hr : r.Ok s) {f : Nat} (hf : r.has f) : s.maps f := by
  obtain ⟨h1, h2⟩ := hf
  have := hr.base_aligned; have := hr.length_aligned; have := hr.mapped
  simp only [Machine.maps, FRAME_SIZE] at *
  omega

theorem Range.Ok.has_base {s : Machine} {r : Range} (hr : r.Ok s) : r.has (r.base / FRAME_SIZE) := by
  have := hr.base_aligned; have := hr.length_pos
  simp only [Range.has, FRAME_SIZE] at *
  omega

theorem PhysWf.maps {s : Machine} {F : Set Nat} (h : PhysWf s F) {f : Nat} (hf : f ∈ F) : s.maps f := by
  obtain ⟨l, hl, hF⟩ := h
  rcases (hF f).mp hf with hf | ⟨r, hr, hf⟩
  · exact hl.mapped f hf
  · exact (hl.ranges r hr).maps hf

theorem PhysWf.hhdm {s : Machine} {F : Set Nat} (h : PhysWf s F) : HhdmOk s := h.choose_spec.1.hhdm

theorem AvailList.congr {s t : Machine} {l : List Nat} {p : Nat} (h : AvailList s p l)
    (hh : t.hhdm_offset = s.hhdm_offset) (hmem : ∀ f ∈ l, t.mem f = s.mem f) : AvailList t p l := by
  induction l generalizing p with
  | nil => exact h
  | cons f l ih =>
    obtain ⟨hp, hppn, hl⟩ := h
    refine ⟨by rw [hp, Machine.vaOf_congr hh], by rw [AvailFrame.ppn, hh]; exact hppn, ?_⟩
    rw [hmem f List.mem_cons_self]
    exact ih hl fun g hg => hmem g (List.mem_cons_of_mem _ hg)

theorem vaOf_ne_zero {s : Machine} (hh : HhdmOk s) (f : Nat) : s.vaOf f ≠ 0 := by
  have := hh.high
  rw [Machine.vaOf]; omega

theorem AvailList.unique {s : Machine} (hh : HhdmOk s) {p : Nat} {l l' : List Nat} (h : AvailList s p l)
    (h' : AvailList s p l') : l = l' := by
  induction l generalizing p l' with
  | nil =>
    cases l' with
    | nil => rfl
    | cons f l' => exact absurd (h'.1.symm.trans h) (vaOf_ne_zero hh f)
  | cons f l ih =>
    cases l' with
    | nil => exact absurd (h.1.symm.trans h') (vaOf_ne_zero hh f)
    | cons f' l' =>
      obtain rfl : f = f' := h.2.1.symm.trans h'.2.1
      rw [ih h.2.2 h'.2.2]

theorem FreeList.congr {s t : Machine} {l : List Nat} (h : FreeList s l)
    (hh : t.hhdm_offset = s.hhdm_offset) (ha : t.avail = s.avail) (hr : t.free_ranges = s.free_ranges)
    (hmem : ∀ f ∈ l, t.mem f = s.mem f) : FreeList t l where
  hhdm := h.hhdm.congr hh
  chain := by rw [ha]; exact h.chain.congr hh hmem
  nodup := h.nodup
  mapped f hf := (Machine.maps_congr hh f).mpr (h.mapped f hf)
  ranges r hr' := by
    rw [hr] at hr'
    exact (h.ranges r hr').congr hh
  disjoint := by rw [hr]; exact h.disjoint
  apart f hf := by rw [Machine.inRanges, hr]; exact h.apart f hf

/-- The state says which frames are free. -/
theorem PhysWf.unique {s : Machine} {F F' : Set Nat} (h : PhysWf s F) (h' : PhysWf s F') : F = F' := by
  obtain ⟨l, hl, hF⟩ := h
  obtain ⟨l', hl', hF'⟩ := h'
  obtain rfl := hl.chain.unique hl.hhdm hl'.chain
  ext f
  rw [hF, hF']

theorem PhysWf.congr {s t : Machine} {F : Set Nat} (h : PhysWf s F)
    (hh : t.hhdm_offset = s.hhdm_offset) (ha : t.avail = s.avail) (hr : t.free_ranges = s.free_ranges)
    (hmem : ∀ f ∈ F, t.mem f = s.mem f) : PhysWf t F := by
  obtain ⟨l, hl, hF⟩ := h
  refine ⟨l, hl.congr hh ha hr fun f hf => hmem f ((hF f).mpr (Or.inl hf)), ?_⟩
  intro f
  rw [hF, Machine.inRanges, Machine.inRanges, hr]

/-! ## `alloc` -/

theorem alloc_avail {s : Machine} {f : Nat} {l : List Nat} (h : FreeList s (f :: l)) :
    PhysMem.alloc.run s = some (f, { s with avail := (s.mem f 0).toNat }) := by
  have ha : s.avail = s.vaOf f := h.chain.1
  have hppn : AvailFrame.ppn s (s.vaOf f) = f := by rw [← ha]; exact h.chain.2.1
  rw [PhysMem.alloc, Prog.get_bind_run]
  simp only [ha]
  rw [if_pos (vaOf_ne_zero h.hhdm f), Prog.bind_run (load_vaOf (by omega)), Prog.modify_bind_run, hppn]
  rfl

def Machine.zeroFrame (s : Machine) (f : Nat) : Machine :=
  { s with mem := fun g j => if g = f ∧ j < 512 then 0 else s.mem g j }

theorem zero_loop {s : Machine} {f : Nat} {p : Nat} (hp : p = s.vaOf f) :
    (Prog.forRange 512 fun i => store p i 0).run s = some ((), s.zeroFrame f) := by
  let st (i : Nat) : Machine := { s with mem := fun g j => if g = f ∧ j < i then 0 else s.mem g j }
  have h0 : st 0 = s := by simp [st]
  have hstep : ∀ i, i < 512 → (store p i 0).run (st i) = some ((), st (i + 1)) := by
    intro i hi
    have hva : p = (st i).vaOf f := hp
    rw [hva, store_vaOf hi]
    simp only [Machine.poke, st, Option.some.injEq, Prod.mk.injEq, true_and, Machine.mk.injEq, and_true]
    funext g j
    split_ifs <;> first | rfl | omega
  have := Prog.forRange_trace st hstep
  rwa [h0] at this

/-- The first range loses its first frame, which is cleared. -/
def Machine.tookRange (s : Machine) (r : Range) (rest : List Range) : Machine :=
  { s.zeroFrame (r.base / FRAME_SIZE) with free_ranges := takeFrame r rest }

@[simp] theorem Machine.tookRange_free_ranges (s : Machine) (r : Range) (rest : List Range) :
    (s.tookRange r rest).free_ranges = takeFrame r rest := rfl

theorem alloc_range {s : Machine} {r : Range} {rest : List Range} (hh : HhdmOk s)
    (ha : s.avail = 0) (hr : s.free_ranges = r :: rest) (hok : r.Ok s) :
    PhysMem.alloc.run s = some (r.base / FRAME_SIZE, s.tookRange r rest) := by
  have hmaps := hok.maps hok.has_base
  have hbase : r.base = r.base / FRAME_SIZE * FRAME_SIZE := by
    have := hok.base_aligned; simp only [FRAME_SIZE] at *; omega
  let t : Machine := { s with free_ranges := takeFrame r rest }
  have hva : (VA.ofPA r.base).run t = some (t.vaOf (r.base / FRAME_SIZE), t) := by
    have ht : t.hhdm_offset = s.hhdm_offset := rfl
    have h := VA.ofPPN_run (hh.congr ht) ((Machine.maps_congr ht _).mpr hmaps)
    rwa [VA.ofPPN, PA.ofPPN, ← hbase, Nat.mod_eq_of_lt] at h
    have := hok.mapped; have := hok.length_pos; have := hh.high; omega
  rw [PhysMem.alloc, Prog.get_bind_run]
  simp only [ha, hr, ne_eq, not_true_eq_false, if_false]
  rw [Prog.modify_bind_run, Prog.bind_run hva, Prog.bind_run (zero_loop rfl), StateT.run_pure,
    PPN.ofPA, Machine.tookRange, Machine.zeroFrame, Option.pure_def, Machine.zeroFrame]

theorem alloc_empty {s : Machine} (ha : s.avail = 0) (hr : s.free_ranges = []) : PhysMem.alloc.run s = none := by
  rw [PhysMem.alloc, Prog.get_bind_run]
  simp only [ha, hr, ne_eq, not_true_eq_false, if_false]
  rfl

theorem takeFrame_eq {s : Machine} {r : Range} (hh : HhdmOk s) (hok : r.Ok s) (rest : List Range) :
    takeFrame r rest =
      if r.length = FRAME_SIZE then rest else ⟨r.base + FRAME_SIZE, r.length - FRAME_SIZE⟩ :: rest := by
  have hl := hok.length_aligned; have hpos := hok.length_pos; have hm := hok.mapped; have hhigh := hh.high
  have hadd : add64 r.base FRAME_SIZE = r.base + FRAME_SIZE := by
    simp only [add64, FRAME_SIZE] at *; omega
  have hsub : sub64 r.length FRAME_SIZE = r.length - FRAME_SIZE := by
    simp only [sub64, FRAME_SIZE] at *; omega
  have hzero : r.length - FRAME_SIZE = 0 ↔ r.length = FRAME_SIZE := by
    simp only [FRAME_SIZE] at *; omega
  rw [takeFrame, hadd, hsub]
  exact if_congr hzero rfl rfl

theorem takeFrame_has {s : Machine} {r : Range} {rest : List Range} (hh : HhdmOk s) (hok : r.Ok s) (f : Nat)
    (hrest : ∀ q ∈ rest, r.has f → ¬ q.has f) :
    (∃ q ∈ takeFrame r rest, q.has f) ↔ (∃ q ∈ r :: rest, q.has f) ∧ f ≠ r.base / FRAME_SIZE := by
  have hb := hok.base_aligned; have hl := hok.length_aligned; have hpos := hok.length_pos
  have hbase := hok.has_base
  have hr : r.has f ∧ f ≠ r.base / FRAME_SIZE ↔
      r.length ≠ FRAME_SIZE ∧ (Range.mk (r.base + FRAME_SIZE) (r.length - FRAME_SIZE)).has f := by
    simp only [Range.has, FRAME_SIZE] at *; omega
  have hne : ∀ q ∈ rest, q.has f → f ≠ r.base / FRAME_SIZE := by
    rintro q hq hqf rfl
    exact hrest q hq hbase hqf
  rw [takeFrame_eq hh hok]
  split_ifs with h0
  · simp only [h0, ne_eq, not_true_eq_false, false_and, iff_false] at hr
    grind
  · simp only [ne_eq, h0, not_false_eq_true, true_and] at hr
    grind

/-! ## The specs of the two operations -/

/-- What is left of the machine when memory and the allocator are taken away. -/
def Machine.regs (s : Machine) : Machine :=
  { s with mem := fun _ _ => 0, avail := 0, free_ranges := [], owner := fun _ => none }

theorem Machine.regs_hhdm {s t : Machine} (h : t.regs = s.regs) : t.hhdm_offset = s.hhdm_offset := by
  have := congrArg Machine.hhdm_offset h
  exact this

theorem Machine.regs_acting {s t : Machine} (h : t.regs = s.regs) : t.acting = s.acting := by
  have := congrArg Machine.acting h
  exact this

theorem Machine.regs_cr3 {s t : Machine} (h : t.regs = s.regs) : t.cr3 = s.cr3 := by
  have := congrArg Machine.cr3 h
  exact this

@[simp] theorem Machine.regs_poke (s : Machine) (f i : Nat) (w : Word) : (s.poke f i w).regs = s.regs := rfl

theorem Machine.poke_mem_of_ne {s : Machine} {f g i : Nat} {w : Word} (h : g ≠ f) :
    (s.poke f i w).mem g = s.mem g := by
  funext j
  simp [poke, h]

theorem FreeList.cons_avail {s : Machine} {f : Nat} {l : List Nat} (h : FreeList s (f :: l)) :
    FreeList { s with avail := (s.mem f 0).toNat } l where
  hhdm := h.hhdm.congr (by rfl)
  chain := h.chain.2.2.congr (by rfl) fun _ _ => by rfl
  nodup := (List.nodup_cons.mp h.nodup).2
  mapped g hg := h.mapped g (List.mem_cons_of_mem _ hg)
  ranges r hr := (h.ranges r hr).congr (by rfl)
  disjoint := h.disjoint
  apart g hg := h.apart g (List.mem_cons_of_mem _ hg)

theorem takeFrame_ok {s : Machine} {r : Range} {rest : List Range} (hh : HhdmOk s) (hok : ∀ q ∈ r :: rest, q.Ok s) :
    ∀ q ∈ takeFrame r rest, q.Ok s := by
  have hr := hok r List.mem_cons_self
  have := hr.base_aligned; have := hr.length_aligned; have := hr.length_pos; have := hr.mapped
  rw [takeFrame_eq hh hr]
  split_ifs with h0
  · exact fun q hq => hok q (List.mem_cons_of_mem _ hq)
  · intro q hq
    rcases List.mem_cons.mp hq with rfl | hq
    · constructor <;> simp only [FRAME_SIZE] at * <;> omega
    · exact hok q (List.mem_cons_of_mem _ hq)

theorem takeFrame_disjoint {s : Machine} {r : Range} {rest : List Range} (hh : HhdmOk s) (hok : r.Ok s)
    (h : (r :: rest).Pairwise fun a b => ∀ f, a.has f → ¬ b.has f) :
    (takeFrame r rest).Pairwise fun a b => ∀ f, a.has f → ¬ b.has f := by
  rw [List.pairwise_cons] at h
  rw [takeFrame_eq hh hok]
  split_ifs with h0
  · exact h.2
  · refine List.pairwise_cons.mpr ⟨fun q hq f hf => h.1 q hq f ?_, h.2⟩
    simp only [Range.has, FRAME_SIZE] at hf ⊢
    omega

theorem FreeList.take_range {s : Machine} {r : Range} {rest : List Range} (h : FreeList s [])
    (hr : s.free_ranges = r :: rest) :
    FreeList (s.tookRange r rest) [] where
  hhdm := h.hhdm.congr (by rfl)
  chain := h.chain
  nodup := List.nodup_nil
  mapped := by simp
  ranges q hq := by
    rw [Machine.tookRange_free_ranges] at hq
    have hall : ∀ q ∈ r :: rest, q.Ok s := by rw [← hr]; exact h.ranges
    exact (takeFrame_ok h.hhdm hall q hq).congr (by rfl)
  disjoint := by
    rw [Machine.tookRange_free_ranges]
    have hok := h.ranges r (by rw [hr]; exact List.mem_cons_self)
    exact takeFrame_disjoint h.hhdm hok (by rw [← hr]; exact h.disjoint)
  apart := by simp

/-- What `alloc` does when it returns: the frame was free and is not any more, and no other frame changes. -/
structure AllocSpec (s : Machine) (F : Set Nat) (f : Nat) (t : Machine) : Prop where
  mem_free : f ∈ F
  wf : PhysWf t (F \ {f})
  other : ∀ g, g ≠ f → t.mem g = s.mem g
  content : t.mem f = s.mem f ∨ ∀ i, i < 512 → t.mem f i = 0
  regs : t.regs = s.regs
  owner : t.owner = s.owner

/-- `alloc` returns exactly when some frame is free. -/
theorem alloc_total {s : Machine} {F : Set Nat} (h : PhysWf s F) :
    (∃ f t, PhysMem.alloc.run s = some (f, t) ∧ AllocSpec s F f t) ∨
      (PhysMem.alloc.run s = none ∧ ∀ f, f ∉ F) := by
  obtain ⟨l, hl, hF⟩ := h
  cases l with
  | cons f l =>
    left
    refine ⟨f, _, alloc_avail hl, (hF f).mpr (Or.inl List.mem_cons_self), ⟨l, hl.cons_avail, ?_⟩,
      fun _ _ => rfl, Or.inl rfl, rfl, rfl⟩
    intro g
    have hnd := (List.nodup_cons.mp hl.nodup).1
    have hap := hl.apart f List.mem_cons_self
    have hin : Machine.inRanges { s with avail := (s.mem f 0).toNat } g ↔ s.inRanges g := Iff.rfl
    rw [Set.mem_sdiff, Set.mem_singleton_iff, hF, List.mem_cons, hin]
    grind
  | nil =>
    have ha : s.avail = 0 := hl.chain
    cases hr : s.free_ranges with
    | nil =>
      right
      refine ⟨alloc_empty ha hr, fun f hf => ?_⟩
      simpa [Machine.inRanges, hr] using (hF f).mp hf
    | cons r rest =>
      left
      have hok := hl.ranges r (by rw [hr]; exact List.mem_cons_self)
      have hin : ∀ g, g ∈ F ↔ ∃ q ∈ r :: rest, q.has g := by
        intro g; rw [hF, Machine.inRanges, hr]; simp
      refine ⟨_, _, alloc_range hl.hhdm ha hr hok,
        (hin _).mpr ⟨r, List.mem_cons_self, hok.has_base⟩, ⟨[], hl.take_range hr, ?_⟩, ?_, Or.inr ?_, rfl, rfl⟩
      · intro g
        have hdis := hl.disjoint
        rw [hr, List.pairwise_cons] at hdis
        rw [Set.mem_sdiff, Set.mem_singleton_iff, hin, ← takeFrame_has hl.hhdm hok g fun q hq => hdis.1 q hq g]
        simp [Machine.inRanges]
      · intro g hg
        funext j
        simp [Machine.tookRange, Machine.zeroFrame, hg]
      · intro i hi
        simp [Machine.tookRange, Machine.zeroFrame, hi]

/-- With no recycled frame on the list, `alloc` gives a cleared frame. -/
theorem alloc_cleared {s t : Machine} {F : Set Nat} {f : Nat} (h : PhysWf s F) (ha : s.avail = 0)
    (hrun : PhysMem.alloc.run s = some (f, t)) : t.avail = 0 ∧ ∀ i, i < 512 → t.mem f i = 0 := by
  obtain ⟨l, hl, -⟩ := h
  cases hr : s.free_ranges with
  | nil => rw [alloc_empty ha hr] at hrun; cases hrun
  | cons r rest =>
    have hok := hl.ranges r (by rw [hr]; exact List.mem_cons_self)
    rw [alloc_range hl.hhdm ha hr hok, Option.some.injEq, Prod.mk.injEq] at hrun
    obtain ⟨rfl, rfl⟩ := hrun
    exact ⟨ha, fun i hi => by simp [Machine.tookRange, Machine.zeroFrame, hi]⟩

theorem alloc_returns {s : Machine} {F : Set Nat} (h : PhysWf s F) (hF : F.Nonempty) :
    ∃ f t, PhysMem.alloc.run s = some (f, t) := by
  rcases alloc_total h with ⟨f, t, hrun, _⟩ | ⟨_, hnone⟩
  · exact ⟨f, t, hrun⟩
  · exact absurd hF.some_mem (hnone _)

theorem alloc_spec {s t : Machine} {F : Set Nat} {f : Nat} (h : PhysWf s F)
    (hrun : PhysMem.alloc.run s = some (f, t)) : AllocSpec s F f t := by
  rcases alloc_total h with ⟨g, u, hg, hspec⟩ | ⟨hnone, _⟩
  · rw [hg, Option.some.injEq, Prod.mk.injEq] at hrun
    rw [← hrun.1, ← hrun.2]; exact hspec
  · rw [hnone] at hrun; simp at hrun

def Machine.freed (s : Machine) (f : Nat) : Machine :=
  { s.poke f 0 (BitVec.ofNat 64 s.avail) with
    avail := s.vaOf f, owner := fun g => if g = f then none else s.owner g }

theorem free_run {s : Machine} {f : Nat} (hh : HhdmOk s) (hf : s.maps f) :
    (PhysMem.free f).run s = some ((), s.freed f) := by
  have hstore : (store (s.vaOf f) 0 (BitVec.ofNat 64 s.avail)).run s = _ := store_vaOf (by omega)
  rw [PhysMem.free, Prog.bind_run (VA.ofPPN_run hh hf), Prog.get_bind_run, Prog.bind_run hstore]
  rfl

theorem AvailList.lt {s : Machine} {p : Nat} {l : List Nat} (hm : ∀ f ∈ l, s.maps f)
    (h : AvailList s p l) : p < 2 ^ 64 := by
  cases l with
  | nil => rw [h]; omega
  | cons f l =>
    have := hm f List.mem_cons_self
    have hp := h.1
    simp only [Machine.maps, Machine.vaOf, FRAME_SIZE] at *
    omega

theorem FreeList.freed {s : Machine} {l : List Nat} {f : Nat} (h : FreeList s l) (hf : s.maps f)
    (hl : f ∉ l) (hr : ¬ s.inRanges f) : FreeList (s.freed f) (f :: l) where
  hhdm := h.hhdm.congr (by rfl)
  chain := by
    refine ⟨rfl, AvailFrame.ppn_vaOf (h.hhdm.congr (by rfl)) hf, ?_⟩
    have hlt := h.chain.lt h.mapped
    have hlink : ((s.freed f).mem f 0).toNat = s.avail := by
      show (if f = f ∧ 0 = 0 then BitVec.ofNat 64 s.avail else s.mem f 0).toNat = s.avail
      rw [if_pos ⟨rfl, rfl⟩, BitVec.toNat_ofNat, Nat.mod_eq_of_lt hlt]
    rw [hlink]
    refine h.chain.congr (by rfl) fun g hg => ?_
    exact Machine.poke_mem_of_ne fun hgf => hl (hgf ▸ hg)
  nodup := List.nodup_cons.mpr ⟨hl, h.nodup⟩
  mapped g hg := by
    rcases List.mem_cons.mp hg with rfl | hg
    · exact hf
    · exact h.mapped g hg
  ranges r hr := (h.ranges r hr).congr (by rfl)
  disjoint := h.disjoint
  apart g hg := by
    rcases List.mem_cons.mp hg with rfl | hg
    · exact hr
    · exact h.apart g hg

theorem PhysWf.freed {s : Machine} {F : Set Nat} {f : Nat} (h : PhysWf s F) (hf : f ∉ F) (hm : s.maps f) :
    PhysWf (s.freed f) (insert f F) := by
  obtain ⟨l, hl, hF⟩ := h
  rw [hF, not_or] at hf
  refine ⟨f :: l, hl.freed hm hf.1 hf.2, fun g => ?_⟩
  rw [Set.mem_insert_iff, hF, List.mem_cons, or_assoc]
  exact Iff.rfl

theorem free_spec {s t : Machine} {F : Set Nat} {f : Nat} {u : Unit} (h : PhysWf s F) (hm : s.maps f)
    (hrun : (PhysMem.free f).run s = some (u, t)) : t = s.freed f := by
  rw [free_run h.hhdm hm, Option.some.injEq, Prod.mk.injEq] at hrun
  exact hrun.2.symm

end Kernel
