import Kernel.PhysMem.Partition
import Kernel.Vmm.Exit
import Kernel.Vmm.Fork

/-!
# Processes that share one memory

Every process has a root, VMEs and a heap of its own. The kernel works for one
process at a time, in any order.
-/

namespace Kernel

open Lib

/-! ## Steps -/

/-- What a core loads to run the thread of a process. -/
structure Process where
  cr3 : Nat
  privateVmes : List VME
  heapStart : Nat
  heapBreak : Nat

/-- The machine, its live processes and the number of the next one. -/
structure World where
  m : Machine
  procs : Nat → Option Process
  born : Nat

def Machine.enter (m : Machine) (p : Nat) (P : Process) : Machine :=
  { m with
    cr3 := P.cr3, privateVmes := P.privateVmes, heapStart := P.heapStart, heapBreak := P.heapBreak, acting := p }

def Machine.process (m : Machine) : Process := ⟨m.cr3, m.privateVmes, m.heapStart, m.heapBreak⟩

inductive Action where
  | load (p start size : Nat)
  | init_heap (p initial_break : Nat)
  | brk (p new_break : Nat)
  | store (p vpn j : Nat) (w : Word)
  | fork (p : Nat)
  | fork_fails (p : Nat)
  | exit (p n_active : Nat)

/-- The kernel left process `p` in the state of `t`. -/
def World.leave (w : World) (p : Nat) (t : Machine) : World :=
  { w with m := t, procs := fun q => if q = p then some t.process else w.procs q }

/--
What can happen. `load` is one segment or stack of the image; a fork may fail after the copy, when no
pid is left.
-/
inductive WorldStep : World → Action → World → Prop where
  | load {w : World} {p start size : Nat} {P : Process} {t : Machine} :
      w.procs p = some P → start + size ≤ 2 ^ 47 →
      (map_range start size true true).run (w.m.enter p P) = some ((), t) →
      WorldStep w (.load p start size) (w.leave p t)
  | init_heap {w : World} {p initial_break : Nat} {P : Process} {t : Machine} :
      w.procs p = some P → (init_heap_break initial_break).run (w.m.enter p P) = some ((), t) →
      WorldStep w (.init_heap p initial_break) (w.leave p t)
  | brk {w : World} {p new_break : Nat} {P : Process} {r : Int} {t : Machine} :
      w.procs p = some P → (set_heap_break new_break).run (w.m.enter p P) = some (r, t) →
      WorldStep w (.brk p new_break) (w.leave p t)
  | store {w : World} {p vpn j : Nat} {P : Process} {v : Word} :
      w.procs p = some P → vpn < 2 ^ 35 → j < 512 →
      WorldStep w (.store p vpn j v) { w with m := w.m.userStore (w.m.enter p P).root vpn j v }
  | fork {w : World} {p : Nat} {P : Process} {st : ForkState} {t u : Machine} :
      w.procs p = some P → snapshot_for_fork.run { w.m.enter p P with acting := w.born } = some (st, t) →
      (install_fork_state st).run { t with cr3 := st.cr3 } = some ((), u) →
      WorldStep w (.fork p)
        ⟨t, fun q => if q = w.born then some u.process else w.procs q, w.born + 1⟩
  | fork_fails {w : World} {p : Nat} {P : Process} {st : ForkState} {t : Machine} :
      w.procs p = some P → snapshot_for_fork.run { w.m.enter p P with acting := w.born } = some (st, t) →
      WorldStep w (.fork_fails p) ⟨t, w.procs, w.born + 1⟩
  | exit {w : World} {p n_active : Nat} {P : Process} {t : Machine} :
      w.procs p = some P → fini_thread.run { w.m.enter p P with n_active := n_active } = some ((), t) →
      WorldStep w (.exit p n_active) { w with m := t, procs := fun q => if q = p then none else w.procs q }

/-! ## Boot -/

def Machine.commonRoot (s : Machine) : Nat := s.common_cr3 / FRAME_SIZE

/-- The tables of the kernel's half, which every process shares. The walks end at large pages. -/
def Machine.kernelTables (s : Machine) : Set Nat :=
  {g | ∃ π, (∀ i ∈ π.head?, 256 ≤ i) ∧ π.length ≤ 3 ∧ walk s.tableEdge s.commonRoot π = some g}

/-- The kernel before its first process: its tables are direct-mapped and not in usable memory. -/
structure BootedKernel (entries : List MemmapEntry) (b : Machine) : Prop where
  booted : Booted entries b
  root_mapped : b.maps b.commonRoot
  tables : ∀ g ∈ b.kernelTables, ¬ usableFrame entries g
  newVme : ∀ live, b.newVme live ∉ live
  vmes : b.privateVmes = []
  heap : b.heapStart = 0 ∧ b.heapBreak = 0

/-- All runs of processes that start with the first one, after its `init_thread`. -/
def worldSystem (entries : List MemmapEntry) : System World Action where
  init w := ∃ b, BootedKernel entries b ∧ init_thread.run b = some ((), w.m) ∧
    w.procs = (fun p => if p = 0 then some w.m.process else none) ∧ w.born = 1
  step := WorldStep

/-! ## Isolation -/

def Process.root (P : Process) : Nat := PPN (P.cr3 / FRAME_SIZE)

/-- `P` translates a page of its lower half to frame `f`. -/
def World.Reaches (w : World) (P : Process) (f : Nat) : Prop :=
  ∃ vpn < 2 ^ 35, ∃ entry, w.m.pageEntry P.root vpn = some entry ∧ entryPpn entry = f

/-- Every page of a process is its own data, and neither a free frame nor a table nor a page of another. -/
structure Isolated (w : World) : Prop where
  owned : ∀ p P f, w.procs p = some P → w.Reaches P f → w.m.owner f = some p
  apart : ∀ p q P Q f, p ≠ q → w.procs p = some P → w.procs q = some Q → w.Reaches P f → ¬ w.Reaches Q f
  not_free : ∀ p P f, w.procs p = some P → w.Reaches P f → ∀ l, AvailList w.m w.m.avail l → f ∉ l
  not_table : ∀ p q P Q f, w.procs p = some P → w.procs q = some Q → w.Reaches P f → f ∉ w.m.lowerTables Q.root
  not_kernel : ∀ p P f, w.procs p = some P → w.Reaches P f → f ∉ w.m.kernelTables

/-! ## The invariant -/

/-- Process `p` with its frames `D`. -/
structure ProcOk (entries : List MemmapEntry) (m : Machine) (F D : Set Nat) (p : Nat) (P : Process) : Prop where
  space : Space m F D p P.root
  cr3 : P.cr3 = P.root * FRAME_SIZE
  usable : ∀ f ∈ D, usableFrame entries f
  heap : P.heapBreak = P.heapStart ∨ P.heapBreak < 2 ^ 47
  vmes : VmesOk P.privateVmes

/-- The processes share no frame with each other, with the free ones or with the kernel's tables. -/
structure WorldInv (entries : List MemmapEntry) (w : World) (F : Set Nat) (D : Nat → Set Nat) : Prop where
  wf : PhysWf w.m F
  usable : ∀ f ∈ F, usableFrame entries f
  procs : ∀ p P, w.procs p = some P → ProcOk entries w.m F (D p) p P
  apart : ∀ p q P Q, p ≠ q → w.procs p = some P → w.procs q = some Q → Disjoint (D p) (D q)
  born : ∀ p P, w.procs p = some P → p < w.born
  root_mapped : w.m.maps w.m.commonRoot
  kernel : ∀ g ∈ w.m.kernelTables, ¬ usableFrame entries g
  newVme : ∀ live, w.m.newVme live ∉ live

section

variable {entries : List MemmapEntry} {w : World} {F : Set Nat} {D : Nat → Set Nat}

theorem World.Reaches.page {P : Process} {f : Nat} (h : w.Reaches P f) : f ∈ w.m.lowerPages P.root := by
  obtain ⟨vpn, hv, entry, he, rfl⟩ := h
  exact Machine.page_mem hv he

theorem WorldInv.isolated (h : WorldInv entries w F D) : Isolated w where
  owned p P f hp hf := by
    obtain ⟨π, hπ, hlen, hw⟩ := hf.page
    cases π with
    | nil => cases hlen
    | cons i π => exact (h.procs p P hp).space.forest.walk_leaf (startsBelow_cons.mp hπ) (by simpa using hlen) hw
  apart p q P Q f hpq hp hq hf hf' := by
    have hfp := (h.procs p P hp).space.pages hf.page
    have hfq := (h.procs q Q hq).space.pages hf'.page
    exact Set.disjoint_left.mp (h.apart p q P Q hpq hp hq) hfp hfq
  not_free p P f hp hf l hl hfl := by
    obtain ⟨l', hl', hF⟩ := h.wf
    have hlist := hl.unique hl'.hhdm hl'.chain
    have hfree : f ∈ F := (hF f).mpr (Or.inl (hlist ▸ hfl))
    exact ((h.procs p P hp).space.owned f ((h.procs p P hp).space.pages hf.page)).1 hfree
  not_table p q P Q f hp hq hf htable := by
    have hP := (h.procs p P hp).space
    have hQ := (h.procs q Q hq).space
    by_cases hpq : p = q
    · subst hpq
      obtain rfl : P = Q := Option.some.inj (hp.symm.trans hq)
      obtain ⟨π, hπ, hlen, hw⟩ := hf.page
      obtain ⟨ρ, hρ, hlen', hw'⟩ := htable
      have := congrArg List.length (hP.forest.paths_inj hπ hρ (by omega) (by omega) hw hw')
      omega
    · exact Set.disjoint_left.mp (h.apart p q P Q hpq hp hq) (hP.pages hf.page) (hQ.tables htable)
  not_kernel p P f hp hf hk :=
    h.kernel f hk ((h.procs p P hp).usable f ((h.procs p P hp).space.pages hf.page))

/-! ### What a step of one process leaves of the others -/

theorem ProcOk.confined {m t : Machine} {F F' E Dq : Set Nat} {q : Nat} {Q : Process} (h : ProcOk entries m F Dq q Q)
    (hc : Confined m F E t F') (hE : Disjoint Dq E) : ProcOk entries t F' Dq q Q := by
  have hout : ∀ g ∈ Dq, g ∉ F ∪ E := by
    rintro g hg (hF | hg')
    · exact (h.space.owned g hg).1 hF
    · exact Set.disjoint_left.mp hE hg hg'
  have hmem : ∀ g ∈ Dq, t.mem g = m.mem g := fun g hg => (hc.other g (hout g hg)).1
  refine ⟨⟨hc.wf, fun g hg => ⟨fun hg' => hout g hg (hc.sub hg'), ?_⟩, h.space.root_mem, ?_⟩, h.cr3, h.usable, h.heap,
    h.vmes⟩
  · exact (Machine.maps_congr (Machine.fixed_hhdm hc.fixed) g).mpr (h.space.owned g hg).2
  · exact h.space.forest.congr (fun i _ => by rw [hmem _ h.space.root_mem]) (fun g hg _ => hmem g hg)
      fun g hg _ => (hc.other g (hout g hg)).2

theorem kernelTables_congr {s t : Machine} (hf : t.fixed = s.fixed) (h : ∀ g ∈ s.kernelTables, t.mem g = s.mem g) :
    t.kernelTables = s.kernelTables := by
  have hroot : t.commonRoot = s.commonRoot := by
    rw [Machine.commonRoot, Machine.commonRoot, Machine.fixed_common hf]
  ext g
  refine exists_congr fun π => and_congr_right fun hπ => and_congr_right fun hlen => ?_
  rw [hroot, walk_congr_path]
  intro ρ m hρ hlt hw
  refine Machine.through_congr (h m ⟨ρ, ?_, by omega, hw⟩)
  cases ρ with
  | nil => simp
  | cons i ρ =>
    obtain ⟨τ, rfl⟩ := hρ
    exact hπ

/-- A step for `p` that touches the processes of `T`: they must be in order again, in frames of `p` and free ones. -/
theorem WorldInv.step (h : WorldInv entries w F D) {p : Nat} {P : Process} (hp : w.procs p = some P) {w' : World}
    {F' : Set Nat} {D' : Nat → Set Nat} (T : Set Nat) (hc : Confined w.m F (D p) w'.m F') (hborn : w.born ≤ w'.born)
    (hpT : p ∈ T) (hold : ∀ q Q, q ∉ T → w'.procs q = some Q → w.procs q = some Q ∧ D' q = D q)
    (hnew : ∀ q Q, q ∈ T → w'.procs q = some Q →
      ProcOk entries w'.m F' (D' q) q Q ∧ D' q ⊆ F ∪ D p ∧ q < w'.born)
    (hapart : ∀ q r, q ∈ T → r ∈ T → q ≠ r → Disjoint (D' q) (D' r)) : WorldInv entries w' F' D' := by
  have hhh := Machine.fixed_hhdm hc.fixed
  have hkernel : w'.m.kernelTables = w.m.kernelTables := by
    refine kernelTables_congr hc.fixed fun g hg => (hc.other g ?_).1
    rintro (hF | hD)
    · exact h.kernel g hg (h.usable g hF)
    · exact h.kernel g hg ((h.procs p P hp).usable g hD)
  have hroot : w'.m.commonRoot = w.m.commonRoot := by
    rw [Machine.commonRoot, Machine.commonRoot, Machine.fixed_common hc.fixed]
  -- An old process against one of `T`.
  have hcross : ∀ q Q, q ∉ T → w.procs q = some Q → Disjoint (D q) (F ∪ D p) := by
    intro q Q hq hQ
    refine Set.disjoint_union_right.mpr ⟨Set.disjoint_left.mpr fun g hg => ((h.procs q Q hQ).space.owned g hg).1, ?_⟩
    exact h.apart q p Q P (fun e => hq (e ▸ hpT)) hQ hp
  refine ⟨hc.wf, fun f hf => ?_, fun q Q hQ => ?_, fun q r Q R hqr hQ hR => ?_, fun q Q hQ => ?_, ?_, ?_, ?_⟩
  · rcases hc.sub hf with hF | hD
    · exact h.usable f hF
    · exact (h.procs p P hp).usable f hD
  · by_cases hq : q ∈ T
    · exact (hnew q Q hq hQ).1
    · obtain ⟨hQ', hD⟩ := hold q Q hq hQ
      rw [hD]
      exact (h.procs q Q hQ').confined hc (Set.disjoint_union_right.mp (hcross q Q hq hQ')).2
  · by_cases hq : q ∈ T
    · by_cases hr : r ∈ T
      · exact hapart q r hq hr hqr
      · obtain ⟨hR', hD⟩ := hold r R hr hR
        rw [hD]
        exact ((hcross r R hr hR').mono_right (hnew q Q hq hQ).2.1).symm
    · obtain ⟨hQ', hD⟩ := hold q Q hq hQ
      rw [hD]
      by_cases hr : r ∈ T
      · exact (hcross q Q hq hQ').mono_right (hnew r R hr hR).2.1
      · obtain ⟨hR', hD'⟩ := hold r R hr hR
        rw [hD']
        exact h.apart q r Q R hqr hQ' hR'
  · by_cases hq : q ∈ T
    · exact (hnew q Q hq hQ).2.2
    · exact lt_of_lt_of_le (h.born q Q (hold q Q hq hQ).1) hborn
  · rw [hroot]
    exact (Machine.maps_congr hhh _).mpr h.root_mapped
  · rw [hkernel]
    exact h.kernel
  · rw [Machine.fixed_newVme hc.fixed]
    exact h.newVme

theorem WorldInv.leave (h : WorldInv entries w F D) {p : Nat} {P : Process} (hp : w.procs p = some P) {t : Machine}
    {F' Dp : Set Nat} (hc : Confined w.m F (D p) t F') (hD : Dp ⊆ F ∪ D p) (hspace : Space t F' Dp p P.root)
    (hcr3 : t.cr3 = P.cr3) (hheap : HeapOk t) (hvmes : t.privateVmes = P.privateVmes) :
    WorldInv entries (w.leave p t) F' (Function.update D p Dp) := by
  have hP := h.procs p P hp
  refine h.step hp {p} hc le_rfl rfl (fun q Q hq hQ => ?_) (fun q Q hq hQ => ?_) fun q r hq hr hqr => ?_
  · have hqp : q ≠ p := hq
    rw [World.leave] at hQ
    simp only [if_neg hqp] at hQ
    exact ⟨hQ, Function.update_of_ne hqp _ _⟩
  · obtain rfl : q = p := hq
    rw [World.leave] at hQ
    simp only [if_true, Option.some.injEq] at hQ
    subst hQ
    have hroot : t.process.root = P.root := by
      rw [Process.root, Process.root, Machine.process, hcr3]
    rw [Function.update_self]
    refine ⟨⟨by rw [hroot]; exact hspace, by rw [hroot]; exact hcr3.trans hP.cr3, fun f hf => ?_, hheap, ?_⟩, hD,
      h.born q P hp⟩
    · exact (hD hf).elim (h.usable f) (hP.usable f)
    · rw [Machine.process, hvmes]
      exact hP.vmes
  · exact absurd (hq.trans hr.symm) hqr

/-! ### The steps -/

theorem ProcOk.enter {m : Machine} {F Dp : Set Nat} {p : Nat} {P : Process} (h : ProcOk entries m F Dp p P) :
    Space (m.enter p P) F Dp (m.enter p P).acting P.root ∧ OnRoot (m.enter p P) P.root ∧ HeapOk (m.enter p P) :=
  ⟨h.space.congr rfl rfl rfl rfl rfl, h.cr3, h.heap⟩

theorem WorldInv.evolve (h : WorldInv entries w F D) {p : Nat} {P : Process} (hp : w.procs p = some P) {u t : Machine}
    {F' Dp : Set Nat} (hspace : Space u F' Dp p P.root) (he : Evolves (w.m.enter p P) F (D p) u F' Dp)
    (hheap : HeapOk t) (ht : t = u ∨ ∃ b, t = { u with heapBreak := b }) :
    WorldInv entries (w.leave p t) F' (Function.update D p Dp) := by
  have hfixed := Machine.regs_fixed he.regs
  have hcr3 := Machine.regs_cr3 he.regs
  have hvmes : u.privateVmes = P.privateVmes := by
    have := congrArg Machine.privateVmes he.regs
    exact this
  have hu : Confined w.m F (D p) u F' :=
    ⟨hspace.wf, Set.subset_union_left.trans he.sub, he.other, hfixed⟩
  have hD : Dp ⊆ F ∪ D p := Set.subset_union_right.trans he.sub
  rcases ht with rfl | ⟨b, rfl⟩
  · exact h.leave hp hu hD hspace hcr3 hheap hvmes
  · exact h.leave hp ⟨hu.wf.congr rfl rfl rfl fun _ _ => rfl, hu.sub, hu.other, hfixed⟩ hD
      (hspace.congr rfl rfl rfl rfl rfl) hcr3 hheap hvmes

theorem HeapOk.congr {s t : Machine} (h : HeapOk s) (hr : t.regs = s.regs) : HeapOk t := by
  have hstart : t.heapStart = s.heapStart := by
    have := congrArg Machine.heapStart hr
    exact this
  have hbreak : t.heapBreak = s.heapBreak := by
    have := congrArg Machine.heapBreak hr
    exact this
  rw [HeapOk, hstart, hbreak]
  exact h

theorem WorldInv.load (h : WorldInv entries w F D) {p start size : Nat} {P : Process} {t : Machine}
    (hp : w.procs p = some P) (hend : start + size ≤ 2 ^ 47)
    (hclean : mapRangeClean true true start size (w.m.enter p P))
    (hrun : (map_range start size true true).run (w.m.enter p P) = some ((), t)) :
    ∃ F' D', WorldInv entries (w.leave p t) F' D' := by
  obtain ⟨hspace, hr, hheap⟩ := (h.procs p P hp).enter
  obtain ⟨F', Dp, ht, he⟩ := map_range_spec hspace hr hend hclean hrun
  exact ⟨F', _, h.evolve hp ht he (hheap.congr he.regs) (Or.inl rfl)⟩

theorem WorldInv.init_heap (h : WorldInv entries w F D) {p initial_break : Nat} {P : Process} {t : Machine}
    (hp : w.procs p = some P) (hrun : (init_heap_break initial_break).run (w.m.enter p P) = some ((), t)) :
    ∃ F' D', WorldInv entries (w.leave p t) F' D' := by
  obtain ⟨hspace, hr, _⟩ := (h.procs p P hp).enter
  rw [init_heap_break, Prog.run_modify] at hrun
  subst hrun
  refine ⟨F, _, h.leave hp ⟨?_, Set.subset_union_left, fun _ _ => ⟨rfl, rfl⟩, rfl⟩ Set.subset_union_right ?_ rfl
    (Or.inl rfl) rfl⟩
  · exact h.wf.congr rfl rfl rfl fun _ _ => rfl
  · exact hspace.congr rfl rfl rfl rfl rfl

theorem WorldInv.brk (h : WorldInv entries w F D) {p new_break : Nat} {P : Process} {r : Int} {t : Machine}
    (hp : w.procs p = some P) (hclean : brkClean new_break (w.m.enter p P))
    (hrun : (set_heap_break new_break).run (w.m.enter p P) = some (r, t)) :
    ∃ F' D', WorldInv entries (w.leave p t) F' D' := by
  obtain ⟨hspace, hr, hheap⟩ := (h.procs p P hp).enter
  obtain ⟨F', Dp, u, hu, he, hheap', ht⟩ := set_heap_break_spec hspace hr hheap hclean hrun
  exact ⟨F', _, h.evolve hp hu he hheap' (ht.imp id fun e => ⟨_, e⟩)⟩

theorem WorldInv.store (h : WorldInv entries w F D) {p vpn j : Nat} {P : Process} {v : Word} (hp : w.procs p = some P)
    (hv : vpn < 2 ^ 35) :
    WorldInv entries { w with m := w.m.userStore (w.m.enter p P).root vpn j v } F D := by
  have hP := h.procs p P hp
  have hroot : (w.m.enter p P).root = P.root := rfl
  rw [hroot]
  cases he : w.m.pageEntry P.root vpn with
  | none =>
    rw [Machine.userStore, he]
    exact h
  | some entry =>
    have hpage := Machine.page_mem hv he
    have hfD := hP.space.pages hpage
    have hstate : w.m.userStore P.root vpn j v = w.m.poke (entryPpn entry) j v := by
      rw [Machine.userStore, he]
    rw [hstate]
    generalize entryPpn entry = f at hpage hfD ⊢
    have hother : ∀ g, g ∉ F ∪ D p → (w.m.poke f j v).mem g = w.m.mem g := fun g hg =>
      Machine.poke_mem_of_ne fun e => hg (Or.inr (e ▸ hfD))
    have hc : Confined w.m F (D p) (w.m.poke f j v) F := by
      refine ⟨h.wf.congr rfl rfl rfl fun g hg => Machine.poke_mem_of_ne ?_, Set.subset_union_left,
        fun g hg => ⟨hother g hg, rfl⟩, rfl⟩
      rintro rfl
      exact (hP.space.owned g hfD).1 hg
    refine h.step hp {p} hc le_rfl rfl (fun q Q _ hQ => ⟨hQ, rfl⟩)
      (fun q Q hq hQ => ?_) fun q r hq hr hqr => absurd (hq.trans hr.symm) hqr
    obtain rfl : q = p := hq
    obtain rfl : P = Q := Option.some.inj (hp.symm.trans hQ)
    -- The page is not a table, so the walks stay.
    have htables : ∀ g ∈ w.m.lowerTables P.root, (w.m.poke f j v).mem g = w.m.mem g := by
      rintro g ⟨ρ, hρ, hlen, hw⟩
      refine Machine.poke_mem_of_ne ?_
      rintro rfl
      obtain ⟨π, hπ, hlen', hw'⟩ := hpage
      have := congrArg List.length (hP.space.forest.paths_inj hρ hπ (by omega) (by omega) hw hw')
      omega
    refine ⟨⟨⟨hc.wf, hP.space.owned, hP.space.root_mem, ?_⟩, hP.cr3, hP.usable, hP.heap, hP.vmes⟩,
      Set.subset_union_right, h.born q P hp⟩
    exact hP.space.forest.congr_walk (fun π hπ hlen => lower_walk_congr hπ hlen htables) fun _ _ => rfl

/-! ### Fork -/

theorem WorldInv.lowerSource (h : WorldInv entries w F D) {p : Nat} {P : Process} (hp : w.procs p = some P) :
    LowerSource { w.m.enter p P with acting := w.born } F P.root := by
  have hP := (h.procs p P hp).space
  rintro g (hg | hg)
  · exact hP.owned g (hP.tables hg)
  · exact hP.owned g (hP.pages hg)

theorem WorldInv.snapshot (h : WorldInv entries w F D) {p : Nat} {P : Process} {st : ForkState} {t : Machine}
    (hp : w.procs p = some P) (hrun : snapshot_for_fork.run { w.m.enter p P with acting := w.born } = some (st, t)) :
    ∃ child G, Confined w.m F ∅ t G ∧ Space t G (F \ G) w.born child ∧ st.cr3 = child * FRAME_SIZE ∧
      st.private_vmes.map VME.area = P.privateVmes.map VME.area ∧ st.heap_start = P.heapStart ∧
      st.heap_break = P.heapBreak := by
  have hsrc := h.lowerSource hp
  have hwf : PhysWf { w.m.enter p P with acting := w.born } F := h.wf.congr rfl rfl rfl fun _ _ => rfl
  obtain ⟨child, G, v, l, hroot, hregs, hvmes, -, rfl⟩ := snapshot_parts hwf hsrc h.newVme hrun
  have hfixed : t.fixed = w.m.fixed := by
    rw [hvmes.state]
    have := Machine.regs_fixed hregs
    exact this
  have hlt := Machine.maps_lt h.wf.hhdm (h.wf.maps hroot.child_free)
  refine ⟨child, G, ⟨hroot.wf, fun g hg => Or.inl (hroot.sub hg).1, fun g hg => ?_, hfixed⟩,
    ⟨hroot.wf, fun g hg => ?_, ?_, hroot.forest⟩, ?_, hvmes.areas, rfl, rfl⟩
  · have hg' : g ∉ F \ G := fun h => hg (Or.inl h.1)
    exact ⟨hroot.other g hg', hroot.owner g hg'⟩
  · exact ⟨hg.2, (Machine.maps_congr (Machine.fixed_hhdm hfixed) g).mpr (h.wf.maps hg.1)⟩
  · exact ⟨hroot.child_free, fun hg => (hroot.sub hg).2 rfl⟩
  · simp only [PA.ofPPN, FRAME_SIZE]
    omega

theorem Confined.mono {m t : Machine} {F F' : Set Nat} (E : Set Nat) (h : Confined m F ∅ t F') : Confined m F E t F' :=
  ⟨h.wf, fun g hg => Or.inl ((h.sub hg).elim id fun h => absurd h (Set.notMem_empty g)),
    fun g hg => h.other g fun hg' => hg (hg'.elim Or.inl fun h => absurd h (Set.notMem_empty g)), h.fixed⟩

theorem VmesOk.of_areas {l l' : List VME} (h : VmesOk l) (ha : l'.map VME.area = l.map VME.area) : VmesOk l' := by
  intro v hv
  have hmem : v.area ∈ l.map VME.area := ha ▸ List.mem_map_of_mem hv
  obtain ⟨u, hu, hua⟩ := List.mem_map.mp hmem
  have hend : u.end = v.end := congrArg (fun a => a.2.1) hua
  exact hend ▸ h u hu

theorem WorldInv.fork (h : WorldInv entries w F D) {p : Nat} {P : Process} {st : ForkState} {t u : Machine}
    (hp : w.procs p = some P) (hrun : snapshot_for_fork.run { w.m.enter p P with acting := w.born } = some (st, t))
    (hinstall : (install_fork_state st).run { t with cr3 := st.cr3 } = some ((), u)) :
    ∃ F' D', WorldInv entries ⟨t, fun q => if q = w.born then some u.process else w.procs q, w.born + 1⟩ F' D' := by
  obtain ⟨child, G, hc, hspace, hcr3, hareas, hstart, hbreak⟩ := h.snapshot hp hrun
  rw [install_fork_state, Prog.run_modify] at hinstall
  have hP := h.procs p P hp
  have hpb := h.born p P hp
  have hroot : u.process.root = child := by
    have hlt := hspace.root_lt
    rw [hinstall]
    simp only [Process.root, Machine.process, hcr3, PPN, FRAME_SIZE]
    omega
  refine ⟨G, Function.update D w.born (F \ G), h.step hp {p, w.born} (hc.mono _) (Nat.le_succ _) (Or.inl rfl)
    (fun q Q hq hQ => ?_) (fun q Q hq hQ => ?_) fun q r hq hr hqr => ?_⟩
  · have hqb : q ≠ w.born := fun e => hq (Or.inr e)
    simp only [if_neg hqb] at hQ
    exact ⟨hQ, Function.update_of_ne hqb _ _⟩
  · rcases hq with rfl | rfl
    · have hqb : q ≠ w.born := by omega
      simp only [if_neg hqb] at hQ
      obtain rfl : P = Q := Option.some.inj (hp.symm.trans hQ)
      rw [Function.update_of_ne hqb]
      exact ⟨hP.confined hc (Set.disjoint_empty _), Set.subset_union_right, Nat.lt_succ_of_lt hpb⟩
    · simp only [if_true, Option.some.injEq] at hQ
      subst hQ
      rw [Function.update_self]
      refine ⟨⟨by rw [hroot]; exact hspace, ?_, fun f hf => h.usable f hf.1, ?_, ?_⟩,
        fun g hg => Or.inl hg.1, Nat.lt_succ_self _⟩
      · rw [hroot, hinstall]
        exact hcr3
      · rw [hinstall]
        simp only [Machine.process, hstart, hbreak]
        exact hP.heap
      · rw [hinstall]
        exact hP.vmes.of_areas hareas
  · have hpd : Disjoint (D p) (F \ G) := Set.disjoint_left.mpr fun g hg hg' => (hP.space.owned g hg).1 hg'.1
    have hne : p ≠ w.born := by omega
    rcases hq with rfl | rfl <;> rcases hr with rfl | rfl
    · exact absurd rfl hqr
    · rw [Function.update_self, Function.update_of_ne hne]
      exact hpd
    · rw [Function.update_self, Function.update_of_ne hne]
      exact hpd.symm
    · exact absurd rfl hqr

theorem WorldInv.fork_fails (h : WorldInv entries w F D) {p : Nat} {P : Process} {st : ForkState} {t : Machine}
    (hp : w.procs p = some P) (hrun : snapshot_for_fork.run { w.m.enter p P with acting := w.born } = some (st, t)) :
    ∃ F' D', WorldInv entries ⟨t, w.procs, w.born + 1⟩ F' D' := by
  obtain ⟨child, G, hc, -⟩ := h.snapshot hp hrun
  refine ⟨G, D, h.step hp {p} (hc.mono _) (Nat.le_succ _) rfl (fun q Q _ hQ => ⟨hQ, rfl⟩) (fun q Q hq hQ => ?_)
    fun q r hq hr hqr => absurd (hq.trans hr.symm) hqr⟩
  obtain rfl : q = p := hq
  obtain rfl : P = Q := Option.some.inj (hp.symm.trans hQ)
  exact ⟨(h.procs q P hp).confined hc (Set.disjoint_empty _), Set.subset_union_right, Nat.lt_succ_of_lt (h.born q P hp)⟩

/-! ### Exit -/

theorem WorldInv.root_ne (h : WorldInv entries w F D) {p : Nat} {P : Process} (hp : w.procs p = some P) :
    P.root ≠ w.m.commonRoot := by
  intro e
  have hP := h.procs p P hp
  have hkernel : w.m.commonRoot ∈ w.m.kernelTables := ⟨[], by simp, by simp, rfl⟩
  exact h.kernel _ hkernel (e ▸ hP.usable _ hP.space.root_mem)

theorem WorldInv.exit (h : WorldInv entries w F D) {p n_active : Nat} {P : Process} {t : Machine}
    (hp : w.procs p = some P) (hrun : fini_thread.run { w.m.enter p P with n_active := n_active } = some ((), t)) :
    ∃ F' D', WorldInv entries { w with m := t, procs := fun q => if q = p then none else w.procs q } F' D' := by
  have hP := h.procs p P hp
  have hroot := h.root_ne hp
  have hspace : Space { w.m.enter p P with n_active := n_active } F (D p) p P.root := hP.space.congr rfl rfl rfl rfl rfl
  obtain ⟨F', hc⟩ := fini_thread_spec hspace hP.cr3 hP.vmes hroot hrun
  refine ⟨F', D, h.step hp {p} ⟨hc.wf, hc.sub, hc.other, hc.fixed⟩ le_rfl rfl (fun q Q hq hQ => ?_)
    (fun q Q hq hQ => ?_)
    fun q r hq hr hqr => absurd (hq.trans hr.symm) hqr⟩
  · have hqp : q ≠ p := hq
    simp only [if_neg hqp] at hQ
    exact ⟨hQ, rfl⟩
  · obtain rfl : q = p := hq
    simp at hQ

/-! ### Boot -/

/-- What `init_thread` leaves after boot: a root with nothing in its lower half. -/
structure FirstRoot (entries : List MemmapEntry) (b t : Machine) (root : Nat) : Prop where
  usable : usableFrame entries root
  wf : PhysWf t ({f | usableFrame entries f} \ {root})
  cr3 : t.cr3 = root * FRAME_SIZE
  blank : ∀ i, i < 256 → t.mem root i = 0
  other : ∀ g, g ≠ root → t.mem g = b.mem g
  avail : t.avail = 0
  fixed : t.fixed = b.fixed
  process : t.process = ⟨root * FRAME_SIZE, [], 0, 0⟩
  shared_vmes : t.sharedVmes = b.sharedVmes

theorem init_thread_spec {b t : Machine} (h : BootedKernel entries b) (hrun : init_thread.run b = some ((), t)) :
    ∃ root, FirstRoot entries b t root := by
  have hwf := h.booted.physWf
  have hcommon : PPN (b.common_cr3 / FRAME_SIZE) = b.commonRoot := by
    have := Machine.maps_lt hwf.hhdm h.root_mapped
    rw [PPN, ← Machine.commonRoot]
    omega
  rw [init_thread, Prog.run_bind] at hrun
  obtain ⟨root, u, halloc, hrun⟩ := hrun
  have ha := alloc_spec hwf halloc
  obtain ⟨havail, hzero⟩ := alloc_cleared hwf h.booted.2.1 halloc
  have hhu := Machine.regs_hhdm ha.regs
  have hcu : u.common_cr3 = b.common_cr3 := Machine.fixed_common (Machine.regs_fixed ha.regs)
  have hm := hwf.maps ha.mem_free
  have hlt := Machine.maps_lt hwf.hhdm hm
  have hh := hwf.hhdm.congr hhu
  rw [Prog.bind_run (VA.ofPPN_run hh ((Machine.maps_congr hhu root).mpr hm)), Prog.get_bind_run] at hrun
  simp only [hcu, hcommon] at hrun
  rw [Prog.bind_run (VA.ofPPN_run hh ((Machine.maps_congr hhu _).mpr h.root_mapped)),
    Prog.bind_run (copyUpper_run rfl rfl), Prog.run_modify] at hrun
  subst hrun
  have hcr3 : PA.ofPPN root = root * FRAME_SIZE := by
    simp only [PA.ofPPN, FRAME_SIZE]
    omega
  have hfixed := Machine.regs_fixed ha.regs
  have hvmes := congrArg Machine.privateVmes ha.regs
  have hstart := congrArg Machine.heapStart ha.regs
  have hbreak := congrArg Machine.heapBreak ha.regs
  have hshared := congrArg Machine.sharedVmes ha.regs
  refine ⟨root, ha.mem_free, ?_, hcr3, fun i hi => ?_, fun g hg => ?_, havail, hfixed, ?_, hshared⟩
  · exact ha.wf.congr rfl rfl rfl fun g hg => copyUpper_other hg.2
  · exact (copyUpper_lower hi).trans (hzero i (by omega))
  · exact (copyUpper_other hg).trans (ha.other g hg)
  · rw [Machine.process, hcr3]
    exact congr (congr (congrArg (Process.mk _) (hvmes.trans h.vmes)) (hstart.trans h.heap.1)) (hbreak.trans h.heap.2)

theorem FirstRoot.inv {b t : Machine} {root : Nat} (hb : BootedKernel entries b) (h : FirstRoot entries b t root) :
    WorldInv entries ⟨t, fun p => if p = 0 then some t.process else none, 1⟩
      ({f | usableFrame entries f} \ {root}) fun _ => {root} := by
  have hhh := Machine.fixed_hhdm h.fixed
  have hmaps : t.maps root := (Machine.maps_congr hhh root).mpr (hb.booted.physWf.maps h.usable)
  have hlt := Machine.maps_lt h.wf.hhdm hmaps
  have hforest : Forest t {root} 0 3 256 root := Forest.blank fun i hi => by
    rw [h.blank i hi]
    exact not_present_zero
  have hspace : Space t ({f | usableFrame entries f} \ {root}) {root} 0 root := by
    refine ⟨h.wf, ?_, rfl, hforest⟩
    rintro g rfl
    exact ⟨fun hg => hg.2 rfl, hmaps⟩
  have hkernel : t.kernelTables = b.kernelTables := kernelTables_congr h.fixed fun g hg => h.other g <| by
    rintro rfl
    exact hb.tables g hg h.usable
  have hcommon : t.commonRoot = b.commonRoot := by
    rw [Machine.commonRoot, Machine.commonRoot, Machine.fixed_common h.fixed]
  have hproc : ∀ {p P}, (if p = 0 then some t.process else none) = some P → p = 0 ∧
    P = ⟨root * FRAME_SIZE, [], 0, 0⟩ := by
    intro p P hP
    by_cases hp : p = 0
    · rw [if_pos hp, Option.some.injEq, h.process] at hP
      exact ⟨hp, hP.symm⟩
    · rw [if_neg hp] at hP
      cases hP
  refine ⟨h.wf, fun f hf => hf.1, fun p P hP => ?_, fun p q P Q hpq hP hQ => ?_, fun p P hP => ?_, ?_, ?_, ?_⟩
  · obtain ⟨rfl, rfl⟩ := hproc hP
    have hroot : Process.root ⟨root * FRAME_SIZE, [], 0, 0⟩ = root := by
      simp only [Process.root, PPN, FRAME_SIZE]
      omega
    refine ⟨by rw [hroot]; exact hspace, by rw [hroot], ?_, Or.inl rfl, by simp [VmesOk]⟩
    rintro f rfl
    exact h.usable
  · exact absurd ((hproc hP).1.trans (hproc hQ).1.symm) hpq
  · rw [(hproc hP).1]
    exact Nat.one_pos
  · rw [hcommon]
    exact (Machine.maps_congr hhh _).mpr hb.root_mapped
  · rw [hkernel]
    exact hb.tables
  · rw [Machine.fixed_newVme h.fixed]
    exact hb.newVme

/-! ### Runs -/

/-- In a `load` or a `brk`, every frame that `map` takes for a table has no present word. -/
def CleanStep (w : World) : Action → Prop
  | .load p start size => ∀ P, w.procs p = some P → mapRangeClean true true start size (w.m.enter p P)
  | .brk p new_break => ∀ P, w.procs p = some P → brkClean new_break (w.m.enter p P)
  | _ => True

theorem WorldInv.clean_step (h : WorldInv entries w F D) {a : Action} {w' : World} (hclean : CleanStep w a)
    (hstep : WorldStep w a w') : ∃ F' D', WorldInv entries w' F' D' := by
  cases hstep with
  | load hp hend hrun => exact h.load hp hend (hclean _ hp) hrun
  | init_heap hp hrun => exact h.init_heap hp hrun
  | brk hp hrun => exact h.brk hp (hclean _ hp) hrun
  | store hp hv _ => exact ⟨F, D, h.store hp hv⟩
  | fork hp hrun hinstall => exact h.fork hp hrun hinstall
  | fork_fails hp hrun => exact h.fork_fails hp hrun
  | exit hp hrun => exact h.exit hp hrun

end

theorem worldInv_init {entries : List MemmapEntry} {w : World} (h : (worldSystem entries).init w) :
    ∃ F D, WorldInv entries w F D := by
  obtain ⟨b, hb, hinit, hprocs, hborn⟩ := h
  obtain ⟨root, hroot⟩ := init_thread_spec hb hinit
  have h₀ := hroot.inv hb
  rw [← hprocs, ← hborn] at h₀
  exact ⟨_, _, h₀⟩

theorem worldInv_of_clean {entries : List MemmapEntry} {w : World}
    (h : System.GuardedReachable (worldSystem entries) CleanStep w) : ∃ F D, WorldInv entries w F D := by
  obtain ⟨w₀, l, hinit, hrun⟩ := h
  refine hrun.preserves (I := fun w => ∃ F D, WorldInv entries w F D) ?_ (worldInv_init hinit)
  rintro s a t ⟨F, D, hs⟩ hclean hstep
  exact hs.clean_step hclean hstep

end Kernel
