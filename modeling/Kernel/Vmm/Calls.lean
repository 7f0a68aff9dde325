import Kernel.Vmm.Images
import Kernel.Vmm.Memory
import Kernel.Vmm.Munmap
import Kernel.Vmm.Shared

/-!
# Runs of whole calls

The runs of `Memory` with `mmap`, `munmap` and the page fault handler as they are,
each with what it returns. The lists of VMEs stay in order.
-/

namespace Kernel

open Lib

/-- `cr2` is the address of the fault. A page that no VME has stops the machine. -/
def pageFaultHandler (nodes : Nat → BlockIO) (cr2 : Nat) : K Unit := do
  let faultPage := cr2 / FRAME_SIZE * FRAME_SIZE
  if ← ensureMappedPage nodes faultPage then pure () else Prog.panic

/-! ## What `munmap` keeps -/

section

variable {s t : Machine} {F D : Set Nat} {root start stop length : Nat} {l l' kept : List VME} {touched : Bool}
  {r : Int}

/-- `t` comes from `s` by moves of frames. The nodes that are alive do not matter. -/
def Keeps (s : Machine) (F D : Set Nat) (root : Nat) (t : Machine) : Prop :=
  ∃ F' D', Space t F' D' s.acting root ∧ Evolves s F D { t with vmeLive := s.vmeLive } F' D'

theorem Keeps.refl (h : Space s F D s.acting root) : Keeps s F D root s :=
  ⟨F, D, h, Evolves.refl s F D⟩

theorem keepVmes_some {loop : K (List VME × Int)} (hrun : (keepVmes kept loop).run s = some ((l', r), t)) :
    ∃ rest, loop.run s = some ((rest, r), t) ∧ l' = kept ++ rest := by
  obtain ⟨⟨rest, r'⟩, u, hloop, hrun⟩ := Prog.run_bind.mp hrun
  rw [Prog.run_pure, Prod.mk.injEq] at hrun
  obtain ⟨⟨rfl, rfl⟩, rfl⟩ := hrun
  exact ⟨rest, hloop, rfl⟩

theorem munmapFrom_keeps (hl : PrivateVmes l) (h : Space s F D s.acting root) (hr : OnRoot s root)
    (hrun : (munmapFrom start stop touched l).run s = some ((l', r), t)) : Keeps s F D root t := by
  induction l generalizing s F D touched l' with
  | nil =>
    unfold munmapFrom at hrun
    rw [Prog.run_pure] at hrun
    rw [hrun.2]
    exact Keeps.refl h
  | cons vme next ih =>
    unfold munmapFrom at hrun
    rcases Prog.run_ite.mp hrun with ⟨-, hrun⟩ | ⟨-, hrun⟩
    · rw [Prog.run_pure] at hrun
      rw [hrun.2]
      exact Keeps.refl h
    rcases Prog.run_ite.mp hrun with ⟨-, hrun⟩ | ⟨-, hrun⟩
    · obtain ⟨_, hloop, -⟩ := keepVmes_some hrun
      exact ih hl.tail h hr hloop
    rcases Prog.run_ite.mp hrun with ⟨-, hrun⟩ | ⟨-, hrun⟩
    · rw [Prog.run_pure] at hrun
      rw [hrun.2]
      exact Keeps.refl h
    simp only [vme.max_start, vme.min_end] at hrun
    rcases Prog.run_ite.mp hrun with ⟨-, hrun⟩ | ⟨-, hrun⟩
    · obtain ⟨_, hloop, -⟩ := keepVmes_some hrun
      exact ih hl.tail h hr hloop
    obtain ⟨_, u, hunmap, hrun⟩ := Prog.run_bind.mp hrun
    obtain ⟨F₁, D₁, hu, he⟩ := unmapRange_spec h hr
      (show min stop vme.end ≤ 2 ^ 47 by have := (hl.each vme (by simp)).high; omega) hunmap
    obtain ⟨kept, live, hcut⟩ := cutVme_run (max start vme.start) (min stop vme.end) vme u
    rw [Prog.bind_run hcut] at hrun
    obtain ⟨_, hloop, -⟩ := keepVmes_some hrun
    have hact := Machine.regs_acting he.regs
    rw [← hact] at hu
    have hlive : Space { u with vmeLive := live } F₁ D₁ u.acting root := hu.congr rfl rfl rfl rfl rfl
    have hru : OnRoot { u with vmeLive := live } root := (Machine.regs_cr3 he.regs).trans hr
    obtain ⟨F₂, D₂, ht, he'⟩ := ih hl.tail hlive hru hloop
    refine ⟨F₂, D₂, ?_, he'.sub.trans he.sub, fun g hg => ?_, ?_⟩
    · rw [← hact]
      exact ht
    · have hg' : g ∉ F₁ ∪ D₁ := fun hin => hg (he.sub hin)
      exact ⟨(he'.other g hg').1.trans (he.other g hg).1, (he'.other g hg').2.trans (he.other g hg).2⟩
    · have hregs := congrArg (fun x : Machine => { x with vmeLive := s.vmeLive }) he'.regs
      have hregs' : Machine.regs { t with vmeLive := s.vmeLive } = Machine.regs { u with vmeLive := s.vmeLive } := hregs
      have hlive := congrArg (fun x : Machine => { x with vmeLive := s.vmeLive }) he.regs
      exact hregs'.trans hlive

end

/-! ## Calls -/

/-- What process `p` asks for and what it gets. `read` is a load by the process itself. -/
inductive UserCall where
  | load (p start size : Nat)
  | init_heap (p initial_break : Nat)
  | brk (p new_break : Nat) (r : Int)
  | mmap (p length : Nat) (flags : BitVec 32) (file offset r : Nat)
  | munmap (p start length : Nat) (r : Int)
  | fault (p cr2 : Nat)
  | read (p a : Nat) (b : Option Byte)
  | store (p vpn j : Nat) (v : Word)
  | fork (p child : Nat)
  | fork_fails (p : Nat)
  | exit (p n_active : Nat)

/-- The process that a call is for. -/
def UserCall.actor : UserCall → Nat
  | .load p _ _ | .init_heap p _ | .brk p _ _ | .mmap p _ _ _ _ _ | .munmap p _ _ _ | .fault p _ | .read p _ _
  | .store p _ _ _ | .fork p _ | .fork_fails p | .exit p _ => p

inductive CallStep (nodes : Nat → BlockIO) : World → UserCall → World → Prop where
  | load {w : World} {p start size : Nat} {P : Process} {t : Machine} :
      w.procs p = some P → start + size ≤ 2 ^ 47 →
      (map_range start size true true).run (w.m.enter p P) = some ((), t) →
      CallStep nodes w (.load p start size) (w.leave p t)
  | init_heap {w : World} {p initial_break : Nat} {P : Process} {t : Machine} :
      w.procs p = some P → (init_heap_break initial_break).run (w.m.enter p P) = some ((), t) →
      CallStep nodes w (.init_heap p initial_break) (w.leave p t)
  | brk {w : World} {p new_break : Nat} {P : Process} {r : Int} {t : Machine} :
      w.procs p = some P → (set_heap_break new_break).run (w.m.enter p P) = some (r, t) →
      CallStep nodes w (.brk p new_break r) (w.leave p t)
  | mmap {w : World} {p length file offset r : Nat} {flags : BitVec 32} {P : Process} {t : Machine} :
      w.procs p = some P → (Kernel.mmap length flags file offset).run (w.m.enter p P) = some (r, t) →
      CallStep nodes w (.mmap p length flags file offset r) (w.leave p t)
  | munmap {w : World} {p start length : Nat} {r : Int} {P : Process} {t : Machine} :
      w.procs p = some P → start < 2 ^ 64 → length < 2 ^ 64 →
      (Kernel.munmap start length).run (w.m.enter p P) = some (r, t) →
      CallStep nodes w (.munmap p start length r) (w.leave p t)
  | fault {w : World} {p cr2 : Nat} {P : Process} {t : Machine} :
      w.procs p = some P → cr2 < 2 ^ 47 → (pageFaultHandler nodes cr2).run (w.m.enter p P) = some ((), t) →
      CallStep nodes w (.fault p cr2) (w.leave p t)
  | read {w : World} {p a : Nat} {P : Process} :
      w.procs p = some P → a < 2 ^ 47 → CallStep nodes w (.read p a (w.m.userByte P.root a)) w
  | store {w : World} {p vpn j : Nat} {P : Process} {v : Word} :
      w.procs p = some P → vpn < 2 ^ 35 → j < 512 →
      CallStep nodes w (.store p vpn j v) { w with m := w.m.userStore (w.m.enter p P).root vpn j v }
  | fork {w : World} {p : Nat} {P : Process} {st : ForkState} {t u : Machine} :
      w.procs p = some P → snapshot_for_fork.run { w.m.enter p P with acting := w.born } = some (st, t) →
      (install_fork_state st).run { t with cr3 := st.cr3 } = some ((), u) →
      CallStep nodes w (.fork p w.born) ⟨t, fun q => if q = w.born then some u.process else w.procs q, w.born + 1⟩
  | fork_fails {w : World} {p : Nat} {P : Process} {st : ForkState} {t : Machine} :
      w.procs p = some P → snapshot_for_fork.run { w.m.enter p P with acting := w.born } = some (st, t) →
      CallStep nodes w (.fork_fails p) ⟨t, w.procs, w.born + 1⟩
  | exit {w : World} {p n_active : Nat} {P : Process} {t : Machine} :
      w.procs p = some P → fini_thread.run { w.m.enter p P with n_active := n_active } = some ((), t) →
      CallStep nodes w (.exit p n_active) { w with m := t, procs := fun q => if q = p then none else w.procs q }

/-- The runs start with the first process, and without a shared mapping. -/
def callSystem (entries : List MemmapEntry) (nodes : Nat → BlockIO) : System World UserCall where
  init w := (worldSystem entries).init w ∧ SharedRange w.m ∧ w.m.sharedVmes = []
  step := CallStep nodes

/--
Every frame that `map` takes for a table has no present word, and the files that pages come from can be
read. A private mapping has room, and the length of a shared one does not round to nothing.
-/
def CleanCall (nodes : Nat → BlockIO) (w : World) : UserCall → Prop
  | .load p start size => ∀ P, w.procs p = some P → mapRangeClean true true start size (w.m.enter p P)
  | .brk p new_break _ => ∀ P, w.procs p = some P → brkClean new_break (w.m.enter p P)
  | .mmap p length flags file offset _ => ∀ P, w.procs p = some P → MayMap length flags file offset →
      if flags &&& MAP_SHARED = 0 then HasRoom P.privateVmes length else pagesLength length < 2 ^ 64
  | .fault p cr2 => ∀ P, w.procs p = some P → FaultClean nodes (cr2 / FRAME_SIZE * FRAME_SIZE) (w.m.enter p P) ∧
      ∀ vme, (w.m.enter p P).vmeFor (cr2 / FRAME_SIZE * FRAME_SIZE) = some vme → Readable nodes vme
  | _ => True

/-! ## The invariant -/

/-- The processes are apart, and the lists of VMEs are in order. -/
structure CallsInv (entries : List MemmapEntry) (w : World) (F : Set Nat) (D : Nat → Set Nat) : Prop where
  world : WorldInv entries w F D
  mappings : ∀ p P, w.procs p = some P → Mappings P.privateVmes
  range : SharedRange w.m
  shared : SharedMappings w.m.sharedStart w.m.sharedVmes

/-- `p` worked for itself and left `t`. -/
structure Worked (entries : List MemmapEntry) (w : World) (F : Set Nat) (D : Nat → Set Nat) (p : Nat) (P : Process)
    (t : Machine) : Prop where
  world : ∃ F' D', WorldInv entries (w.leave p t) F' D'
  other : ∀ g, g ∉ F ∪ D p → t.mem g = w.m.mem g
  cr3 : t.cr3 = P.cr3
  hhdm : t.hhdm_offset = w.m.hhdm_offset

section

variable {entries : List MemmapEntry} {nodes : Nat → BlockIO} {w w' : World} {F : Set Nat} {D : Nat → Set Nat}
  {p : Nat} {P : Process} {t u : Machine}

theorem Worked.root (h : Worked entries w F D p P t) : t.process.root = P.root := by
  rw [Process.root, Process.root, Machine.process, h.cr3]

theorem SharedMappings.nil (lo : Nat) : SharedMappings lo [] :=
  ⟨List.Pairwise.nil, by simp, by simp, by simp, by simp⟩

theorem Worked.inv (h : Worked entries w F D p P t) (hinv : CallsInv entries w F D) (hvmes : Mappings t.privateVmes)
    (hshared : SharedMappings w.m.sharedStart t.sharedVmes) : ∃ F' D', CallsInv entries (w.leave p t) F' D' := by
  obtain ⟨F', D', hworld⟩ := h.world
  have hstart : t.sharedStart = w.m.sharedStart := by
    rw [Machine.sharedStart, Machine.sharedStart, h.hhdm]
  refine ⟨F', D', hworld, fun q Q hQ => ?_, ⟨by rw [World.leave, h.hhdm]; exact hinv.range.aligned,
    by rw [World.leave, h.hhdm]; exact hinv.range.le⟩, ?_⟩
  · rw [World.leave] at hQ
    dsimp only at hQ
    split_ifs at hQ with hq
    · obtain rfl := Option.some.inj hQ
      exact hvmes
    · exact hinv.mappings q Q hQ
  · rw [World.leave]
    dsimp only
    rw [hstart]
    exact hshared

theorem WorldInv.worked (h : WorldInv entries w F D) (hp : w.procs p = some P)
    (hkeeps : Keeps (w.m.enter p P) F (D p) P.root u) (ht : t.mem = u.mem ∧ t.owner = u.owner ∧ t.avail = u.avail ∧
      t.free_ranges = u.free_ranges ∧ t.fixed = u.fixed ∧ t.cr3 = u.cr3) (hheap : HeapOk t)
    (hvmes : VmesOk t.privateVmes) : Worked entries w F D p P t := by
  obtain ⟨F', Dp, hspace, he⟩ := hkeeps
  obtain ⟨hmem, hown, havail, hranges, hfixed, hcr3⟩ := ht
  have hP := h.procs p P hp
  have hucr3 : u.cr3 = P.cr3 := Machine.regs_cr3 he.regs
  have hufixed := Machine.regs_fixed he.regs
  have hcr3' : t.cr3 = P.cr3 := hcr3.trans hucr3
  have hfixed' : t.fixed = w.m.fixed := hfixed.trans hufixed
  have hhdm := Machine.fixed_hhdm hfixed
  have ht : Space t F' Dp p P.root := hspace.congr hmem hown havail hranges hhdm
  have hother : ∀ g, g ∉ F ∪ D p → t.mem g = w.m.mem g ∧ t.owner g = w.m.owner g := fun g hg =>
    ⟨(congrFun hmem g).trans (he.other g hg).1, (congrFun hown g).trans (he.other g hg).2⟩
  have hc : Confined w.m F (D p) t F' :=
    ⟨ht.wf, Set.subset_union_left.trans he.sub, hother, hfixed'⟩
  refine ⟨⟨F', Function.update D p Dp, ?_⟩, fun g hg => (hother g hg).1, hcr3', Machine.fixed_hhdm hfixed'⟩
  refine h.step hp {p} hc le_rfl rfl (fun q Q hq hQ => ?_) (fun q Q hq hQ => ?_) fun q r hq hr hqr => ?_
  · have hqp : q ≠ p := hq
    rw [World.leave] at hQ
    simp only [if_neg hqp] at hQ
    exact ⟨hQ, Function.update_of_ne hqp _ _⟩
  · obtain rfl : q = p := hq
    rw [World.leave] at hQ
    simp only [if_true, Option.some.injEq] at hQ
    subst hQ
    have hroot : t.process.root = P.root := by
      rw [Process.root, Process.root, Machine.process, hcr3']
    have hD : Dp ⊆ F ∪ D q := Set.subset_union_right.trans he.sub
    rw [Function.update_self]
    refine ⟨⟨by rw [hroot]; exact ht, by rw [hroot]; exact hcr3'.trans hP.cr3, fun f hf => ?_, hheap, hvmes⟩, hD,
      h.born q P hp⟩
    exact (hD hf).elim (h.usable f) (hP.usable f)
  · exact absurd (hq.trans hr.symm) hqr

end

end Kernel
