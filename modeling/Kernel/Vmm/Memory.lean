import Kernel.Vmm.Fault
import Kernel.Vmm.World

/-!
# Page faults and mappings among the processes

The runs of `World` with page faults, and with what `mmap` and `munmap` do to
the pages and the VMEs of a process.
-/

namespace Kernel

open Lib

/-! ## A page fault that returns -/

section

variable {s t : Machine} {nodes : Nat → BlockIO} {vme : VME} {F D : Set Nat} {root pageVa : Nat} {b : Bool}

theorem mapPageFromVme_adds (h : Space s F D s.acting root) (hr : OnRoot s root) (hva : pageVa < 2 ^ 47)
    (hnone : s.pageEntry root (pageVa / FRAME_SIZE) = none) (hread : Readable nodes vme)
    (hclean : ∀ f u w, PhysMem.alloc.run s = some (f, u) →
      (fillPage nodes vme pageVa f).run (u.marked f) = some ((), w) → mapClean (pageVa / FRAME_SIZE) 3 root w)
    (hrun : (mapPageFromVme nodes vme pageVa).run s = some (b, t)) :
    ∃ f w F', PageAdded s F D root (pageVa / FRAME_SIZE) f (leafFlags true true) w t F' := by
  have hrun' := hrun
  unfold mapPageFromVme at hrun'
  rw [Prog.bind_run (h.isMapped_run hr hva), hnone, Option.isSome_none, if_neg (by simp), Prog.run_bind] at hrun'
  obtain ⟨f, u, halloc, -⟩ := hrun'
  have hf := h.pageFrame halloc
  obtain ⟨w, hfillrun, hfill⟩ := fillPage_run pageVa hf.space.wf.hhdm hf.maps hread
  have hw := hf.fill hfill
  rw [mapPageFromVme_map h hr hva hnone halloc hfillrun hw, Option.map_eq_some_iff] at hrun
  obtain ⟨⟨x, v⟩, hmap, hv⟩ := hrun
  obtain ⟨-, rfl⟩ := Prod.mk.inj hv
  obtain ⟨F', hadded⟩ := hw.adds h hva hnone (hclean f u w halloc hfillrun) hmap
  exact ⟨f, w, F', hadded⟩

theorem ensureMappedPage_adds (h : Space s F D s.acting root) (hr : OnRoot s root) (hva : pageVa < 2 ^ 47)
    (hread : ∀ vme, s.vmeFor pageVa = some vme → Readable nodes vme) (hclean : FaultClean nodes pageVa s)
    (hrun : (ensureMappedPage nodes pageVa).run s = some (b, t)) :
    t = s ∨ ∃ f w F', PageAdded s F D root (pageVa / FRAME_SIZE) f (leafFlags true true) w t F' := by
  rw [FaultClean, hr.root h.root_lt] at hclean
  unfold ensureMappedPage at hrun
  rw [Prog.bind_run (h.isMapped_run hr hva)] at hrun
  cases he : s.pageEntry root (pageVa / FRAME_SIZE) with
  | some entry =>
    rw [he, Option.isSome_some, if_pos rfl, Prog.run_pure] at hrun
    exact Or.inl hrun.2
  | none =>
    rw [he, Option.isSome_none, if_neg (by simp), Prog.get_bind_run] at hrun
    have hvme : s.vmeFor pageVa = (findVme s.privateVmes pageVa).or (findVme s.sharedVmes pageVa) := rfl
    cases hpriv : findVme s.privateVmes pageVa with
    | some vme =>
      rw [hpriv, Option.some_or] at hvme
      rw [hpriv] at hrun
      exact Or.inr (mapPageFromVme_adds h hr hva he (hread vme hvme) (hclean he vme hvme) hrun)
    | none =>
      rw [hpriv, Option.none_or] at hvme
      rw [hpriv] at hrun
      cases hshared : findVme s.sharedVmes pageVa with
      | some vme =>
        rw [hshared] at hvme hrun
        exact Or.inr (mapPageFromVme_adds h hr hva he (hread vme hvme) (hclean he vme hvme) hrun)
      | none =>
        rw [hshared] at hrun
        exact Or.inl (Prog.run_pure.mp hrun).2

end

/-! ## Steps -/

inductive MemoryAction where
  | kernel (a : Action)
  | fault (p va : Nat)
  | unmap (p start stop : Nat)
  | vmes (p : Nat) (own shared : List VME)

/-- `mmap` and `munmap` are taken apart: the pages they take away, and the lists of VMEs they leave. -/
inductive MemoryStep (nodes : Nat → BlockIO) : World → MemoryAction → World → Prop where
  | kernel {w w' : World} {a : Action} : WorldStep w a w' → MemoryStep nodes w (.kernel a) w'
  | fault {w : World} {p va : Nat} {P : Process} {b : Bool} {t : Machine} :
      w.procs p = some P → va < 2 ^ 47 → (ensureMappedPage nodes va).run (w.m.enter p P) = some (b, t) →
      MemoryStep nodes w (.fault p va) (w.leave p t)
  | unmap {w : World} {p start stop : Nat} {P : Process} {t : Machine} :
      w.procs p = some P → stop ≤ 2 ^ 47 → (unmapRange start stop).run (w.m.enter p P) = some ((), t) →
      MemoryStep nodes w (.unmap p start stop) (w.leave p t)
  | vmes {w : World} {p : Nat} {own shared : List VME} {live : List Nat} {P : Process} :
      w.procs p = some P → VmesOk own →
      MemoryStep nodes w (.vmes p own shared)
        { w with
          m := { w.m with sharedVmes := shared, vmeLive := live }
          procs := fun q => if q = p then some { P with privateVmes := own } else w.procs q }

def memorySystem (entries : List MemmapEntry) (nodes : Nat → BlockIO) : System World MemoryAction where
  init := (worldSystem entries).init
  step := MemoryStep nodes

/-- Every frame that `map` takes for a table has no present word, and the files that pages come from can be read. -/
def CleanMemory (nodes : Nat → BlockIO) (w : World) : MemoryAction → Prop
  | .kernel a => CleanStep w a
  | .fault p va => ∀ P, w.procs p = some P → FaultClean nodes va (w.m.enter p P) ∧
      ∀ vme, (w.m.enter p P).vmeFor va = some vme → Readable nodes vme
  | _ => True

/-! ## The invariant -/

section

variable {entries : List MemmapEntry} {nodes : Nat → BlockIO} {w : World} {F : Set Nat} {D : Nat → Set Nat}

theorem WorldInv.fault (h : WorldInv entries w F D) {p va : Nat} {P : Process} {b : Bool} {t : Machine}
    (hp : w.procs p = some P) (hva : va < 2 ^ 47) (hclean : FaultClean nodes va (w.m.enter p P))
    (hread : ∀ vme, (w.m.enter p P).vmeFor va = some vme → Readable nodes vme)
    (hrun : (ensureMappedPage nodes va).run (w.m.enter p P) = some (b, t)) :
    ∃ F' D', WorldInv entries (w.leave p t) F' D' := by
  obtain ⟨hspace, hr, hheap⟩ := (h.procs p P hp).enter
  rcases ensureMappedPage_adds hspace hr hva hread hclean hrun with rfl | ⟨f, u, F', hadded⟩
  · exact ⟨F, _, h.evolve hp hspace (Evolves.refl _ F (D p)) hheap (Or.inl rfl)⟩
  · have he := hadded.evolves
    exact ⟨F', _, h.evolve hp hadded.space he (hheap.congr he.regs) (Or.inl rfl)⟩

theorem WorldInv.unmap (h : WorldInv entries w F D) {p start stop : Nat} {P : Process} {t : Machine}
    (hp : w.procs p = some P) (hstop : stop ≤ 2 ^ 47)
    (hrun : (unmapRange start stop).run (w.m.enter p P) = some ((), t)) :
    ∃ F' D', WorldInv entries (w.leave p t) F' D' := by
  obtain ⟨hspace, hr, hheap⟩ := (h.procs p P hp).enter
  obtain ⟨F', Dp, ht, he⟩ := unmapRange_spec hspace hr hstop hrun
  exact ⟨F', _, h.evolve hp ht he (hheap.congr he.regs) (Or.inl rfl)⟩

theorem WorldInv.vmes (h : WorldInv entries w F D) {p : Nat} {P : Process} {own : List VME} (shared : List VME)
    (live : List Nat) (hp : w.procs p = some P) (hown : VmesOk own) :
    WorldInv entries
      { w with
        m := { w.m with sharedVmes := shared, vmeLive := live }
        procs := fun q => if q = p then some { P with privateVmes := own } else w.procs q } F D := by
  -- A process as it was, with other VMEs if it is `p`.
  have hold : ∀ {q : Nat} {Q : Process}, (if q = p then some { P with privateVmes := own } else w.procs q) = some Q →
      ∃ Q', w.procs q = some Q' ∧ Q.cr3 = Q'.cr3 ∧ Q.heapStart = Q'.heapStart ∧ Q.heapBreak = Q'.heapBreak ∧
        (VmesOk Q'.privateVmes → VmesOk Q.privateVmes) := by
    intro q Q hQ
    by_cases hqp : q = p
    · rw [if_pos hqp, Option.some.injEq] at hQ
      subst hqp hQ
      exact ⟨P, hp, rfl, rfl, rfl, fun _ => hown⟩
    · rw [if_neg hqp] at hQ
      exact ⟨Q, hQ, rfl, rfl, rfl, id⟩
  refine ⟨h.wf.congr rfl rfl rfl fun _ _ => rfl, h.usable, fun q Q hQ => ?_, fun q r Q R hqr hQ hR => ?_,
    fun q Q hQ => ?_, h.root_mapped, h.kernel, h.newVme⟩
  · obtain ⟨Q', hQ', hcr3, hstart, hbreak, hvmes⟩ := hold hQ
    have hq := h.procs q Q' hQ'
    have hroot : Q.root = Q'.root := by rw [Process.root, Process.root, hcr3]
    refine ⟨?_, by rw [hroot, hcr3]; exact hq.cr3, hq.usable, by rw [hstart, hbreak]; exact hq.heap, hvmes hq.vmes⟩
    rw [hroot]
    exact hq.space.congr rfl rfl rfl rfl rfl
  · obtain ⟨Q', hQ', -⟩ := hold hQ
    obtain ⟨R', hR', -⟩ := hold hR
    exact h.apart q r Q' R' hqr hQ' hR'
  · obtain ⟨Q', hQ', -⟩ := hold hQ
    exact h.born q Q' hQ'

theorem WorldInv.memory_step (h : WorldInv entries w F D) {a : MemoryAction} {w' : World}
    (hclean : CleanMemory nodes w a) (hstep : MemoryStep nodes w a w') : ∃ F' D', WorldInv entries w' F' D' := by
  cases hstep with
  | kernel hstep => exact h.clean_step hclean hstep
  | fault hp hva hrun =>
    obtain ⟨hfault, hread⟩ := hclean _ hp
    exact h.fault hp hva hfault hread hrun
  | unmap hp hstop hrun => exact h.unmap hp hstop hrun
  | vmes hp hown => exact ⟨F, D, h.vmes _ _ hp hown⟩

end

theorem worldInv_of_memory {entries : List MemmapEntry} {nodes : Nat → BlockIO} {w : World}
    (h : System.GuardedReachable (memorySystem entries nodes) (CleanMemory nodes) w) : ∃ F D,
        WorldInv entries w F D := by
  obtain ⟨w₀, l, hinit, hrun⟩ := h
  refine hrun.preserves (I := fun w => ∃ F D, WorldInv entries w F D) ?_ (worldInv_init hinit)
  rintro s a t ⟨F, D, hs⟩ hclean hstep
  exact hs.memory_step hclean hstep

theorem memory_of_world {entries : List MemmapEntry} (nodes : Nat → BlockIO) {w : World}
    (h : System.GuardedReachable (worldSystem entries) CleanStep w) :
    System.GuardedReachable (memorySystem entries nodes) (CleanMemory nodes) w := by
  obtain ⟨w₀, l, hinit, hrun⟩ := h
  refine hrun.preserves (I := System.GuardedReachable (memorySystem entries nodes) (CleanMemory nodes)) ?_
    ⟨w₀, [], hinit, .nil _⟩
  intro s a t hs hclean hstep
  exact System.GuardedReachable.step (a := .kernel a) hs hclean (.kernel hstep)

end Kernel
