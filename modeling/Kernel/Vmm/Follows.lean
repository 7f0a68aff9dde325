import Kernel.Vmm.Memories

/-!
# The kernel's memory follows the memories of the processes

Each call on the machine, with its frames and tables, is the same call on the
memories that the processes seem to have.
-/

namespace Kernel

open Lib

/-! ## Places in files -/

def backing (l : List VME) : Backing := fun va => (findVme l va).map fun vme => (vme.node, vme.fileAt va)

section

variable {l l' passed rest : List VME} {vme : VME} {va i j : Nat}

theorem findVme_isSome_iff : (findVme l va).isSome ↔ vmeSpan.Covers l va := by
  simp only [findVme, List.find?_isSome, Bool.and_eq_true, decide_eq_true_eq, Span.Covers, Span.Holds, vmeSpan_lo,
    vmeSpan_hi, ge_iff_le]

theorem backing_isSome : (backing l va).isSome ↔ vmeSpan.Covers l va := by
  rw [backing, Option.isSome_map, findVme_isSome_iff]

theorem backing_none : backing l va = none ↔ ¬ vmeSpan.Covers l va := by
  rw [← backing_isSome, Option.not_isSome_iff_eq_none]

theorem backing_free : (backing l).Free i j ↔ vmeSpan.Free l i j :=
  forall_congr' fun _ => forall_congr' fun _ => forall_congr' fun _ => backing_none

theorem findVme_of_mem (ho : vmeSpan.Ordered l) (hv : vme ∈ l) (hn : vmeSpan.Holds vme va) :
    findVme l va = some vme := by
  induction l with
  | nil => cases hv
  | cons v next ih =>
    obtain ⟨hnext, hordered⟩ := List.pairwise_cons.mp ho
    obtain ⟨hlo, hhi⟩ := hn
    rw [findVme, List.find?_cons]
    rcases List.mem_cons.mp hv with rfl | hv'
    · have hholds : (decide (va ≥ vme.start) && decide (va < vme.end)) = true := by
        simp only [vmeSpan_lo, vmeSpan_hi] at hlo hhi
        simp [hlo, hhi]
      rw [hholds]
    · have hpast : (decide (va ≥ v.start) && decide (va < v.end)) = false := by
        have hle : v.end ≤ vme.start := hnext vme hv'
        simp only [vmeSpan_lo] at hlo
        simp only [Bool.and_eq_false_iff, decide_eq_false_iff_not]
        right
        omega
      rw [hpast]
      exact ih hordered hv'

theorem backing_of_mem (ho : vmeSpan.Ordered l) (hv : vme ∈ l) (hn : vmeSpan.Holds vme va) :
    backing l va = some (vme.node, vme.fileAt va) := by
  rw [backing, findVme_of_mem ho hv hn]
  rfl

theorem backing_insert (ho : vmeSpan.Ordered (passed ++ vme :: rest)) {a length file offset : Nat}
    (hvme : vme.start = a ∧ vme.end = a + length ∧ vme.node = file ∧ vme.offset = offset) :
    backing (passed ++ vme :: rest) = (backing (passed ++ rest)).map a length file offset := by
  obtain ⟨rfl, hend, rfl, rfl⟩ := hvme
  funext va
  unfold Backing.map
  split_ifs with hin
  · exact backing_of_mem ho (by simp) ⟨hin.1, by rw [vmeSpan_hi, hend]; exact hin.2⟩
  · have hout : (decide (va ≥ vme.start) && decide (va < vme.end)) = false := by
      simp only [Bool.and_eq_false_iff, decide_eq_false_iff_not]
      omega
    unfold backing findVme
    rw [List.find?_append, List.find?_append, List.find?_cons, hout]

theorem backing_cut (ho : vmeSpan.Ordered l) (hcut : vmeSpan.CutOut VME.Part i j l l') :
    backing l' = (backing l).cut i j := by
  funext va
  unfold Backing.cut
  split_ifs with hin
  · exact backing_none.mpr (hcut.free va hin.1 hin.2)
  · by_cases hcovers : vmeSpan.Covers l va
    · obtain ⟨v, hv, hn⟩ := hcovers
      obtain ⟨w, hw, hpart, hwn⟩ := hcut.kept hv hn (by omega)
      rw [backing_of_mem ho hv hn, backing_of_mem (hcut.ordered ho) hw hwn, hpart.node, hpart.file]
    · rw [backing_none.mpr hcovers, backing_none]
      rintro ⟨w, hw, hlo, hhi⟩
      obtain ⟨v, hv, -, hvlo, -, hvhi, -⟩ := hcut.part hw
      exact hcovers ⟨v, hv, Nat.le_trans hvlo hlo, Nat.lt_of_lt_of_le hhi hvhi⟩

theorem VME.eq_of_area {v w : VME} (h : w.area = v.area) :
    w.start = v.start ∧ w.end = v.end ∧ w.shared = v.shared ∧ w.node = v.node ∧ w.offset = v.offset := by
  unfold VME.area at h
  grind

theorem backing_areas (h : l'.map VME.area = l.map VME.area) : backing l' = backing l := by
  funext va
  unfold backing findVme
  induction l generalizing l' with
  | nil => rw [List.map_nil, List.map_eq_nil_iff] at h; rw [h]
  | cons v next ih =>
    cases l' with
    | nil => cases h
    | cons w next' =>
      rw [List.map_cons, List.map_cons, List.cons.injEq] at h
      obtain ⟨hstart, hend, -, hnode, hoffset⟩ := VME.eq_of_area h.1
      have hrest := ih h.2
      simp only [List.find?_cons, hstart, hend]
      split
      · simp only [Option.map_some, hnode, VME.fileAt, hoffset, hstart]
      · exact hrest

theorem Mappings.of_areas (hl : Mappings l) (h : l'.map VME.area = l.map VME.area) : Mappings l' := by
  have heach : ∀ w ∈ l', ∃ v ∈ l, w.area = v.area := by
    intro w hw
    obtain ⟨v, hv, harea⟩ := List.mem_map.mp (h ▸ List.mem_map_of_mem (f := VME.area) hw)
    exact ⟨v, hv, harea.symm⟩
  have hordered : vmeSpan.Ordered l' := by
    have hpair : ((l.map VME.area).map fun a => (a.1, a.2.1)).Pairwise fun a b => a.2 ≤ b.1 := by
      rw [List.map_map, List.pairwise_map]
      exact hl.ordered
    rw [← h, List.map_map, List.pairwise_map] at hpair
    exact hpair
  refine PrivateVmes.mappings ⟨hordered, fun w hw => ?_⟩ fun w hw => ?_
  · obtain ⟨v, hv, harea⟩ := heach w hw
    obtain ⟨hstart, hend, hshared, -, -⟩ := VME.eq_of_area harea
    have hpriv := hl.each v hv
    exact ⟨by rw [hstart, hend]; exact hpriv.forward, by rw [hstart]; exact hpriv.low, by rw [hend]; exact hpriv.high,
      by rw [hstart, hend]; exact hpriv.aligned, by rw [hshared]; exact hpriv.unshared⟩
  · obtain ⟨v, hv, harea⟩ := heach w hw
    obtain ⟨hstart, hend, -⟩ := VME.eq_of_area harea
    rw [hstart, hend]
    exact hl.nonempty v hv

end

/-! ## What the processes seem to have -/

def Machine.own (m : Machine) (P : Process) : Private :=
  ⟨m.image P.root, backing P.privateVmes, P.heapStart, P.heapBreak⟩

def World.memories (w : World) : Memories :=
  ⟨fun p => (w.procs p).map w.m.own, backing w.m.sharedVmes, w.m.sharedStart, w.born⟩

/-- The call leaves everything in order, and is the same call on the memories. -/
structure Follows (entries : List MemmapEntry) (nodes : Nat → BlockIO) (w : World) (c : UserCall) (w' : World) :
    Prop where
  inv : ∃ F' D', CallsInv entries w' F' D'
  step : MemoriesStep nodes w.memories c w'.memories

section

variable {entries : List MemmapEntry} {nodes : Nat → BlockIO} {w w' : World} {F : Set Nat} {D : Nat → Set Nat}
  {p q : Nat} {P Q : Process} {t u : Machine}

theorem memories_procs (hp : w.procs p = some P) : w.memories.procs p = some (w.m.own P) := by
  show (w.procs p).map w.m.own = _
  rw [hp]
  rfl

theorem memories_ext {M : Memories} (hprocs : ∀ q, (w.procs q).map w.m.own = M.procs q)
    (hshared : backing w.m.sharedVmes = M.shared) (hstart : w.m.sharedStart = M.sharedStart) (hborn : w.born = M.born) :
    w.memories = M := by
  unfold World.memories
  rw [hshared, hstart, hborn, funext hprocs]

theorem Memories.put_same {M : Memories} {X : Private} (h : M.procs p = some X) : M.put p X = M := by
  unfold Memories.put
  rw [Function.update_eq_self_iff.mpr h.symm]

theorem CallsInv.image_other (h : CallsInv entries w F D) (hp : w.procs p = some P) (hq : w.procs q = some Q)
    (hne : q ≠ p) (hother : ∀ g, g ∉ F ∪ D p → t.mem g = w.m.mem g) : t.image Q.root = w.m.image Q.root := by
  have hQ := (h.world.procs q Q hq).space
  refine hQ.image_congr fun g hg => hother g ?_
  rintro (hF | hD)
  · exact (hQ.owned g hg).1 hF
  · exact Set.disjoint_left.mp (h.world.apart q p Q P hne hq hp) hg hD

theorem Worked.memories (h : Worked entries w F D p P t) (hinv : CallsInv entries w F D) (hp : w.procs p = some P) :
    (w.leave p t).memories =
      { w.memories.put p ⟨t.image P.root, backing t.privateVmes, t.heapStart, t.heapBreak⟩ with
        shared := backing t.sharedVmes } := by
  have hstart : t.sharedStart = w.m.sharedStart := by
    rw [Machine.sharedStart, Machine.sharedStart, h.hhdm]
  refine memories_ext (fun q => ?_) rfl hstart rfl
  show ((w.leave p t).procs q).map t.own = Function.update w.memories.procs p (some _) q
  rw [World.leave]
  dsimp only
  by_cases hq : q = p
  · rw [hq, if_pos rfl, Function.update_self, Option.map_some, Machine.own, h.root]
    rfl
  · rw [if_neg hq, Function.update_of_ne hq]
    exact Option.map_congr fun Q hQ => by rw [Machine.own, Machine.own, hinv.image_other hp hQ hq h.other]

theorem memories_leave_same (hp : w.procs p = some P) : (w.leave p (w.m.enter p P)).memories = w.memories := by
  refine memories_ext (fun q => ?_) rfl rfl rfl
  show ((w.leave p (w.m.enter p P)).procs q).map w.m.own = (w.procs q).map w.m.own
  rw [World.leave]
  dsimp only
  by_cases hq : q = p
  · rw [hq, if_pos rfl, hp]
    rfl
  · rw [if_neg hq]

/-! ## One call after the other -/

theorem Keeps.of_evolves {s : Machine} {F D F' D' : Set Nat} {root : Nat} (h : Space t F' D' s.acting root)
    (he : Evolves s F D t F' D') : Keeps s F D root t :=
  ⟨F', D', h, he.sub, he.other, by
    have := congrArg (fun x : Machine => { x with vmeLive := s.vmeLive }) he.regs
    exact this⟩

theorem Keeps.process {s : Machine} {F D : Set Nat} {root : Nat} (h : Keeps s F D root t) :
    t.privateVmes = s.privateVmes ∧ t.sharedVmes = s.sharedVmes ∧ t.heapStart = s.heapStart ∧
      t.heapBreak = s.heapBreak := by
  obtain ⟨_, _, -, he⟩ := h
  have hprivate := congrArg Machine.privateVmes he.regs
  have hshared := congrArg Machine.sharedVmes he.regs
  have hstart := congrArg Machine.heapStart he.regs
  have hbreak := congrArg Machine.heapBreak he.regs
  exact ⟨hprivate, hshared, hstart, hbreak⟩

theorem Keeps.heapOk {s : Machine} {F D : Set Nat} {root : Nat} (h : Keeps s F D root t) (hs : HeapOk s) :
    HeapOk t := by
  obtain ⟨-, -, hstart, hbreak⟩ := h.process
  rw [HeapOk, hstart, hbreak]
  exact hs

theorem Mappings.ok {l : List VME} (h : Mappings l) : VmesOk l := fun v hv => (h.each v hv).high

theorem CallsInv.pages (h : CallsInv entries w F D) (hp : w.procs p = some P)
    (hkeeps : Keeps (w.m.enter p P) F (D p) P.root t) :
    (∃ F' D', CallsInv entries (w.leave p t) F' D') ∧
      (w.leave p t).memories = w.memories.put p { w.m.own P with image := t.image P.root } := by
  obtain ⟨hspace, hr, hheap⟩ := (h.world.procs p P hp).enter
  obtain ⟨hprivate, hshared, hstart, hbreak⟩ := hkeeps.process
  have hmappings : Mappings t.privateVmes := by
    rw [hprivate]
    exact h.mappings p P hp
  have hworked := h.world.worked hp hkeeps ⟨rfl, rfl, rfl, rfl, rfl, rfl⟩ (hkeeps.heapOk hheap) hmappings.ok
  refine ⟨hworked.inv h hmappings (by rw [hshared]; exact h.shared), ?_⟩
  rw [hworked.memories h hp, hprivate, hshared, hstart, hbreak]
  rfl

theorem CallsInv.load (h : CallsInv entries w F D) {start size : Nat} (hp : w.procs p = some P)
    (hend : start + size ≤ 2 ^ 47) (hclean : mapRangeClean true true start size (w.m.enter p P))
    (hrun : (map_range start size true true).run (w.m.enter p P) = some ((), t)) :
    Follows entries nodes w (.load p start size) (w.leave p t) := by
  obtain ⟨hspace, hr, -⟩ := (h.world.procs p P hp).enter
  obtain ⟨F', D', ht, he⟩ := map_range_spec hspace hr hend hclean hrun
  obtain ⟨hinv, hmem⟩ := h.pages hp (Keeps.of_evolves ht he)
  have hgrown := map_range_grown hspace hr hend hclean hrun
  refine ⟨hinv, ?_⟩
  rw [hmem]
  exact .load (memories_procs hp) hgrown

theorem CallsInv.init_heap (h : CallsInv entries w F D) {initial_break : Nat} (hp : w.procs p = some P)
    (hrun : (init_heap_break initial_break).run (w.m.enter p P) = some ((), t)) :
    Follows entries nodes w (.init_heap p initial_break) (w.leave p t) := by
  obtain ⟨hspace, hr, -⟩ := (h.world.procs p P hp).enter
  have hmax : (if initial_break < 0x1000 then 0x1000 else initial_break) = max 0x1000 initial_break := by
    split_ifs <;> omega
  rw [init_heap_break, hmax, Prog.run_modify] at hrun
  subst hrun
  have hworked := h.world.worked hp (Keeps.refl hspace) ⟨rfl, rfl, rfl, rfl, rfl, rfl⟩
    (t := { w.m.enter p P with heapStart := max 0x1000 initial_break, heapBreak := max 0x1000 initial_break })
    (Or.inl rfl) (h.mappings p P hp).ok
  refine ⟨hworked.inv h (h.mappings p P hp) h.shared, ?_⟩
  rw [hworked.memories h hp]
  exact .init_heap (memories_procs hp)

theorem CallsInv.unchanged (h : CallsInv entries w F D) {c : UserCall} (hp : w.procs p = some P)
    (hstep : MemoriesStep nodes w.memories c w.memories) : Follows entries nodes w c (w.leave p (w.m.enter p P)) := by
  obtain ⟨hspace, -, -⟩ := (h.world.procs p P hp).enter
  have hinv := (h.pages hp (Keeps.refl hspace)).1
  refine ⟨hinv, ?_⟩
  rw [memories_leave_same hp]
  exact hstep

theorem CallsInv.brk (h : CallsInv entries w F D) {new_break : Nat} {r : Int} (hp : w.procs p = some P)
    (hclean : brkClean new_break (w.m.enter p P))
    (hrun : (set_heap_break new_break).run (w.m.enter p P) = some (r, t)) :
    Follows entries nodes w (.brk p new_break r) (w.leave p t) := by
  obtain ⟨hspace, hr, hheap⟩ := (h.world.procs p P hp).enter
  by_cases hmay : (w.m.enter p P).mayBreak new_break
  · obtain ⟨hr0, hbreak, hstart, hmoved⟩ := set_heap_break_image hspace hr hheap hclean hmay hrun
    obtain ⟨F', D', u, hu, he, hheap', ht⟩ := set_heap_break_spec hspace hr hheap hclean hrun
    have hkeeps := Keeps.of_evolves hu he
    obtain ⟨hprivate, hshared, -, -⟩ := hkeeps.process
    have hsame : t.mem = u.mem ∧ t.owner = u.owner ∧ t.avail = u.avail ∧ t.free_ranges = u.free_ranges ∧
        t.fixed = u.fixed ∧ t.cr3 = u.cr3 ∧ t.privateVmes = u.privateVmes ∧ t.sharedVmes = u.sharedVmes := by
      rcases ht with rfl | rfl <;> exact ⟨rfl, rfl, rfl, rfl, rfl, rfl, rfl, rfl⟩
    obtain ⟨hm, ho, ha, hranges, hfixed, hcr3, htprivate, htshared⟩ := hsame
    have hmappings : Mappings t.privateVmes := by
      rw [htprivate, hprivate]
      exact h.mappings p P hp
    have hworked := h.world.worked hp hkeeps ⟨hm, ho, ha, hranges, hfixed, hcr3⟩ hheap' hmappings.ok
    refine ⟨hworked.inv h hmappings (by rw [htshared, hshared]; exact h.shared), ?_⟩
    rw [hworked.memories h hp, htprivate, hprivate, htshared, hshared, hbreak, hstart, hr0]
    exact .brk (memories_procs hp) hmay hmoved
  · rw [set_heap_break_refused hmay, Option.some.injEq, Prod.mk.injEq] at hrun
    obtain ⟨rfl, rfl⟩ := hrun
    exact h.unchanged hp (.brk_refused (memories_procs hp) hmay)

/-! ### `mmap` -/

/-- The list with a private mapping of `length` bytes at `va`. -/
structure PrivatePlaced (s : Machine) (length file offset va : Nat) (t : Machine) : Prop where
  low : 0x1000 ≤ va
  high : va + pagesLength length ≤ 2 ^ 47
  aligned : va % FRAME_SIZE = 0
  free : vmeSpan.Free s.privateVmes va (va + pagesLength length)
  list : Mappings t.privateVmes
  places : backing t.privateVmes = (backing s.privateVmes).map va (pagesLength length) file offset
  state : t = { s with vmeLive := t.vmeLive, privateVmes := t.privateVmes }

theorem mmap_placed {s t : Machine} {length file offset va : Nat} {flags : BitVec 32} (h : Mappings s.privateVmes)
    (hflags : flags &&& MAP_SHARED = 0) (hmay : MayMap length flags file offset) (hroom : HasRoom s.privateVmes length)
    (hrun : (mmap length flags file offset).run s = some (va, t)) : PrivatePlaced s length file offset va t := by
  obtain ⟨passed, va', rest, hgap⟩ : ∃ passed va rest,
      findGap (roundUpPage length) 0x1000 s.privateVmes = (passed, va, rest) := ⟨_, _, _, rfl⟩
  have happend := findGap_append (roundUpPage length) 0x1000 s.privateVmes
  rw [hgap] at happend
  dsimp only at happend
  rw [mmap_private hflags hmay hgap, Option.some.injEq, Prod.mk.injEq] at hrun
  obtain ⟨rfl, rfl⟩ := hrun
  obtain ⟨hlist, -⟩ := placed_in_gap h hmay.1 hroom hgap
    (Eq.refl (VME.mk (s.newVme s.vmeLive) va' (add64 va' (roundUpPage length)) false file offset))
  have hvme := hlist.each ⟨s.newVme s.vmeLive, va', add64 va' (roundUpPage length), false, file, offset⟩ (by simp)
  obtain ⟨a, -, hhigh, -⟩ := hroom
  have hforward := hvme.forward
  have hend' := hvme.high
  have hend : add64 va' (roundUpPage length) = va' + pagesLength length := by
    dsimp only at hforward hend'
    rw [roundUpPage_eq (by omega)]
    exact Nat.mod_eq_of_lt (by omega)
  have hfree := hlist.ordered.around
  rw [happend, vmeSpan_lo, vmeSpan_hi, hend] at hfree
  rw [hend] at hend'
  refine ⟨hvme.low, hend', hvme.aligned.1, hfree, hlist, ?_, rfl⟩
  dsimp only
  rw [backing_insert hlist.ordered ⟨rfl, hend, rfl, rfl⟩, happend]

theorem CallsInv.mmap_private (h : CallsInv entries w F D) {length file offset r : Nat} {flags : BitVec 32}
    (hp : w.procs p = some P) (hmay : MayMap length flags file offset) (hflags : flags &&& MAP_SHARED = 0)
    (hroom : HasRoom P.privateVmes length)
    (hrun : (Kernel.mmap length flags file offset).run (w.m.enter p P) = some (r, t)) :
    Follows entries nodes w (.mmap p length flags file offset r) (w.leave p t) := by
  obtain ⟨hspace, -, hheap⟩ := (h.world.procs p P hp).enter
  have hplaced := mmap_placed (s := w.m.enter p P) (h.mappings p P hp) hflags hmay hroom hrun
  have hstate := hplaced.state
  have hworked := h.world.worked hp (Keeps.refl hspace) (t := t) (by rw [hstate]; exact ⟨rfl, rfl, rfl, rfl, rfl, rfl⟩)
    (by rw [hstate]; exact hheap) hplaced.list.ok
  refine ⟨hworked.inv h hplaced.list (by rw [hstate]; exact h.shared), ?_⟩
  have hrest : t.image P.root = w.m.image P.root ∧ t.heapStart = P.heapStart ∧ t.heapBreak = P.heapBreak ∧
      t.sharedVmes = w.m.sharedVmes := by
    rw [hstate]
    exact ⟨rfl, rfl, rfl, rfl⟩
  rw [hworked.memories h hp, hplaced.places, hrest.1, hrest.2.1, hrest.2.2.1, hrest.2.2.2]
  exact .mmap_private (memories_procs hp) hmay hflags hplaced.low hplaced.high hplaced.aligned
    (backing_free.mpr hplaced.free)

theorem CallsInv.mmap_shared (h : CallsInv entries w F D) {length file offset r : Nat} {flags : BitVec 32}
    (hp : w.procs p = some P) (hmay : MayMap length flags file offset) (hflags : flags &&& MAP_SHARED ≠ 0)
    (hlength : pagesLength length < 2 ^ 64)
    (hrun : (Kernel.mmap length flags file offset).run (w.m.enter p P) = some (r, t)) :
    Follows entries nodes w (.mmap p length flags file offset r) (w.leave p t) := by
  obtain ⟨hspace, -, hheap⟩ := (h.world.procs p P hp).enter
  have hmappings := h.mappings p P hp
  have hrange : SharedRange (w.m.enter p P) := ⟨h.range.aligned, h.range.le⟩
  rcases Kernel.mmap_shared hrange h.shared hflags hmay hlength with ⟨hfull, hnone⟩ | ⟨va, t', hplaced, hsome⟩
  · rw [hnone, Option.some.injEq, Prod.mk.injEq] at hrun
    obtain ⟨rfl, rfl⟩ := hrun
    refine h.unchanged hp (.mmap_full (memories_procs hp) hmay hflags fun a hlow hhigh hfree => hfull ?_)
    exact ⟨a, hlow, hhigh, backing_free.mp hfree⟩
  · rw [hsome, Option.some.injEq, Prod.mk.injEq] at hrun
    obtain ⟨rfl, rfl⟩ := hrun
    obtain ⟨passed, rest, happend, hstate⟩ := hplaced.state
    have hworked := h.world.worked hp (Keeps.refl hspace) (t := t')
      (by rw [hstate]; exact ⟨rfl, rfl, rfl, rfl, rfl, rfl⟩) (by rw [hstate]; exact hheap)
      (by rw [hstate]; exact hmappings.ok)
    have hlist := hplaced.list
    refine ⟨hworked.inv h (by rw [hstate]; exact hmappings) hlist, ?_⟩
    have hshared : backing t'.sharedVmes = (backing w.m.sharedVmes).map va (pagesLength length) file offset := by
      rw [hstate] at hlist ⊢
      dsimp only at hlist ⊢
      rw [backing_insert hlist.ordered ⟨rfl, rfl, rfl, rfl⟩, ← happend]
      rfl
    have hown : Private.mk (t'.image P.root) (backing t'.privateVmes) t'.heapStart t'.heapBreak = w.m.own P := by
      rw [hstate]
      rfl
    rw [hworked.memories h hp, hshared, hown, Memories.put_same (memories_procs hp)]
    exact .mmap_shared (memories_procs hp) hmay hflags hplaced.low hplaced.high hplaced.aligned
      (backing_free.mpr hplaced.free)

theorem CallsInv.mmap (h : CallsInv entries w F D) {length file offset r : Nat} {flags : BitVec 32}
    (hp : w.procs p = some P) (hclean : CleanCall nodes w (.mmap p length flags file offset r))
    (hrun : (Kernel.mmap length flags file offset).run (w.m.enter p P) = some (r, t)) :
    Follows entries nodes w (.mmap p length flags file offset r) (w.leave p t) := by
  by_cases hmay : MayMap length flags file offset
  · have hfits := hclean P hp hmay
    by_cases hflags : flags &&& MAP_SHARED = 0
    · rw [if_pos hflags] at hfits
      exact h.mmap_private hp hmay hflags hfits hrun
    · rw [if_neg hflags] at hfits
      exact h.mmap_shared hp hmay hflags hfits hrun
  · rw [mmap_refused hmay, Option.some.injEq, Prod.mk.injEq] at hrun
    obtain ⟨rfl, rfl⟩ := hrun
    exact h.unchanged hp (.mmap_refused (memories_procs hp) hmay)

/-! ### `munmap` -/

/-- The pages and the places of a range are gone. -/
structure RangeUnmapped (s : Machine) (F D : Set Nat) (root start length : Nat) (t : Machine) : Prop where
  list : Mappings t.privateVmes
  places : backing t.privateVmes = (backing s.privateVmes).cut start (start + pagesLength length)
  image : t.image root = fun a =>
    if start ≤ a ∧ a < start + pagesLength length ∧ (backing s.privateVmes a).isSome then none else s.image root a
  keeps : ∃ u, Keeps s F D root u ∧ t = { u with privateVmes := t.privateVmes }

theorem mem_coveredPages {l : List VME} (hl : PrivateVmes l) {start stop a : Nat}
    (haligned : start % FRAME_SIZE = 0 ∧ stop % FRAME_SIZE = 0) :
    a / FRAME_SIZE ∈ coveredPages l start stop ↔ start ≤ a ∧ a < stop ∧ vmeSpan.Covers l a := by
  have hiff : vmeSpan.Covers l (a / FRAME_SIZE * FRAME_SIZE) ↔ vmeSpan.Covers l a := by
    refine exists_congr fun vme => and_congr_right fun hvme => ?_
    have := (hl.each vme hvme).aligned
    simp only [Span.Holds, vmeSpan_lo, vmeSpan_hi, FRAME_SIZE] at *
    omega
  simp only [coveredPages, Set.mem_ofPred_eq, hiff]
  constructor
  all_goals
    rintro ⟨hlo, hhi, hc⟩
    simp only [FRAME_SIZE] at *
    exact ⟨by omega, by omega, hc⟩

theorem munmap_unmapped {s t : Machine} {F D : Set Nat} {root start length : Nat} {r : Int}
    (hl : Mappings s.privateVmes) (h : Space s F D s.acting root) (hr : OnRoot s root) (hmay : s.mayUnmap start length)
    (hmeets : ∃ vme ∈ s.privateVmes, vme.Meets start (add64 start (roundUpPage length)))
    (hend : add64 start (roundUpPage length) = start + pagesLength length)
    (hrun : (munmap start length).run s = some (r, t)) : r = 0 ∧ RangeUnmapped s F D root start length t := by
  classical
  have hpriv := hl.toPrivateVmes
  obtain ⟨hcut, hr0⟩ := munmap_cuts hpriv hmay hrun
  rw [if_pos hmeets] at hr0
  rw [hend] at hcut
  obtain ⟨l', r', u, F', hloop, hgone⟩ : ∃ l' r' u F',
      (munmapFrom start (add64 start (roundUpPage length)) false s.privateVmes).run s = some ((l', r'), u) ∧
        PagesGone s F s.acting root (coveredPages s.privateVmes start (add64 start (roundUpPage length))) u F' :=
    munmapFrom_gone false hpriv hmay.1 h.shrink hr
  have ht : t = { u with privateVmes := l' } := by
    rw [munmap_checked hmay, hloop, Option.map_some, Option.some.injEq, Prod.mk.injEq] at hrun
    exact hrun.2.symm
  have hu : t.image root = u.image root := by
    rw [ht]
    rfl
  refine ⟨hr0, munmap_mappings hl hrun, backing_cut hl.ordered hcut, ?_, u,
    munmapFrom_keeps hpriv h hr hloop, by rw [ht]⟩
  rw [hu, hgone.image]
  funext a
  have hpage : a / FRAME_SIZE ∈ coveredPages s.privateVmes start (add64 start (roundUpPage length)) ↔
      start ≤ a ∧ a < start + pagesLength length ∧ (backing s.privateVmes a).isSome := by
    rw [backing_isSome, ← hend]
    exact mem_coveredPages hpriv ⟨hmay.1, add64_aligned hmay.1 (roundUpPage_aligned length)⟩
  unfold Image.without
  by_cases hin : a / FRAME_SIZE ∈ coveredPages s.privateVmes start (add64 start (roundUpPage length))
  · rw [if_pos hin, if_pos (hpage.mp hin)]
  · rw [if_neg hin, if_neg fun hc => hin (hpage.mpr hc)]

theorem mayUnmap_iff {start length : Nat} (hstart : start < 2 ^ 64) (hlength : length < 2 ^ 64) :
    w.memories.mayUnmap (w.m.own P) start length ↔ (w.m.enter p P).mayUnmap start length ∧
      ∃ vme ∈ P.privateVmes, vme.Meets start (add64 start (roundUpPage length)) := by
  have hfree : ∀ j, ¬ (w.m.own P).backing.Free start j ↔ ∃ va, start ≤ va ∧ va < j ∧
    vmeSpan.Covers P.privateVmes va := by
    intro j
    show ¬ (backing P.privateVmes).Free start j ↔ _
    rw [backing_free]
    simp only [Span.Free, not_forall, not_not, exists_prop]
  have hshared : (w.m.enter p P).isSharedAddress start ↔ w.m.sharedStart ≤ start ∧ start < sharedEnd := Iff.rfl
  unfold Memories.mayUnmap Machine.mayUnmap
  rw [hfree, hshared]
  constructor
  · rintro ⟨haligned, hout, hpos, hlt, va, hlo, hhi, vme, hvme, hn⟩
    have hend : add64 start (roundUpPage length) = start + pagesLength length := by
      rw [roundUpPage_eq (by omega)]
      exact Nat.mod_eq_of_lt hlt
    refine ⟨⟨haligned, by omega, hout, by omega⟩, vme, hvme, ?_⟩
    simp only [Span.Holds, vmeSpan_lo, vmeSpan_hi] at hn
    unfold VME.Meets
    omega
  · rintro ⟨⟨haligned, hne, hout, hle⟩, vme, hvme, hm⟩
    unfold VME.Meets at hm
    obtain ⟨hend, hlt⟩ : add64 start (roundUpPage length) = start + pagesLength length ∧
        start + pagesLength length < 2 ^ 64 := by
      rcases range_end hstart hlength hle with h | h <;> omega
    refine ⟨haligned, hout, by omega, hlt, max start vme.start, by omega, by omega, vme, hvme, ?_⟩
    simp only [Span.Holds, vmeSpan_lo, vmeSpan_hi]
    omega

theorem munmap_none {s t : Machine} {start length : Nat} {r : Int} (hl : PrivateVmes s.privateVmes)
    (hnot : ¬ (s.mayUnmap start length ∧
      ∃ vme ∈ s.privateVmes, vme.Meets start (add64 start (roundUpPage length))))
    (hrun : (munmap start length).run s = some (r, t)) : r = -1 ∧ t = s := by
  by_cases hmay : s.mayUnmap start length
  · have hnone : ∀ vme ∈ s.privateVmes, ¬ vme.Meets start (add64 start (roundUpPage length)) :=
      fun vme hvme hm => hnot ⟨hmay, vme, hvme, hm⟩
    rw [munmap_checked hmay, munmapFrom_misses hl hnone, Option.map_some, Option.some.injEq, Prod.mk.injEq] at hrun
    exact ⟨hrun.1.symm, hrun.2.symm⟩
  · rw [munmap_refused hmay, Option.some.injEq, Prod.mk.injEq] at hrun
    exact ⟨hrun.1.symm, hrun.2.symm⟩

theorem CallsInv.munmap (h : CallsInv entries w F D) {start length : Nat} {r : Int} (hp : w.procs p = some P)
    (hstart : start < 2 ^ 64) (hlength : length < 2 ^ 64)
    (hrun : (Kernel.munmap start length).run (w.m.enter p P) = some (r, t)) :
    Follows entries nodes w (.munmap p start length r) (w.leave p t) := by
  obtain ⟨hspace, hr, hheap⟩ := (h.world.procs p P hp).enter
  have hmappings := h.mappings p P hp
  have hiff := mayUnmap_iff (w := w) (p := p) (P := P) hstart hlength
  by_cases hmem : w.memories.mayUnmap (w.m.own P) start length
  · obtain ⟨hmay, hmeets⟩ := hiff.mp hmem
    obtain ⟨-, -, -, hlt, -⟩ := id hmem
    have hend : add64 start (roundUpPage length) = start + pagesLength length := by
      have := le_pagesLength length
      rw [roundUpPage_eq (by omega)]
      exact Nat.mod_eq_of_lt hlt
    obtain ⟨rfl, hunmapped⟩ := munmap_unmapped hmappings hspace hr hmay hmeets hend hrun
    obtain ⟨u, hkeeps, ht⟩ := hunmapped.keeps
    obtain ⟨-, hshared, hstart', hbreak⟩ := hkeeps.process
    have hworked := h.world.worked hp hkeeps (t := t) (by rw [ht]; exact ⟨rfl, rfl, rfl, rfl, rfl, rfl⟩)
      (by rw [ht]; exact hkeeps.heapOk hheap) hunmapped.list.ok
    have hrest : t.heapStart = P.heapStart ∧ t.heapBreak = P.heapBreak ∧ t.sharedVmes = w.m.sharedVmes := by
      rw [ht]
      exact ⟨hstart', hbreak, hshared⟩
    refine ⟨hworked.inv h hunmapped.list (by rw [hrest.2.2]; exact h.shared), ?_⟩
    rw [hworked.memories h hp, hunmapped.image, hunmapped.places, hrest.1, hrest.2.1, hrest.2.2]
    exact .munmap (memories_procs hp) hmem
  · obtain ⟨rfl, rfl⟩ := munmap_none hmappings.toPrivateVmes (fun hc => hmem (hiff.mpr hc)) hrun
    exact h.unchanged hp (.munmap_refused (memories_procs hp) hmem)

end

end Kernel
