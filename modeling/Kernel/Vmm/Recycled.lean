import Kernel.Vmm.World

/-!
# Recycled frames

The frames of a dead process wait on the `avail` list in the order in which
they were freed, and the next pages and tables are made of them.
-/

namespace Kernel

open Lib

/-! ## One page at a time -/

theorem pageCount_one {va : Nat} : pageCount va (va + FRAME_SIZE) = 1 := by
  simp only [pageCount, FRAME_SIZE]
  omega

theorem mapEnd_one {va : Nat} (ha : va % FRAME_SIZE = 0) (h : va + FRAME_SIZE ≤ 2 ^ 47) :
    mapEnd va FRAME_SIZE = va + FRAME_SIZE := by
  simp only [mapEnd, add64, sub64, FRAME_SIZE] at *
  omega

theorem forPages_one {va : Nat} {body : Nat → K Unit} {s : Machine} :
    (forPages va (va + FRAME_SIZE) body).run s = (body va).run s := by
  rw [forPages, ← pageCount, pageCount_one, Prog.forRange_succ, Prog.forRange_zero, pure_bind, Nat.zero_mul,
    Nat.add_zero]

theorem map_range_one {va : Nat} {user write : Bool} {s : Machine} (ha : va % FRAME_SIZE = 0)
    (h : va + FRAME_SIZE ≤ 2 ^ 47) : (map_range va FRAME_SIZE user write).run s = (mapPage user write va).run s := by
  have hend := mapEnd_one ha h
  have hstart : va / FRAME_SIZE * FRAME_SIZE = va := by
    simp only [FRAME_SIZE] at *; omega
  rw [mapEnd] at hend
  have hlast : sub64 (add64 va FRAME_SIZE) 1 ≥ va := by
    simp only [add64, sub64, FRAME_SIZE] at *; omega
  rw [map_range, if_neg (by simp only [FRAME_SIZE]; omega)]
  simp only [hstart, hend]
  rw [Prog.assert_bind_run hlast, Prog.assert_bind_run (by omega), forPages_one]

theorem mapRangeClean_one {va : Nat} {user write : Bool} {s : Machine} (ha : va % FRAME_SIZE = 0)
    (h : va + FRAME_SIZE ≤ 2 ^ 47) (hclean : pageClean va s) : mapRangeClean user write va FRAME_SIZE s := by
  have hstart : va / FRAME_SIZE * FRAME_SIZE = va := by
    simp only [FRAME_SIZE] at *; omega
  rw [mapRangeClean, hstart, mapEnd_one ha h]
  intro k hk u hu
  rw [pageCount_one] at hk
  obtain rfl : k = 0 := by omega
  rw [Prog.forRange_zero, Prog.run_pure] at hu
  rw [hu.2, Nat.zero_mul, Nat.add_zero]
  exact hclean

/-- A break that moves up by one page. -/
structure OnePage (s : Machine) (va : Nat) : Prop where
  aligned : va % FRAME_SIZE = 0
  pos : 0 < va
  lower : va + FRAME_SIZE < 2 ^ 47
  start : s.heapStart ≠ 0 ∧ s.heapStart ≤ va
  heapBreak : s.heapBreak = va

theorem OnePage.round {s : Machine} {va : Nat} (h : OnePage s va) :
    roundUpPage va = va ∧ roundUpPage (va + FRAME_SIZE) = va + FRAME_SIZE := by
  have := h.aligned; have := h.lower
  simp only [roundUpPage, add64, FRAME_SIZE] at *
  omega

theorem set_heap_break_one {s : Machine} {va : Nat} (h : OnePage s va) :
    (set_heap_break (va + FRAME_SIZE)).run s =
      ((mapPage true true va).run s).bind fun r => some (0, { r.2 with heapBreak := va + FRAME_SIZE }) := by
  obtain ⟨hold, hnew⟩ := h.round
  obtain ⟨hs0, hs⟩ := h.start
  have hpos := h.pos; have hlower := h.lower
  have hf : 0 < FRAME_SIZE := by simp [FRAME_SIZE]
  rw [set_heap_break, Prog.get_bind_run, if_neg (by rw [h.heapBreak]; omega), if_neg (by omega)]
  dsimp only
  rw [h.heapBreak, hold, hnew, if_pos (by omega), VA, Prog.bind_run (Prog.assert_bind_run (Or.inl (by omega))),
    Nat.add_sub_cancel_left, StateT.run_bind, map_range_one h.aligned (by omega)]
  rfl

theorem brkClean_one {s : Machine} {va : Nat} (h : OnePage s va) (hclean : pageClean va s) :
    brkClean (va + FRAME_SIZE) s := by
  intro _ _ _ _ _
  obtain ⟨hold, hnew⟩ := h.round
  have := h.lower
  rw [h.heapBreak, hold, hnew, Nat.add_sub_cancel_left]
  exact mapRangeClean_one h.aligned (by omega) hclean

/-! ## A tree of one path -/

/-- One path leads down from `c`: of its first `n` entries only the head of the list is present, and so on. -/
def Chain (s : Machine) : Nat → Nat → List (Nat × Nat) → Prop
  | _, _, [] => True
  | n, c, (i, f) :: path =>
    i < n ∧ s.edge c i = some f ∧ (∀ j, j < n → j ≠ i → ¬ present (s.mem c j)) ∧ Chain s 512 f path

def chainEnd : Nat → List (Nat × Nat) → Nat
  | c, [] => c
  | _, (_, f) :: path => chainEnd f path

def chainFrames (c : Nat) (path : List (Nat × Nat)) : List Nat := c :: path.map Prod.snd

theorem chainEnd_mem (c : Nat) (path : List (Nat × Nat)) : chainEnd c path ∈ chainFrames c path := by
  induction path generalizing c with
  | nil => exact List.mem_cons_self
  | cons x path ih => exact List.mem_cons_of_mem _ (ih x.2)

theorem Chain.congr {s t : Machine} {n c : Nat} {path : List (Nat × Nat)} (h : Chain s n c path)
    (hmem : ∀ g ∈ (chainFrames c path).dropLast, t.mem g = s.mem g) : Chain t n c path := by
  induction path generalizing n c with
  | nil => trivial
  | cons x path ih =>
    obtain ⟨hi, hedge, honly, hrest⟩ := h
    have hc : t.mem c = s.mem c := hmem c (by simp [chainFrames])
    refine ⟨hi, by rw [Machine.edge_congr hc]; exact hedge, fun j hj hji => by rw [hc]; exact honly j hj hji, ?_⟩
    exact ih hrest fun g hg => hmem g (by simp [chainFrames] at hg ⊢; exact Or.inr hg)

theorem Chain.size {s : Machine} {n c d : Nat} {path : List (Nat × Nat)} (h : Chain s n c path)
    (hd : path.length = d + 1) (hn : n ≤ 512) : entriesSize s d c n = d + 1 := by
  induction d generalizing n c path with
  | zero =>
    obtain ⟨⟨i, f⟩, rfl⟩ := List.length_eq_one_iff.mp hd
    obtain ⟨hi, hedge, honly, _⟩ := h
    obtain ⟨_, hp, hf⟩ := Machine.edge_some.mp hedge
    rw [entriesSize, Finset.sum_eq_single i (fun j hj hji => if_neg (honly j (Finset.mem_range.mp hj) hji))
      (fun hn => absurd (Finset.mem_range.mpr hi) hn), if_pos hp]
    rfl
  | succ d ih =>
    cases path with
    | nil => cases hd
    | cons x path =>
      obtain ⟨i, f⟩ := x
      obtain ⟨hi, hedge, honly, hrest⟩ := h
      obtain ⟨_, hp, hf⟩ := Machine.edge_some.mp hedge
      rw [entriesSize, Finset.sum_eq_single i (fun j hj hji => if_neg (honly j (Finset.mem_range.mp hj) hji))
        (fun hn => absurd (Finset.mem_range.mpr hi) hn), if_pos hp, hf, treeSize_succ,
        ih hrest (by simpa using hd) le_rfl]
      omega

theorem CopyOf.chain {s t : Machine} {path : List (Nat × Nat)} {src dst : Nat} (hs : Chain s 512 src path)
    (h : CopyOf s t path.length src dst) :
    ∃ path', Chain t 512 dst path' ∧ path'.map Prod.fst = path.map Prod.fst ∧
      ∀ j, j < 512 → t.mem (chainEnd dst path') j = s.mem (chainEnd src path) j := by
  induction path generalizing src dst with
  | nil => exact ⟨[], trivial, rfl, h⟩
  | cons x path ih =>
    obtain ⟨i, f⟩ := x
    obtain ⟨hi, hedge, honly, hrest⟩ := hs
    obtain ⟨_, hp, rfl⟩ := Machine.edge_some.mp hedge
    obtain ⟨c, hc, hentry, hcopy⟩ := (h i hi).1 hp
    obtain ⟨path', hchain, hidx, hend⟩ := ih hrest hcopy
    refine ⟨(i, c) :: path', ⟨hi, ?_, fun j hj hji => ?_, hchain⟩, ?_, hend⟩
    · exact edge_mkEntry hi hc ((present_flags _).mpr hp) (flags_masked _) hentry
    · rw [(h j hj).2 (honly j hj hji)]
      exact not_present_zero
    · rw [List.map_cons, List.map_cons, hidx]

theorem Chain.nodup {s : Machine} {D : Set Nat} {p d c : Nat} {path : List (Nat × Nat)} (h : Chain s 512 c path)
    (htree : OwnTree s D p d c) (hlen : path.length ≤ d) :
    (chainFrames c path).Nodup ∧ ∀ g ∈ chainFrames c path, g ∈ D := by
  induction path generalizing d c D with
  | nil =>
    refine ⟨by simp [chainFrames], fun g hg => ?_⟩
    rw [List.mem_singleton.mp hg]
    exact htree.inside (self_mem_within _ c)
  | cons x path ih =>
    obtain ⟨i, f⟩ := x
    obtain ⟨hi, hedge, -, hrest⟩ := h
    cases d with
    | zero => simp at hlen
    | succ d =>
      obtain ⟨hc, hforest⟩ := ownTree_succ.mp htree
      obtain ⟨hnd, hin⟩ := ih hrest (hforest.trees i f hi hedge) (by simpa using hlen)
      refine ⟨List.nodup_cons.mpr ⟨fun hg => (hin c hg).2 rfl, hnd⟩, fun g hg => ?_⟩
      rcases List.mem_cons.mp hg with rfl | hg
      · exact hc
      · exact (hin g hg).1

theorem Chain.nodup_root {s : Machine} {D : Set Nat} {p d n i f root : Nat} {path : List (Nat × Nat)}
    (h : Chain s n root ((i, f) :: path)) (hforest : Forest s D p d n root) (hroot : root ∈ D)
    (hlen : path.length ≤ d) :
    (chainFrames root ((i, f) :: path)).Nodup ∧ ∀ g ∈ chainFrames root ((i, f) :: path), g ∈ D := by
  obtain ⟨hi, hedge, -, hrest⟩ := h
  obtain ⟨hnd, hin⟩ := hrest.nodup (hforest.trees i f hi hedge) hlen
  refine ⟨List.nodup_cons.mpr ⟨fun hg => (hin root hg).2 rfl, hnd⟩, fun g hg => ?_⟩
  rcases List.mem_cons.mp hg with rfl | hg
  · exact hroot
  · exact (hin g hg).1

/-! ## The order in which a chain is freed -/

/-- The frames `fs` went in front of the list `l`; the frame `e` keeps all its words but the first. -/
structure ChainFreed (s : Machine) (l fs : List Nat) (e : Nat) (t : Machine) : Prop where
  list : FreeList t (fs ++ l)
  other : ∀ g, g ∉ fs → t.mem g = s.mem g
  content : ∀ j, j ≠ 0 → t.mem e j = s.mem e j
  ranges : t.free_ranges = s.free_ranges
  regs : t.regs = s.regs

theorem chain_loop {A : Nat → K Unit} {s u : Machine} {n c i f : Nat} (hn : n ≤ 512) (hi : i < n)
    (hedge : s.edge c i = some f) (honly : ∀ j, j < n → j ≠ i → ¬ present (s.mem c j))
    (hA : (A f).run s = some ((), u)) (hu : u.mem c = s.mem c) (hregs : u.regs = s.regs) :
    (Prog.forRange n fun j => freeEntry A (s.vaOf c) j).run s = some ((), u.poke c i 0) := by
  obtain ⟨_, hp, rfl⟩ := Machine.edge_some.mp hedge
  have hva : s.vaOf c = u.vaOf c := (Machine.vaOf_congr (Machine.regs_hhdm hregs) c).symm
  refine Prog.forRange_single hi (fun j hj => ?_) ?_ fun j hj hjn => ?_
  · rw [freeEntry, Prog.bind_run (load_vaOf (by omega)), if_neg (honly j (by omega) (by omega))]
    rfl
  · rw [freeEntry, Prog.bind_run (load_vaOf (by omega)), if_pos hp, Prog.bind_run hA, hva, store_vaOf (by omega)]
  · have hword : (u.poke c i 0).mem c j = s.mem c j := by
      rw [← hu]
      have : j ≠ i := by omega
      simp [Machine.poke, this]
    rw [hva]
    refine (Prog.bind_run (load_vaOf (s := u.poke c i 0) (by omega))).trans ?_
    rw [hword, if_neg (honly j (by omega) (by omega))]
    rfl

theorem ChainFreed.free_table {s u : Machine} {l fs : List Nat} {c i e : Nat} (h : ChainFreed s l fs e u)
    (hm : s.maps c) (hl : c ∉ l) (hr : ¬ s.inRanges c) (hc : c ∉ fs) (he : e ∈ fs) :
    ChainFreed s l (c :: fs) e ((u.poke c i 0).freed c) := by
  have hhu := Machine.regs_hhdm h.regs
  have hne : e ≠ c := fun h => hc (h ▸ he)
  have hlist : FreeList (u.poke c i 0) (fs ++ l) := h.list.congr rfl rfl rfl fun g hg => by
    refine Machine.poke_mem_of_ne ?_
    rintro rfl
    exact (List.mem_append.mp hg).elim hc hl
  have hranges : ¬ (u.poke c i 0).inRanges c := by
    rw [Machine.inRanges]
    show ¬ ∃ r ∈ u.free_ranges, r.has c
    rw [h.ranges]
    exact hr
  refine ⟨hlist.freed ((Machine.maps_congr hhu c).mpr hm) (fun hg => (List.mem_append.mp hg).elim hc hl) hranges,
    fun g hg => ?_, fun j hj => ?_, h.ranges, h.regs⟩
  · have hgc : g ≠ c := fun h => hg (h ▸ List.mem_cons_self)
    exact (Machine.poke_mem_of_ne hgc).trans ((Machine.poke_mem_of_ne hgc).trans
      (h.other g fun hg' => hg (List.mem_cons_of_mem _ hg')))
  · have hmem : ((u.poke c i 0).freed c).mem e = u.mem e :=
      (Machine.poke_mem_of_ne hne).trans (Machine.poke_mem_of_ne hne)
    rw [hmem]
    exact h.content j hj

/-- The frames of a chain are freed from the end up, so the first one heads the list. -/
theorem freeChild_chain {path : List (Nat × Nat)} {s : Machine} {c : Nat} {l : List Nat} (h : Chain s 512 c path)
    (hl : FreeList s l) (hnd : (chainFrames c path).Nodup)
    (hout : ∀ g ∈ chainFrames c path, s.maps g ∧ g ∉ l ∧ ¬ s.inRanges g) :
    ∃ t, (freeChild path.length c).run s = some ((), t) ∧
      ChainFreed s l (chainFrames c path) (chainEnd c path) t := by
  induction path generalizing s c with
  | nil =>
    obtain ⟨hm, hcl, hcr⟩ := hout c (by simp [chainFrames])
    refine ⟨s.freed c, free_run hl.hhdm hm, hl.freed hm hcl hcr, fun g hg => ?_, fun j hj => ?_, rfl, rfl⟩
    · exact Machine.poke_mem_of_ne fun e => hg (by simp [chainFrames, e])
    · simp [chainEnd, Machine.freed, Machine.poke, hj]
  | cons x path ih =>
    obtain ⟨i, f⟩ := x
    obtain ⟨hi, hedge, honly, hrest⟩ := h
    have hframes : chainFrames c ((i, f) :: path) = c :: chainFrames f path := rfl
    rw [hframes] at hnd hout ⊢
    obtain ⟨hc, hnd⟩ := List.nodup_cons.mp hnd
    obtain ⟨hm, hcl, hcr⟩ := hout c List.mem_cons_self
    obtain ⟨u, hrun, hu⟩ := ih hrest hl hnd fun g hg => hout g (List.mem_cons_of_mem _ hg)
    have hloop := chain_loop le_rfl hi hedge honly hrun (hu.other c hc) hu.regs
    have hmem := chainEnd_mem f path
    have hfree := hu.free_table (i := i) hm hcl hcr hc hmem
    refine ⟨(u.poke c i 0).freed c, ?_, hfree⟩
    show (freeTableSubtree path.length c >>= fun _ => PhysMem.free c).run s = _
    rw [freeTableSubtree_eq, bind_assoc, Prog.bind_run (VA.ofPPN_run hl.hhdm hm), Prog.bind_run hloop]
    exact free_run (hl.hhdm.congr (Machine.regs_hhdm hu.regs)) ((Machine.maps_congr
      (Machine.regs_hhdm hu.regs) c).mpr hm)

theorem fini_thread_chain {s : Machine} {c i f : Nat} {path : List (Nat × Nat)} {l : List Nat}
    (h : Chain s 256 c ((i, f) :: path)) (hlen : path.length = 3) (hr : OnRoot s c) (hvmes : s.privateVmes = [])
    (hn : s.n_active ≠ 1) (hcommon : c ≠ s.common_cr3 / FRAME_SIZE) (hl : FreeList s l)
    (hnd : (chainFrames c ((i, f) :: path)).Nodup)
    (hout : ∀ g ∈ chainFrames c ((i, f) :: path), s.maps g ∧ g ∉ l ∧ ¬ s.inRanges g) :
    ∃ t, fini_thread.run s = some ((), { t with cr3 := s.common_cr3 }) ∧
      ChainFreed s l (c :: chainFrames f path) (chainEnd f path) t := by
  obtain ⟨hi, hedge, honly, hrest⟩ := h
  have hframes : chainFrames c ((i, f) :: path) = c :: chainFrames f path := rfl
  rw [hframes] at hnd hout
  obtain ⟨hc, hnd⟩ := List.nodup_cons.mp hnd
  obtain ⟨hm, hcl, hcr⟩ := hout c List.mem_cons_self
  obtain ⟨u, hrun, hu⟩ := freeChild_chain hrest hl hnd fun g hg => hout g (List.mem_cons_of_mem _ hg)
  rw [hlen] at hrun
  have hhu := Machine.regs_hhdm hu.regs
  have hcu := Machine.fixed_common (Machine.regs_fixed hu.regs)
  have hloop := chain_loop (n := 256) (by omega) hi hedge honly hrun (hu.other c hc) hu.regs
  refine ⟨(u.poke c i 0).freed c, ?_, hu.free_table (i := i) hm hcl hcr hc (chainEnd_mem f path)⟩
  have hs : { s with privateVmes := [] } = s := by rw [← hvmes]
  have hlt := Machine.maps_lt hl.hhdm hm
  rw [fini_thread_eq, hs, hvmes, freePrivateVmes, pure_bind, if_neg hn, hr.root hlt, finiTail, if_neg hcommon, freeRoot,
    Prog.bind_run (VA.ofPPN_run hl.hhdm hm), Prog.bind_run hloop, Prog.modify_bind_run]
  refine (free_run (s := { u.poke c i 0 with cr3 := u.common_cr3 }) (hl.hhdm.congr hhu)
    ((Machine.maps_congr hhu c).mpr hm)).trans ?_
  rw [← hcu]
  rfl

/-! ## The image of the first process -/

theorem mapClean_blank {vpn level : Nat} {s : Machine} {F : Set Nat} {table : Nat} (hwf : PhysWf s F) (ha : s.avail = 0)
    (ht : table ∉ F) (hp : ¬ present (s.mem table (vpnIndex vpn level))) : mapClean vpn level table s := by
  induction level generalizing s F table with
  | zero => trivial
  | succ level ih =>
    rw [mapClean, if_neg hp]
    intro child u halloc
    have hspec := alloc_spec hwf halloc
    obtain ⟨havail, hzero⟩ := alloc_cleared hwf ha halloc
    refine ⟨fun j hj => by rw [hzero j hj]; exact not_present_zero, ?_⟩
    have hne : child ≠ table := fun h => ht (h ▸ hspec.mem_free)
    refine ih (F := F \ {child}) (hspec.wf.congr rfl rfl rfl fun g hg => Machine.poke_mem_of_ne ?_) havail
      (fun h => h.2 rfl) ?_
    · rintro rfl
      exact ht hg.1
    · rw [Machine.poke_mem_of_ne hne, hzero _ (vpnIndex_lt vpn level)]
      exact not_present_zero

/-- One new table: `mapAt` goes on below it. -/
structure NewTable (s : Machine) (F : Set Nat) (table i child : Nat) (v : Machine) : Prop where
  mem_free : child ∈ F
  wf : PhysWf v (F \ {child})
  avail : v.avail = 0
  edge : v.edge table i = some child
  row : ∀ j, j ≠ i → v.mem table j = s.mem table j
  blank : ∀ j, j < 512 → v.mem child j = 0
  other : ∀ g, g ≠ table → g ≠ child → v.mem g = s.mem g
  regs : v.regs = s.regs
  owner : v.owner = s.owner

theorem mapAt_new (vpn f level : Nat) (user write : Bool) {table : Nat} {s : Machine} {F : Set Nat} (hwf : PhysWf s F)
    (ha : s.avail = 0) (hF : F.Nonempty) (ht : table ∉ F) (hm : s.maps table)
    (hp : ¬ present (s.mem table (vpnIndex vpn (level + 1)))) :
    ∃ child v, NewTable s F table (vpnIndex vpn (level + 1)) child v ∧
      (mapAt vpn f user write (level + 1) table).run s = (mapAt vpn f user write level child).run v := by
  obtain ⟨child, u, halloc⟩ := alloc_returns hwf hF
  have hspec := alloc_spec hwf halloc
  obtain ⟨havail, hzero⟩ := alloc_cleared hwf ha halloc
  have hhu := Machine.regs_hhdm hspec.regs
  have hc40 : child < 2 ^ 40 := by
    have := Machine.maps_lt hwf.hhdm (hwf.maps hspec.mem_free)
    omega
  have hne : child ≠ table := fun h => ht (h ▸ hspec.mem_free)
  refine ⟨child, u.poke table (vpnIndex vpn (level + 1)) (mkEntry child tableFlags),
    ⟨hspec.mem_free, ?_, havail, ?_, fun j hj => ?_, fun j hj => ?_, fun g hgt hgc => ?_, hspec.regs,
    hspec.owner⟩, mapAt_absent hwf.hhdm hm hp halloc hhu hc40⟩
  · refine hspec.wf.congr rfl rfl rfl fun g hg => Machine.poke_mem_of_ne ?_
    rintro rfl
    exact ht hg.1
  · exact edge_mkEntry (vpnIndex_lt vpn _) hc40 present_tableFlags tableFlags_masked (by simp [Machine.poke])
  · rw [← hspec.other table hne.symm]
    simp [Machine.poke, hj]
  · rw [Machine.poke_mem_of_ne hne]
    exact hzero j hj
  · rw [Machine.poke_mem_of_ne hgt, hspec.other g hgc]

/-- The first page of a process: three tables and the page, one below the other. -/
structure FirstPage (s : Machine) (F : Set Nat) (vpn root d : Nat) (t : Machine) (F' : Set Nat) : Prop where
  chain : ∃ a b c, d ∉ [root, a, b, c] ∧
    Chain t 256 root [(vpnIndex vpn 3, a), (vpnIndex vpn 2, b), (vpnIndex vpn 1, c), (vpnIndex vpn 0, d)]
  sub : F' ⊆ F
  wf : PhysWf t F'
  cost : F'.ncard + 3 = F.ncard
  regs : t.regs = s.regs

theorem mapAt_first (vpn d : Nat) (user write : Bool) {root : Nat} {s : Machine} {F : Set Nat} (hwf : PhysWf s F)
    (ha : s.avail = 0) (hF : 3 ≤ F.ncard) (hroot : root ∉ F) (hm : s.maps root) (hd : d ∉ F) (hd40 : d < 2 ^ 40)
    (hdr : d ≠ root) (hidx : vpnIndex vpn 3 < 256) (hblank : ∀ j, j < 256 → s.mem root j = 0) :
    ∃ t F', (mapAt vpn d user write 3 root).run s = some ((), t) ∧ FirstPage s F vpn root d t F' := by
  have hfin := hwf.finite
  have hzero : ∀ {v : Machine} {g i : Nat}, v.mem g i = 0 → ¬ present (v.mem g i) := fun h => by
    rw [h]; exact not_present_zero
  obtain ⟨a, u, hu, hrun₂⟩ := mapAt_new vpn d 2 user write hwf ha
    (Set.nonempty_of_ncard_ne_zero (by omega)) hroot hm (hzero (hblank _ hidx))
  have hcard₁ := Set.ncard_sdiff_singleton_add_one hu.mem_free hfin
  have hau : u.maps a := (Machine.maps_congr (Machine.regs_hhdm hu.regs) a).mpr (hwf.maps hu.mem_free)
  obtain ⟨b, v, hv, hrun₁⟩ := mapAt_new vpn d 1 user write hu.wf hu.avail
    (Set.nonempty_of_ncard_ne_zero (by omega)) (fun h => h.2 rfl) hau (hzero (hu.blank _ (vpnIndex_lt vpn _)))
  have hcard₂ := Set.ncard_sdiff_singleton_add_one hv.mem_free (hfin.subset Set.sdiff_subset)
  have hbv : v.maps b := (Machine.maps_congr (Machine.regs_hhdm hv.regs) b).mpr (hu.wf.maps hv.mem_free)
  obtain ⟨c, w, hw, hrun₀⟩ := mapAt_new vpn d 0 user write hv.wf hv.avail
    (Set.nonempty_of_ncard_ne_zero (by omega)) (fun h => h.2 rfl) hbv (hzero (hv.blank _ (vpnIndex_lt vpn _)))
  have hcard₃ := Set.ncard_sdiff_singleton_add_one hw.mem_free
    ((hfin.subset Set.sdiff_subset).subset Set.sdiff_subset)
  have hcw : w.maps c := (Machine.maps_congr (Machine.regs_hhdm hw.regs) c).mpr (hv.wf.maps hw.mem_free)
  have hra : root ≠ a := fun h => hroot (h ▸ hu.mem_free)
  have hrb : root ≠ b := fun h => hroot (h ▸ hv.mem_free.1)
  have hrc : root ≠ c := fun h => hroot (h ▸ hw.mem_free.1.1)
  have hba : b ≠ a := hv.mem_free.2
  have hca : c ≠ a := hw.mem_free.1.2
  have hcb : c ≠ b := hw.mem_free.2
  let t := w.poke c (vpnIndex vpn 0) (mkEntry d (leafFlags user write))
  have ht : ∀ g, g ≠ c → t.mem g = w.mem g := fun g hg => Machine.poke_mem_of_ne hg
  have hroot' : t.mem root = u.mem root := by rw [ht root hrc, hw.other root hrb hrc, hv.other root hra hrb]
  have ha' : t.mem a = v.mem a := by rw [ht a hca.symm, hw.other a hba.symm hca.symm]
  have hb' : t.mem b = w.mem b := ht b hcb.symm
  have hchain₀ : Chain t 512 c [(vpnIndex vpn 0, d)] := by
    refine ⟨vpnIndex_lt vpn _, ?_, fun j hj hji => ?_, trivial⟩
    · exact edge_mkEntry (vpnIndex_lt vpn _) hd40 (present_leafFlags user write) (leafFlags_masked user write)
        (by simp [t, Machine.poke])
    · have hword : t.mem c j = w.mem c j := by simp [t, Machine.poke, hji]
      rw [hword]
      exact hzero (hw.blank j hj)
  have hchain₁ : Chain t 512 b [(vpnIndex vpn 1, c), (vpnIndex vpn 0, d)] := by
    refine ⟨vpnIndex_lt vpn _, (congrFun (Machine.edge_congr hb') _).trans hw.edge, fun j hj hji => ?_, hchain₀⟩
    rw [hb', hw.row j hji]
    exact hzero (hv.blank j hj)
  have hchain₂ : Chain t 512 a [(vpnIndex vpn 2, b), (vpnIndex vpn 1, c), (vpnIndex vpn 0, d)] := by
    refine ⟨vpnIndex_lt vpn _, (congrFun (Machine.edge_congr ha') _).trans hv.edge, fun j hj hji => ?_, hchain₁⟩
    rw [ha', hv.row j hji]
    exact hzero (hu.blank j hj)
  have hchain₃ : Chain t 256 root
      [(vpnIndex vpn 3, a), (vpnIndex vpn 2, b), (vpnIndex vpn 1, c), (vpnIndex vpn 0, d)] := by
    refine ⟨hidx, (congrFun (Machine.edge_congr hroot') _).trans hu.edge, fun j hj hji => ?_, hchain₂⟩
    rw [hroot', hu.row j hji]
    exact hzero (hblank j hj)
  have hctable : c ∉ ((F \ {a}) \ {b}) \ {c} := fun h => h.2 rfl
  have hdout : d ∉ [root, a, b, c] := by
    simp only [List.mem_cons, List.not_mem_nil, or_false, not_or]
    exact ⟨hdr, fun h => hd (h ▸ hu.mem_free), fun h => hd (h ▸ hv.mem_free.1), fun h => hd (h ▸ hw.mem_free.1.1)⟩
  refine ⟨t, ((F \ {a}) \ {b}) \ {c}, ?_, ⟨a, b, c, hdout, hchain₃⟩, fun g hg => hg.1.1.1, ?_, by omega, ?_⟩
  · rw [hrun₂, hrun₁, hrun₀, mapAt_zero hw.wf.hhdm hcw]
  · exact hw.wf.congr rfl rfl rfl fun g hg => ht g fun h => hctable (h ▸ hg)
  · exact hw.regs.trans (hv.regs.trans hu.regs)

/-! ## The copy of a chain -/

theorem RootCopy.chain {s t : Machine} {F G : Set Nat} {root child i f : Nat} {path : List (Nat × Nat)}
    (h : RootCopy s F root child t G) (hs : Chain s 256 root ((i, f) :: path)) (hlen : path.length = 3) :
    ∃ f' path', Chain t 256 child ((i, f') :: path') ∧ path'.map Prod.fst = path.map Prod.fst ∧
      ∀ j, j < 512 → t.mem (chainEnd f' path') j = s.mem (chainEnd f path) j := by
  obtain ⟨hi, hedge, honly, hrest⟩ := hs
  obtain ⟨_, hp, rfl⟩ := Machine.edge_some.mp hedge
  obtain ⟨c, hc, hentry, hcopy⟩ := h.copied i hi hp
  rw [← hlen] at hcopy
  obtain ⟨path', hchain, hidx, hend⟩ := hcopy.chain hrest
  refine ⟨c, path', ⟨hi, ?_, fun j hj hji => ?_, hchain⟩, hidx, hend⟩
  · exact edge_mkEntry (by omega) hc ((present_flags _).mpr hp) (flags_masked _) hentry
  · rw [h.blank j hj (honly j hj hji)]
    exact not_present_zero

/-! ## The heap grows through the list -/

theorem Space.not_listed {s : Machine} {F D : Set Nat} {p root g : Nat} {l : List Nat} (h : Space s F D p root)
    (hl : FreeList s l) (hg : g ∈ D) : g ∉ l := by
  obtain ⟨l', hl', hF⟩ := h.wf
  obtain rfl := hl'.chain.unique hl'.hhdm hl.chain
  exact fun hgl => (h.owned g hg).1 ((hF g).mpr (Or.inl hgl))

/--
The tables of the first gigabyte of a process, with no page from `k` to 511 and no table for the pages
after that. The frames `fs` are the next ones that `alloc` gives, then `e`.
-/
structure Ready (m : Machine) (r a b c k : Nat) (fs : List Nat) (e : Nat) (l : List Nat) (w : Word) : Prop where
  top : m.edge r 0 = some a
  mid : m.edge a 0 = some b
  low : m.edge b 0 = some c
  hole : ¬ present (m.mem b 1)
  free : ∀ j, k ≤ j → j < 512 → ¬ present (m.mem c j)
  list : FreeList m (fs ++ e :: l)
  word : m.mem e 1 = w

section

variable {m : Machine} {F D : Set Nat} {r a b c k f e : Nat} {fs l : List Nat} {w : Word}

theorem Ready.tables (h : Ready m r a b c k fs e l w) (hs : Space m F D 0 r) : a ∈ D ∧ b ∈ D ∧ c ∈ D := by
  have ha : walk m.edge r [0] = some a := (walk_cons_some h.top).mpr rfl
  have hb : walk m.edge r [0, 0] = some b := (walk_cons_some h.top).mpr ((walk_cons_some h.mid).mpr rfl)
  have hc : walk m.edge r [0, 0, 0] = some c :=
    (walk_cons_some h.top).mpr ((walk_cons_some h.mid).mpr ((walk_cons_some h.low).mpr rfl))
  exact ⟨hs.tables ⟨_, startsBelow_cons.mpr (by omega), by simp, ha⟩,
    hs.tables ⟨_, startsBelow_cons.mpr (by omega), by simp, hb⟩,
    hs.tables ⟨_, startsBelow_cons.mpr (by omega), by simp, hc⟩⟩

theorem Ready.apart (h : Ready m r a b c k fs e l w) (hs : Space m F D 0 r) : r ≠ c ∧ a ≠ c ∧ b ≠ c := by
  have hc : walk m.edge r [0, 0, 0] = some c :=
    (walk_cons_some h.top).mpr ((walk_cons_some h.mid).mpr ((walk_cons_some h.low).mpr rfl))
  have hne : ∀ π g, LowerPath π → π.length < 3 → walk m.edge r π = some g → g ≠ c := by
    rintro π g hπ hlen hg rfl
    have := congrArg List.length (hs.forest.paths_inj hπ (startsBelow_cons.mpr (by omega)) (by omega) (by simp) hg hc)
    simp at this
    omega
  exact ⟨hne [] r (by simp [LowerPath, StartsBelow]) (by simp) rfl,
    hne [0] a (startsBelow_cons.mpr (by omega)) (by simp) ((walk_cons_some h.top).mpr rfl),
    hne [0, 0] b (startsBelow_cons.mpr (by omega)) (by simp)
      ((walk_cons_some h.top).mpr ((walk_cons_some h.mid).mpr rfl))⟩

theorem vpnIndex_small {k : Nat} (hk : k < 512) :
    vpnIndex k 3 = 0 ∧ vpnIndex k 2 = 0 ∧ vpnIndex k 1 = 0 ∧ vpnIndex k 0 = k := by
  simp only [vpnIndex]; omega

theorem Ready.page_none (h : Ready m r a b c k fs e l w) (hk : k < 512) : m.pageEntry r k = none := by
  obtain ⟨h3, h2, h1, h0⟩ := vpnIndex_small hk
  rw [Machine.pageEntry, tablePath, tablePath, tablePath, tablePath, h3, h2, h1, h0, walk_cons, h.top, Option.bind_some,
    walk_cons, h.mid, Option.bind_some, walk_cons, h.low]
  simp [h.free k le_rfl hk]

theorem Ready.page (h : Ready m r a b c k (f :: fs) e l w) (hs : Space m F D 0 r) (hr : OnRoot m r) (hk : k < 512) :
    pageClean (k * FRAME_SIZE) m ∧ ∃ t, (mapPage true true (k * FRAME_SIZE)).run m = some ((), t) ∧
      Ready t r a b c (k + 1) fs e l w ∧ t.regs = m.regs := by
  obtain ⟨h3, h2, h1, h0⟩ := vpnIndex_small hk
  obtain ⟨haD, hbD, hcD⟩ := h.tables hs
  have hva : k * FRAME_SIZE < 2 ^ 47 ∧ k * FRAME_SIZE / FRAME_SIZE = k := by
    simp only [FRAME_SIZE]; omega
  have hlist : FreeList m (f :: (fs ++ e :: l)) := h.list
  have hnone := h.page_none hk
  obtain ⟨hrc, hac, hbc⟩ := h.apart hs
  have hec : e ≠ c := fun hec => hs.not_listed h.list hcD (by simp [← hec])
  have halloc := alloc_avail hlist
  generalize hv : ({ m with avail := (m.mem f 0).toNat } : Machine).marked f = v
  have hmem : v.mem = m.mem := by rw [← hv]; rfl
  have hregs : v.regs = m.regs := by rw [← hv]; rfl
  have hhh := Machine.regs_hhdm hregs
  have hh : HhdmOk v := hs.wf.hhdm.congr hhh
  have hm : ∀ g ∈ D, v.maps g := fun g hg => (Machine.maps_congr hhh g).mpr (hs.owned g hg).2
  obtain ⟨-, hp3, hn3⟩ := Machine.edge_some.mp h.top
  obtain ⟨-, hp2, hn2⟩ := Machine.edge_some.mp h.mid
  obtain ⟨-, hp1, hn1⟩ := Machine.edge_some.mp h.low
  refine ⟨fun _ f' u' halloc' => ?_, v.poke c k (mkEntry f (leafFlags true true)), ?_, ?_, hregs⟩
  · -- No table is missing on the way.
    rw [halloc, Option.some.injEq, Prod.mk.injEq] at halloc'
    obtain ⟨rfl, rfl⟩ := halloc'
    rw [hv, hva.2, hr.root hs.root_lt]
    simp only [mapClean, hmem, h3, h2, h1, hp3, hp2, hp1, hn3, hn2, if_true, Nat.zero_add, Nat.reduceAdd]
  · rw [mapPage_none hs hr hva.1 (by rw [hva.2]; exact hnone), halloc, Option.bind_some, hv, hva.2,
      mapAt_present hh (hm r hs.root_mem) (by rw [hmem, h3]; exact hp3), hmem, h3, hn3,
      mapAt_present hh (hm a haD) (by rw [hmem, h2]; exact hp2), hmem, h2, hn2,
      mapAt_present hh (hm b hbD) (by rw [hmem, h1]; exact hp1), hmem, h1, hn1, mapAt_zero hh (hm c hcD), h0]
  · have hkeep : ∀ g, g ≠ c → (v.poke c k (mkEntry f (leafFlags true true))).mem g = m.mem g := fun g hg =>
      (Machine.poke_mem_of_ne hg).trans (congrFun hmem g)
    have hedge : ∀ g, g ≠ c → (v.poke c k (mkEntry f (leafFlags true true))).edge g = m.edge g := fun g hg =>
      Machine.edge_congr (hkeep g hg)
    refine ⟨?_, ?_, ?_, ?_, fun j hj hj' => ?_, ?_, ?_⟩
    · rw [hedge r hrc, h.top]
    · rw [hedge a hac, h.mid]
    · rw [hedge b hbc, h.low]
    · rw [hkeep b hbc]
      exact h.hole
    · have hjk : j ≠ k := by omega
      have hword : (v.poke c k (mkEntry f (leafFlags true true))).mem c j = m.mem c j := by
        rw [← hmem]
        simp [Machine.poke, hjk]
      rw [hword]
      exact h.free j (by omega) hj'
    · rw [← hv]
      refine hlist.cons_avail.congr rfl rfl rfl fun g hg => Machine.poke_mem_of_ne ?_
      rintro rfl
      exact hs.not_listed h.list hcD (List.mem_cons_of_mem f hg)
    · rw [hkeep e hec]
      exact h.word

/-- The tables with one more, `e`: it has an entry for a page on `f`, and the word that was there before. -/
structure HoleFilled (t : Machine) (r a b e f : Nat) (w : Word) : Prop where
  top : t.edge r 0 = some a
  mid : t.edge a 0 = some b
  low : t.edge b 1 = some e
  page : t.mem e 0 = mkEntry f (leafFlags true true)
  word : t.mem e 1 = w

theorem HoleFilled.path {t : Machine} (h : HoleFilled t r a b e f w) : walk t.edge r [0, 0, 1] = some e := by
  rw [walk_cons_some h.top, walk_cons_some h.mid, walk_cons_some h.low]
  rfl

theorem vpnIndex_hole {k : Nat} (hk : 512 ≤ k) (hk' : k < 1024) :
    vpnIndex k 3 = 0 ∧ vpnIndex k 2 = 0 ∧ vpnIndex k 1 = 1 ∧ vpnIndex k 0 = k - 512 := by
  simp only [vpnIndex]; omega

theorem tablePath_hole {k : Nat} (hk : 512 ≤ k) (hk' : k < 1024) : tablePath k 3 = [0, 0, 1] := by
  obtain ⟨h3, h2, h1, -⟩ := vpnIndex_hole hk hk'
  rw [tablePath, tablePath, tablePath, tablePath, h3, h2, h1]

theorem Ready.hole_none (h : Ready m r a b c 512 [f] e l w) {k : Nat} (hk : 512 ≤ k) (hk' : k < 1024) :
    m.pageEntry r k = none := by
  rw [Machine.pageEntry, tablePath_hole hk hk', walk_cons, h.top, Option.bind_some, walk_cons, h.mid, Option.bind_some,
    walk_cons_none (Machine.edge_none.mpr fun _ => h.hole)]
  rfl

theorem HoleFilled.entries {t : Machine} (h : HoleFilled t r a b e f w) (hw : present w) :
    t.pageEntry r 512 = some (mkEntry f (leafFlags true true)) ∧ t.pageEntry r 513 = some w := by
  obtain ⟨-, -, -, h0⟩ := vpnIndex_hole (k := 512) le_rfl (by omega)
  obtain ⟨-, -, -, h1⟩ := vpnIndex_hole (k := 513) (by omega) (by omega)
  refine ⟨Machine.pageEntry_some.mpr ⟨e, ?_, (present_mkEntry f _).mpr (present_leafFlags true true), ?_⟩,
    Machine.pageEntry_some.mpr ⟨e, ?_, hw, ?_⟩⟩
  · rw [tablePath_hole le_rfl (by omega)]
    exact h.path
  · rw [h0]
    exact h.page
  · rw [tablePath_hole (by omega) (by omega)]
    exact h.path
  · rw [h1]
    exact h.word

theorem Ready.table {v : Machine} (h : Ready m r a b c 512 [f] e l w) (hs : Space m F D 0 r)
    (hv : ∀ g, g ≠ f → v.mem g = m.mem g) (hlist : FreeList v (e :: l)) (hregs : v.regs = m.regs) :
    ∃ t, (mapAt 512 f true true 3 r).run v = some ((), t) ∧ HoleFilled t r a b e f w ∧ t.regs = m.regs := by
  obtain ⟨haD, hbD, hcD⟩ := h.tables hs
  obtain ⟨h3, h2, h1, h0⟩ := vpnIndex_hole (k := 512) le_rfl (by omega)
  have hmlist : FreeList m (f :: e :: l) := h.list
  have hlistf : ∀ g ∈ D, g ≠ f := fun g hg hgf => hs.not_listed hmlist hg (by simp [hgf])
  have hout : ∀ g ∈ D, g ≠ e := fun g hg hge => hs.not_listed hmlist hg (by simp [hge])
  have hef : e ≠ f := by
    have := hmlist.nodup
    simp only [List.nodup_cons, List.mem_cons, not_or] at this
    exact fun hef => this.1.1 hef.symm
  have hmem : ∀ g ∈ D, v.mem g = m.mem g := fun g hg => hv g (hlistf g hg)
  have halloc := alloc_avail hlist
  generalize hu : ({ v with avail := (v.mem e 0).toNat } : Machine) = u at halloc
  have humem : u.mem = v.mem := by rw [← hu]
  have huregs : u.regs = m.regs := by rw [← hu]; exact hregs
  have hhv := Machine.regs_hhdm hregs
  have hhu := Machine.regs_hhdm huregs
  have hh : HhdmOk v := hs.wf.hhdm.congr hhv
  have hm : ∀ g ∈ D, v.maps g := fun g hg => (Machine.maps_congr hhv g).mpr (hs.owned g hg).2
  have hme : m.maps e := hmlist.mapped e (by simp)
  have hlt := Machine.maps_lt hs.wf.hhdm hme
  obtain ⟨-, hp3, hn3⟩ := Machine.edge_some.mp h.top
  obtain ⟨-, hp2, hn2⟩ := Machine.edge_some.mp h.mid
  have hrD := hs.root_mem
  have hzero : (mapAt 512 f true true 0 e).run (u.poke b 1 (mkEntry e tableFlags)) = _ :=
    mapAt_zero (hs.wf.hhdm.congr hhu) ((Machine.maps_congr hhu e).mpr hme)
  refine ⟨(u.poke b 1 (mkEntry e tableFlags)).poke e 0 (mkEntry f (leafFlags true true)), ?_, ?_⟩
  · rw [mapAt_present hh (hm r hrD) (by rw [hmem r hrD, h3]; exact hp3), hmem r hrD, h3, hn3,
      mapAt_present hh (hm a haD) (by rw [hmem a haD, h2]; exact hp2), hmem a haD, h2, hn2,
      mapAt_absent hh (hm b hbD) (by rw [hmem b hbD, h1]; exact h.hole) halloc (hhu.trans hhv.symm)
        (by omega), h1, hzero,
      h0]
  generalize ht : (u.poke b 1 (mkEntry e tableFlags)).poke e 0 (mkEntry f (leafFlags true true)) = t
  have htables : ∀ g ∈ D, g ≠ b → t.mem g = m.mem g := by
    intro g hg hgb
    rw [← ht, Machine.poke_mem_of_ne (hout g hg), Machine.poke_mem_of_ne hgb, humem, hmem g hg]
  have hrow : t.mem b 1 = mkEntry e tableFlags := by
    rw [← ht, Machine.poke_mem_of_ne (hout b hbD)]
    simp [Machine.poke]
  have hword : t.mem e 1 = w := by
    rw [← ht, ← h.word, ← hv e hef, ← humem]
    have := hout b hbD
    simp [Machine.poke, this.symm]
  have hleaf : t.mem e 0 = mkEntry f (leafFlags true true) := by
    rw [← ht]
    simp [Machine.poke]
  have hrb : r ≠ b := by
    rintro rfl
    have : [] = [0, 0] := hs.forest.paths_inj (by simp [StartsBelow]) (startsBelow_cons.mpr (by omega)) (by simp)
      (by simp) rfl ((walk_cons_some h.top).mpr ((walk_cons_some h.mid).mpr rfl))
    simp at this
  have hab : a ≠ b := by
    rintro rfl
    have : [0] = [0, 0] := hs.forest.paths_inj (startsBelow_cons.mpr (by omega)) (startsBelow_cons.mpr (by omega))
      (by simp) (by simp) ((walk_cons_some h.top).mpr rfl) ((walk_cons_some h.top).mpr ((walk_cons_some h.mid).mpr rfl))
    simp at this
  refine ⟨⟨?_, ?_, ?_, hleaf, hword⟩, by rw [← ht]; exact huregs⟩
  · rw [Machine.edge_congr (htables r hs.root_mem hrb)]
    exact h.top
  · rw [Machine.edge_congr (htables a haD hab)]
    exact h.mid
  · exact edge_mkEntry (by omega) (by omega) present_tableFlags tableFlags_masked hrow

theorem Ready.last (h : Ready m r a b c 512 [f] e l w) (hs : Space m F D 0 r) (hr : OnRoot m r) (hw : present w) :
    ∃ t, (mapPage true true (512 * FRAME_SIZE)).run m = some ((), t) ∧ t.pageEntry r 513 = some w ∧
      t.regs = m.regs := by
  have hva : 512 * FRAME_SIZE < 2 ^ 47 ∧ 512 * FRAME_SIZE / FRAME_SIZE = 512 := by
    rw [FRAME_SIZE]; omega
  have hlist : FreeList m (f :: e :: l) := h.list
  have hlist' : FreeList (({ m with avail := (m.mem f 0).toNat } : Machine).marked f) (e :: l) :=
    hlist.cons_avail.congr rfl rfl rfl fun _ _ => rfl
  obtain ⟨t, hrun, hfilled, hregs⟩ := h.table hs (v := ({ m with avail := (m.mem f 0).toNat } : Machine).marked f)
    (fun _ _ => rfl) hlist' rfl
  refine ⟨t, ?_, (hfilled.entries hw).2, hregs⟩
  rw [mapPage_none hs hr hva.1 (by rw [hva.2]; exact h.hole_none le_rfl (by omega)), alloc_avail hlist,
    Option.bind_some, hva.2]
  exact hrun

end

end Kernel
