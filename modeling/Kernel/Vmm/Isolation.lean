import Kernel.Vmm.Recycled

/-!
# Isolation, and where it ends

Processes stay isolated while `map` finds no present word in the frames it takes
for tables. It does not clear them, and the words of a dead process become entries.
-/

namespace Kernel

open Lib

section

variable {entries : List MemmapEntry} {w : World} {r a b c d k f e : Nat} {fs l : List Nat} {v : Word}

/-! ## The first process grows its heap -/

theorem Machine.regs_process {s t : Machine} (h : t.regs = s.regs) : t.process = s.process := by
  have := congrArg Machine.process h
  exact this

theorem World.leave_procs (w : World) (p : Nat) (t : Machine) : (w.leave p t).procs p = some t.process := if_pos rfl

theorem ProcOk.root_eq {m : Machine} {F Dp : Set Nat} {p : Nat} {P : Process} (h : ProcOk entries m F Dp p P)
    (hcr3 : P.cr3 = r * FRAME_SIZE) : P.root = r := by
  have := h.cr3
  simp only [FRAME_SIZE] at *
  omega

theorem Ready.congr {m t : Machine} (h : Ready m r a b c k fs e l v) (hmem : t.mem = m.mem) (ha : t.avail = m.avail)
    (hr : t.free_ranges = m.free_ranges) (hh : t.hhdm_offset = m.hhdm_offset) : Ready t r a b c k fs e l v where
  top := by rw [Machine.edge_congr (congrFun hmem r)]; exact h.top
  mid := by rw [Machine.edge_congr (congrFun hmem a)]; exact h.mid
  low := by rw [Machine.edge_congr (congrFun hmem b)]; exact h.low
  hole := by rw [hmem]; exact h.hole
  free := by rw [hmem]; exact h.free
  list := h.list.congr hh ha hr fun g _ => congrFun hmem g
  word := by rw [hmem]; exact h.word

/-- The first process with its break at page `k`, and the frames that the allocator gives next. -/
structure Armed (entries : List MemmapEntry) (w : World) (r a b c k : Nat) (fs : List Nat) (e : Nat) (l : List Nat)
    (v : Word) : Prop where
  reach : System.GuardedReachable (worldSystem entries) CleanStep w
  proc : w.procs 0 = some ⟨r * FRAME_SIZE, [], 509 * FRAME_SIZE, k * FRAME_SIZE⟩
  ready : Ready w.m r a b c k fs e l v
  start : 509 ≤ k ∧ k ≤ 512

theorem Armed.enter (h : Armed entries w r a b c k fs e l v) :
    ∃ m F D, w.m.enter 0 ⟨r * FRAME_SIZE, [], 509 * FRAME_SIZE, k * FRAME_SIZE⟩ = m ∧ Space m F D 0 r ∧ OnRoot m r ∧
      Ready m r a b c k fs e l v ∧ OnePage m (k * FRAME_SIZE) ∧
      m.process = ⟨r * FRAME_SIZE, [], 509 * FRAME_SIZE, k * FRAME_SIZE⟩ := by
  obtain ⟨F, D, hinv⟩ := worldInv_of_clean h.reach
  have hP := hinv.procs 0 _ h.proc
  obtain ⟨hspace, hr, -⟩ := hP.enter
  rw [hP.root_eq rfl] at hspace hr
  have hstart := h.start
  refine ⟨_, F, D 0, rfl, hspace, hr, h.ready.congr rfl rfl rfl rfl, ⟨?_, ?_, ?_, ?_, rfl⟩, rfl⟩
  · simp only [FRAME_SIZE]; omega
  · simp only [FRAME_SIZE]; omega
  · simp only [FRAME_SIZE]; omega
  · simp only [Machine.enter, FRAME_SIZE]; omega

theorem Armed.page (h : Armed entries w r a b c k (f :: fs) e l v) (hk : k < 512) :
    ∃ w', Armed entries w' r a b c (k + 1) fs e l v := by
  obtain ⟨m, F, D, hm, hspace, hr, hready, hone, hproc⟩ := h.enter
  obtain ⟨hclean, t, hrun, hready', hregs⟩ := hready.page hspace hr hk
  have hbreak : (set_heap_break (k * FRAME_SIZE + FRAME_SIZE)).run m =
      some (0, { t with heapBreak := k * FRAME_SIZE + FRAME_SIZE }) := by
    rw [set_heap_break_one hone, hrun]
    rfl
  have hguard : CleanStep w (.brk 0 (k * FRAME_SIZE + FRAME_SIZE)) := by
    rintro P hP
    rw [h.proc] at hP
    obtain rfl := Option.some.inj hP
    rw [hm]
    exact brkClean_one hone hclean
  have hstart := h.start
  rw [← hm] at hbreak
  have hstep := WorldStep.brk h.proc hbreak
  refine ⟨_, h.reach.step hguard hstep, ?_, hready'.congr rfl rfl rfl rfl, by omega⟩
  have hp := (Machine.regs_process hregs).trans hproc
  rw [Machine.process, Process.mk.injEq] at hp
  rw [World.leave_procs]
  show some (Process.mk t.cr3 t.privateVmes t.heapStart (k * FRAME_SIZE + FRAME_SIZE)) = _
  rw [hp.1, hp.2.1, hp.2.2.1, ← Nat.succ_mul]

/-- The page after the hole takes a table that was never cleared, and the root becomes a page of its process. -/
theorem Armed.breaks (h : Armed entries w r a b c 512 [f] e l (mkEntry r tableFlags)) :
    ∃ w', WorldStep w (.brk 0 (513 * FRAME_SIZE)) w' ∧ ¬ Isolated w' := by
  obtain ⟨m, F, D, hm, hspace, hr, hready, hone, hproc⟩ := h.enter
  have hr40 : r < 2 ^ 40 := by
    have := hspace.root_lt
    omega
  have hpresent : present (mkEntry r tableFlags) := (present_mkEntry r _).mpr present_tableFlags
  obtain ⟨t, hrun, hentry, hregs⟩ := hready.last hspace hr hpresent
  have hbreak : (set_heap_break (513 * FRAME_SIZE)).run m =
      some (0, { t with heapBreak := 513 * FRAME_SIZE }) := by
    have hnext : 513 * FRAME_SIZE = 512 * FRAME_SIZE + FRAME_SIZE := by omega
    rw [hnext, set_heap_break_one hone, hrun]
    rfl
  rw [← hm] at hbreak
  refine ⟨_, WorldStep.brk h.proc hbreak, fun hiso => ?_⟩
  have hp := (Machine.regs_process hregs).trans hproc
  have hroot : t.process.root = r := by
    rw [hp]
    simp only [Process.root, PPN, FRAME_SIZE]
    omega
  have hleft := World.leave_procs w 0 { t with heapBreak := 513 * FRAME_SIZE }
  refine hiso.not_table 0 0 _ _ r hleft hleft ⟨513, by omega, mkEntry r tableFlags, ?_, ?_⟩ ?_
  · show t.pageEntry t.process.root 513 = _
    rw [hroot]
    exact hentry
  · exact entryPpn_mkEntry hr40 tableFlags_masked
  · exact ⟨[], by simp [LowerPath, StartsBelow], by simp, congrArg some hroot⟩

/-! ## A second process leaves its frames -/

/-- The parent with one page, and its child with a copy of it. -/
structure Doubled (entries : List MemmapEntry) (w : World) (r child : Nat) (v : Word) : Prop where
  reach : System.GuardedReachable (worldSystem entries) CleanStep w
  proc : w.procs 0 = some ⟨r * FRAME_SIZE, [], 509 * FRAME_SIZE, 509 * FRAME_SIZE⟩
  born : ∃ Q, w.procs 1 = some Q ∧ Q.cr3 = child * FRAME_SIZE ∧ Q.privateVmes = []
  tables : ∃ a b c d, Chain w.m 256 r [(0, a), (0, b), (0, c), (508, d)]
  copy : ∃ f₁ f₂ f₃ i₁ i₂ i₃ e, Chain w.m 256 child [(0, f₁), (i₁, f₂), (i₂, f₃), (i₃, e)] ∧ w.m.mem e 1 = v

/-- The child exits: its frames head the list, with the page it wrote to after its tables. -/
theorem Doubled.exit {child : Nat} (h : Doubled entries w r child v) :
    ∃ w' a b c f₁ f₂ f₃ e l, Armed entries w' r a b c 509 [child, f₁, f₂, f₃] e l v := by
  obtain ⟨F, D, hinv⟩ := worldInv_of_clean h.reach
  obtain ⟨Q, hq, hcr3, hvmes⟩ := h.born
  obtain ⟨a, b, c, d, htables⟩ := h.tables
  obtain ⟨f₁, f₂, f₃, i₁, i₂, i₃, e, hchain, hword⟩ := h.copy
  have hP := hinv.procs 0 _ h.proc
  have hQ := hinv.procs 1 Q hq
  have hroot := hQ.root_eq hcr3
  have hcommon := hinv.root_ne hq
  have hPspace := hP.space
  have hQspace := hQ.space
  rw [hP.root_eq rfl] at hPspace
  rw [hroot] at hQspace hcommon
  obtain ⟨hnd, hin⟩ := hchain.nodup_root hQspace.forest hQspace.root_mem (by simp)
  obtain ⟨-, hin'⟩ := htables.nodup_root hPspace.forest hPspace.root_mem (by simp)
  obtain ⟨l, hl, hF⟩ := hinv.wf
  have hs : Chain { w.m.enter 1 Q with n_active := 2 } 256 child [(0, f₁), (i₁, f₂), (i₂, f₃), (i₃, e)] :=
    hchain.congr fun _ _ => rfl
  obtain ⟨t, hrun, hfreed⟩ := fini_thread_chain hs rfl hcr3 hvmes (by simp) hcommon
    (hl.congr rfl rfl rfl fun _ _ => rfl) hnd fun g hg => by
      obtain ⟨hgF, hm⟩ := hQspace.owned g (hin g hg)
      rw [hF, not_or] at hgF
      exact ⟨hm, hgF⟩
  have hkeep : ∀ g ∈ [r, a, b, c], t.mem g = w.m.mem g := by
    intro g hg
    refine hfreed.other g fun hg' => ?_
    refine Set.disjoint_left.mp (hinv.apart 0 1 _ Q (by omega) h.proc hq) (hin' g ?_) (hin g ?_)
    · simp only [chainFrames, List.map_cons, List.map_nil, List.mem_cons, List.not_mem_nil, or_false] at hg ⊢
      omega
    · exact hg'
  obtain ⟨-, htop, -, -, hmid, -, -, hlow, hb, -, -, hc, -⟩ := htables
  refine ⟨_, a, b, c, f₁, f₂, f₃, e, l, h.reach.step (by exact trivial) (WorldStep.exit hq hrun), ?_,
    ⟨?_, ?_, ?_, ?_, ?_, ?_, ?_⟩,
    by omega⟩
  · rw [← h.proc]
    rfl
  · rw [← htop]
    exact congrFun (Machine.edge_congr (hkeep r (by simp))) 0
  · rw [← hmid]
    exact congrFun (Machine.edge_congr (hkeep a (by simp))) 0
  · rw [← hlow]
    exact congrFun (Machine.edge_congr (hkeep b (by simp))) 0
  · show ¬ present (t.mem b 1)
    rw [hkeep b (by simp)]
    exact hb 1 (by omega) (by omega)
  · intro j hj hj'
    show ¬ present (t.mem c j)
    rw [hkeep c (by simp)]
    exact hc j hj' (by omega)
  · exact hfreed.list.congr rfl rfl rfl fun _ _ => rfl
  · rw [← hword]
    exact hfreed.content 1 (by omega)

/-! ## The first process -/

/-- The first process with one page, the break at `hb`, and enough free frames for a child. -/
structure Loaded (entries : List MemmapEntry) (w : World) (r d hb : Nat) (v : Word) : Prop where
  reach : System.GuardedReachable (worldSystem entries) CleanStep w
  proc : w.procs 0 = some ⟨r * FRAME_SIZE, [], hb, hb⟩
  born : w.born = 1
  chain : ∃ a b c, d ∉ [r, a, b, c] ∧ Chain w.m 256 r [(0, a), (0, b), (0, c), (508, d)]
  word : w.m.mem d 1 = v
  free : ∃ F, PhysWf w.m F ∧ 5 ≤ F.ncard

theorem Chain.page {m : Machine} (h : Chain m 256 r [(0, a), (0, b), (0, c), (508, d)]) :
    ∃ entry, m.pageEntry r 508 = some entry ∧ entryPpn entry = d := by
  obtain ⟨-, htop, -, -, hmid, -, -, hlow, -, -, hleaf, -, -⟩ := h
  obtain ⟨-, hp, hd⟩ := Machine.edge_some.mp hleaf
  obtain ⟨h3, h2, h1, h0⟩ := vpnIndex_small (k := 508) (by omega)
  refine ⟨m.mem c 508, Machine.pageEntry_some.mpr ⟨c, ?_, hp, by rw [h0]⟩, hd⟩
  rw [tablePath, tablePath, tablePath, tablePath, h3, h2, h1, walk_cons_some htop, walk_cons_some hmid,
    walk_cons_some hlow]
  rfl

theorem Loaded.store {hb : Nat} (h : Loaded entries w r d hb v) (v' : Word) : ∃ w', Loaded entries w' r d hb v' := by
  obtain ⟨F, D, hinv⟩ := worldInv_of_clean h.reach
  obtain ⟨a, b, c, hd, hchain⟩ := h.chain
  obtain ⟨F', hwf, hcard⟩ := h.free
  obtain rfl := hinv.wf.unique hwf
  have hP := hinv.procs 0 _ h.proc
  have hspace := hP.space
  rw [hP.root_eq rfl] at hspace
  obtain ⟨-, hin⟩ := hchain.nodup_root hspace.forest hspace.root_mem (by simp)
  have hdF : d ∉ F := (hspace.owned d (hin d (by simp [chainFrames]))).1
  obtain ⟨entry, hentry, hentryd⟩ := hchain.page
  have hstep := WorldStep.store (j := 1) (v := v') h.proc (show 508 < 2 ^ 35 by omega) (by omega)
  have hroot : (w.m.enter 0 ⟨r * FRAME_SIZE, [], hb, hb⟩).root = r := hP.root_eq rfl
  have hstate : w.m.userStore (w.m.enter 0 ⟨r * FRAME_SIZE, [], hb, hb⟩).root 508 1 v' = w.m.poke d 1 v' := by
    rw [hroot, Machine.userStore, hentry, ← hentryd]
  rw [hstate] at hstep
  refine ⟨_, h.reach.step (by exact trivial) hstep, h.proc, h.born, ⟨a, b, c, hd, hchain.congr fun g hg => ?_⟩, ?_,
    F, ?_, hcard⟩
  · refine Machine.poke_mem_of_ne ?_
    rintro rfl
    exact hd (by simpa [chainFrames] using hg)
  · simp [Machine.poke]
  · refine hwf.congr rfl rfl rfl fun g hg => Machine.poke_mem_of_ne ?_
    rintro rfl
    exact hdF hg

theorem Loaded.init_heap (h : Loaded entries w r d 0 v) : ∃ w', Loaded entries w' r d (509 * FRAME_SIZE) v := by
  have hrun : (init_heap_break (509 * FRAME_SIZE)).run (w.m.enter 0 ⟨r * FRAME_SIZE, [], 0, 0⟩) =
      some ((), { w.m.enter 0 ⟨r * FRAME_SIZE, [], 0, 0⟩ with
        heapStart := 509 * FRAME_SIZE, heapBreak := 509 * FRAME_SIZE }) := by
    have hge : ¬ 509 * FRAME_SIZE < 0x1000 := by
      simp only [FRAME_SIZE]; omega
    rw [init_heap_break, if_neg hge]
    rfl
  obtain ⟨a, b, c, hd, hchain⟩ := h.chain
  obtain ⟨F, hwf, hcard⟩ := h.free
  exact ⟨_, h.reach.step (by exact trivial) (WorldStep.init_heap h.proc hrun), World.leave_procs _ _ _, h.born,
    ⟨a, b, c, hd, hchain.congr fun _ _ => rfl⟩, h.word, F, hwf.congr rfl rfl rfl fun _ _ => rfl, hcard⟩

theorem Loaded.fork (h : Loaded entries w r d (509 * FRAME_SIZE) v) : ∃ w' child, Doubled entries w' r child v := by
  obtain ⟨F, D, hinv⟩ := worldInv_of_clean h.reach
  obtain ⟨a, b, c, hd, hchain⟩ := h.chain
  obtain ⟨F', hwf, hcard⟩ := h.free
  obtain rfl := hinv.wf.unique hwf
  have hP := hinv.procs 0 _ h.proc
  have hspace := hP.space
  have hroot := hP.root_eq (r := r) rfl
  rw [hroot] at hspace
  obtain ⟨-, hin⟩ := hchain.nodup_root hspace.forest hspace.root_mem (by simp)
  have hsrc := hinv.lowerSource h.proc
  generalize hs : ({ w.m.enter 0 ⟨r * FRAME_SIZE, [], 509 * FRAME_SIZE, 509 * FRAME_SIZE⟩ with acting := w.born } :
    Machine) = s at hsrc
  have hsmem : s.mem = w.m.mem := by rw [← hs]; rfl
  have hsroot : s.root = r := by rw [← hs]; exact hroot
  have hswf : PhysWf s F := hwf.congr (by rw [← hs]; rfl) (by rw [← hs]; rfl) (by rw [← hs]; rfl) fun g _ => by
    rw [hsmem]
  have hnew : ∀ live, s.newVme live ∉ live := by
    rw [← hs]
    exact hinv.newVme
  have hschain : Chain s 256 r [(0, a), (0, b), (0, c), (508, d)] := hchain.congr fun g _ => congrFun hsmem g
  rw [hroot, ← hsroot] at hsrc
  obtain ⟨st, t, hrun⟩ := snapshot_returns hswf hsrc hnew (by
    rw [hsroot, hschain.size (d := 3) rfl (by omega)]
    exact hcard)
  obtain ⟨child, G, u, l, hcopy, -, hvmes, -, rfl⟩ := snapshot_parts hswf hsrc hnew hrun
  rw [hsroot] at hcopy
  obtain ⟨f₁, path, hpath, hidx, hend⟩ := hcopy.chain hschain rfl
  have hlen : path.length = 3 := by simpa using congrArg List.length hidx
  have hl : l = [] := by
    have hareas := hvmes.areas
    rw [← hs] at hareas
    exact List.map_eq_nil_iff.mp hareas
  have hlt := Machine.maps_lt hwf.hhdm (hwf.maps (hcopy.child_free))
  rw [← hs] at hrun
  have hstep := WorldStep.fork h.proc hrun rfl
  have hcr3 : PA.ofPPN child = child * FRAME_SIZE := by
    simp only [PA.ofPPN, FRAME_SIZE]
    omega
  have hborn : 0 ≠ w.born := by
    rw [h.born]
    omega
  refine ⟨_, child, h.reach.step (by exact trivial) hstep, by rw [← h.proc]; exact if_neg hborn,
    ⟨_, if_pos h.born.symm, hcr3, hl⟩,
    ⟨a, b, c, d, ?_⟩, ?_⟩
  · refine hschain.congr fun g hg => hcopy.other g fun hg' => ?_
    exact (hspace.owned g (hin g (List.mem_of_mem_dropLast hg))).1 hg'.1
  · obtain ⟨⟨i₁, f₂⟩, ⟨i₂, f₃⟩, ⟨i₃, e⟩, rfl⟩ := List.length_eq_three.mp hlen
    refine ⟨f₁, f₂, f₃, i₁, i₂, i₃, e, hpath, (hend 1 (by omega)).trans ?_⟩
    rw [hsmem]
    exact h.word

/-- The first process, in a memory where no frame was used before its root. -/
structure Fresh (entries : List MemmapEntry) (w : World) (r : Nat) : Prop where
  reach : System.GuardedReachable (worldSystem entries) CleanStep w
  proc : w.procs 0 = some ⟨r * FRAME_SIZE, [], 0, 0⟩
  born : w.born = 1
  blank : ∀ j, j < 256 → w.m.mem r j = 0
  avail : w.m.avail = 0
  wf : PhysWf w.m ({f | usableFrame entries f} \ {r})
  usable : usableFrame entries r

theorem FirstRoot.fresh {m₀ t : Machine} (hb : BootedKernel entries m₀) (hrun : init_thread.run m₀ = some ((), t))
    (hroot : FirstRoot entries m₀ t r) : ∃ w, Fresh entries w r := by
  refine ⟨⟨t, fun p => if p = 0 then some t.process else none, 1⟩, ⟨_, [], ⟨m₀, hb, hrun, rfl, rfl⟩, .nil _⟩, ?_, rfl,
    hroot.blank, hroot.avail, hroot.wf, hroot.usable⟩
  rw [← hroot.process]
  rfl

/-- The image of the process is loaded: one page, at page 508. -/
theorem Fresh.page (h : Fresh entries w r) (hcard : 10 ≤ {f | usableFrame entries f}.ncard) :
    ∃ t d v, (map_range (508 * FRAME_SIZE) FRAME_SIZE true true).run (w.m.enter 0 ⟨r * FRAME_SIZE, [], 0, 0⟩) =
      some ((), t) ∧ mapRangeClean true true (508 * FRAME_SIZE) FRAME_SIZE (w.m.enter 0 ⟨r * FRAME_SIZE, [], 0, 0⟩) ∧
      Loaded entries (w.leave 0 t) r d 0 v := by
  obtain ⟨F₀, D, hinv⟩ := worldInv_of_clean h.reach
  obtain rfl := hinv.wf.unique h.wf
  have hP := hinv.procs 0 _ h.proc
  obtain ⟨hspace, hr, -⟩ := hP.enter
  rw [hP.root_eq rfl] at hspace hr
  generalize hm : w.m.enter 0 ⟨r * FRAME_SIZE, [], 0, 0⟩ = m at hspace hr ⊢
  have hmem : m.mem = w.m.mem := by rw [← hm]; rfl
  have hmproc : m.process = ⟨r * FRAME_SIZE, [], 0, 0⟩ := by rw [← hm]; rfl
  have hfin := hspace.wf.finite
  have hru : r ∈ {f | usableFrame entries f} := h.usable
  have hcard₀ := Set.ncard_sdiff_singleton_add_one hru (hfin.of_sdiff (Set.finite_singleton r))
  obtain ⟨h3, h2, h1, h0⟩ := vpnIndex_small (k := 508) (by omega)
  have hva : 508 * FRAME_SIZE < 2 ^ 47 ∧ 508 * FRAME_SIZE / FRAME_SIZE = 508 := by
    rw [FRAME_SIZE]; omega
  have halign : 508 * FRAME_SIZE % FRAME_SIZE = 0 ∧ 508 * FRAME_SIZE + FRAME_SIZE ≤ 2 ^ 47 := by
    rw [FRAME_SIZE]; omega
  have hnone : m.pageEntry r 508 = none := by
    rw [Machine.pageEntry, tablePath, h3, walk_cons_none (edge_zero (by rw [hmem]; exact h.blank 0 (by omega)))]
    rfl
  -- The page, and then its tables, come from frames that were never used.
  obtain ⟨d, u, halloc⟩ := alloc_returns hspace.wf (Set.nonempty_of_ncard_ne_zero (by omega))
  have ha := alloc_spec hspace.wf halloc
  obtain ⟨huavail, -⟩ := alloc_cleared hspace.wf (by rw [← hm]; exact h.avail) halloc
  have hcard₁ := Set.ncard_sdiff_singleton_add_one ha.mem_free hfin
  have hrF : r ∉ {f | usableFrame entries f} \ {r} := fun h => h.2 rfl
  have hdr : d ≠ r := fun h => hrF (h ▸ ha.mem_free)
  have hd40 : d < 2 ^ 40 := by
    have := Machine.maps_lt hspace.wf.hhdm (hspace.wf.maps ha.mem_free)
    omega
  have huwf := ha.wf.congr (t := u.marked d) rfl rfl rfl fun _ _ => rfl
  have hrow : ∀ j, j < 256 → (u.marked d).mem r j = 0 := by
    intro j hj
    refine (congrFun (ha.other r hdr.symm) j).trans ?_
    rw [hmem]
    exact h.blank j hj
  have hidx : vpnIndex 508 3 < 256 := by omega
  obtain ⟨v, F, hmap, hfirst⟩ := mapAt_first 508 d true true huwf huavail (by omega)
    (fun h => hrF h.1) ((Machine.maps_congr (Machine.regs_hhdm ha.regs) r).mpr (hspace.owned r hspace.root_mem).2)
    (fun h => h.2 rfl) hd40 hdr hidx hrow
  have hload : (map_range (508 * FRAME_SIZE) FRAME_SIZE true true).run m = some ((), v) := by
    rw [map_range_one halign.1 halign.2, mapPage_none hspace hr hva.1 (by rw [hva.2]; exact hnone), halloc,
      Option.bind_some, hva.2]
    exact hmap
  have hclean : mapRangeClean true true (508 * FRAME_SIZE) FRAME_SIZE m := by
    refine mapRangeClean_one halign.1 halign.2 fun _ f u' halloc' => ?_
    rw [halloc, Option.some.injEq, Prod.mk.injEq] at halloc'
    obtain ⟨rfl, rfl⟩ := halloc'
    rw [hva.2, hr.root hspace.root_lt]
    refine mapClean_blank huwf huavail (fun h => hrF h.1) ?_
    rw [hrow _ hidx]
    exact not_present_zero
  have hguard : CleanStep w (.load 0 (508 * FRAME_SIZE) FRAME_SIZE) := by
    rintro P hP
    rw [h.proc] at hP
    obtain rfl := Option.some.inj hP
    rw [hm]
    exact hclean
  have hstep := WorldStep.load h.proc halign.2 (hm ▸ hload)
  obtain ⟨a, b, c, hd, hchain⟩ := hfirst.chain
  rw [h3, h2, h1, h0] at hchain
  have hcost := hfirst.cost
  refine ⟨v, d, _, hload, hclean, h.reach.step hguard hstep, ?_, h.born, ⟨a, b, c, hd, hchain⟩, rfl, F,
    hfirst.wf, by omega⟩
  rw [World.leave_procs, Machine.regs_process (hfirst.regs.trans ha.regs), hmproc]

theorem init_thread_returns {m : Machine} (h : BootedKernel entries m) (hne : {f | usableFrame entries f}.Nonempty) :
    ∃ t, init_thread.run m = some ((), t) := by
  have hwf := h.booted.physWf
  have hcommon : PPN (m.common_cr3 / FRAME_SIZE) = m.commonRoot := by
    have := Machine.maps_lt hwf.hhdm h.root_mapped
    rw [PPN, ← Machine.commonRoot]
    omega
  obtain ⟨root, u, halloc⟩ := alloc_returns hwf hne
  have ha := alloc_spec hwf halloc
  have hhu := Machine.regs_hhdm ha.regs
  have hh := hwf.hhdm.congr hhu
  have hmaps := (Machine.maps_congr hhu root).mpr (hwf.maps ha.mem_free)
  have hcu : u.common_cr3 = m.common_cr3 := Machine.fixed_common (Machine.regs_fixed ha.regs)
  refine ⟨{ u.copyUpper root m.commonRoot with cr3 := PA.ofPPN root }, ?_⟩
  rw [init_thread, Prog.bind_run halloc, Prog.bind_run (VA.ofPPN_run hh hmaps), Prog.get_bind_run]
  simp only [hcu, hcommon]
  rw [Prog.bind_run (VA.ofPPN_run hh ((Machine.maps_congr hhu _).mpr h.root_mapped)),
    Prog.bind_run (copyUpper_run rfl rfl)]
  rfl

/-- From any boot with ten frames: the first process has a page. -/
theorem BootedKernel.loaded {m : Machine} (h : BootedKernel entries m)
    (hcard : 10 ≤ {f | usableFrame entries f}.ncard) : ∃ w r d v, Loaded entries w r d 0 v := by
  obtain ⟨t, hrun⟩ := init_thread_returns h (Set.nonempty_of_ncard_ne_zero (by omega))
  obtain ⟨r, hroot⟩ := init_thread_spec h hrun
  obtain ⟨w, hw⟩ := hroot.fresh h hrun
  obtain ⟨t, d, v, -, -, hloaded⟩ := hw.page hcard
  exact ⟨_, r, d, v, hloaded⟩

/-- Then it forks, and the child exits and leaves its frames. -/
theorem BootedKernel.orphaned {m : Machine} (h : BootedKernel entries m)
    (hcard : 10 ≤ {f | usableFrame entries f}.ncard) :
    ∃ w r a b c f₁ f₂ f₃ f₄ e l, Armed entries w r a b c 509 [f₁, f₂, f₃, f₄] e l (mkEntry r tableFlags) := by
  obtain ⟨w₁, r, d, v, h₁⟩ := h.loaded hcard
  obtain ⟨w₂, h₂⟩ := h₁.store (mkEntry r tableFlags)
  obtain ⟨w₃, h₃⟩ := h₂.init_heap
  obtain ⟨w₄, child, h₄⟩ := h₃.fork
  obtain ⟨w₅, a, b, c, f₁, f₂, f₃, e, l, h₅⟩ := h₄.exit
  exact ⟨w₅, r, a, b, c, child, f₁, f₂, f₃, e, l, h₅⟩

/-- Then the parent is about to grow its heap past the last table it has. -/
theorem BootedKernel.armed {m : Machine} (h : BootedKernel entries m) (hcard : 10 ≤ {f | usableFrame entries f}.ncard) :
    ∃ w r a b c f e l, Armed entries w r a b c 512 [f] e l (mkEntry r tableFlags) := by
  obtain ⟨w₅, r, a, b, c, f₁, f₂, f₃, f₄, e, l, h₅⟩ := h.orphaned hcard
  obtain ⟨w₆, h₆⟩ := h₅.page (by omega)
  obtain ⟨w₇, h₇⟩ := h₆.page (by omega)
  obtain ⟨w₈, h₈⟩ := h₇.page (by omega)
  exact ⟨w₈, r, a, b, c, f₄, e, l, h₈⟩

end

/-! ## A machine with sixteen usable frames -/

def bootEntry : MemmapEntry := ⟨512 * 4096, 16 * 4096, LIMINE_MEMMAP_USABLE⟩

/-- Frame 100 is the root of the boot loader. Its direct map is one page of 1 GiB, below table 101. -/
def bootMachine : Machine where
  hhdm_offset := 0xFFFF800000000000
  common_cr3 := 100 * 4096
  mem := fun f i =>
    if f = 100 ∧ i = 256 then mkEntry 101 tableFlags
    else if f = 101 ∧ i = 0 then mkEntry 0 (leafFlags false true ||| largeBit)
    else 0
  avail := 0
  free_ranges := [bootEntry.range]
  cr3 := 100 * 4096
  n_active := 0
  privateVmes := []
  sharedVmes := []
  heapStart := 0
  heapBreak := 0
  vmeLive := []
  newVme := fun live => live.sum + 1
  acting := 0
  owner := fun _ => none

theorem bootMachine_usable (f : Nat) : usableFrame [bootEntry] f ↔ 512 ≤ f ∧ f < 528 := by
  simp only [usableFrame, List.mem_singleton, exists_eq_left, MemmapEntry.usable, bootEntry, MemmapEntry.range,
    Range.has, FRAME_SIZE, true_and]
  omega

theorem bootMachine_table {f i c : Nat} (h : bootMachine.tableEdge f i = some c) : c = 101 := by
  obtain ⟨-, hp, hl, rfl⟩ := Machine.through_some.mp h
  simp only [bootMachine] at hp hl ⊢
  split_ifs at hp hl ⊢ with hroot hlarge
  · exact entryPpn_mkEntry (by omega) tableFlags_masked
  · exact absurd (by decide : large _) hl
  · exact absurd hp not_present_zero

/-- The direct map reaches all usable frames, and none of them is a table. -/
theorem bootMachine_tables {f g : Nat} {π : List Nat} (h : walk bootMachine.tableEdge f π = some g) (hf : f ≤ 101) :
    g ≤ 101 := by
  induction π generalizing f with
  | nil => exact Option.some.inj h ▸ hf
  | cons i π ih =>
    obtain ⟨c, hc, h⟩ := walk_cons_eq_some.mp h
    exact ih h (Nat.le_of_eq (bootMachine_table hc))

/-- The same boot with any one usable entry above the boot loader's tables. -/
theorem bootMachine_with {e : MemmapEntry} (haligned : e.base % 4096 = 0 ∧ e.length % 4096 = 0) (hpos : 0 < e.length)
    (hrange : 102 * 4096 ≤ e.base ∧ e.base + e.length ≤ 2 ^ 47 ∧ e.type = LIMINE_MEMMAP_USABLE) :
    BootedKernel [e] { bootMachine with free_ranges := [e.range] } := by
  have hroot : bootMachine.commonRoot = 100 := by
    simp only [Machine.commonRoot, bootMachine, FRAME_SIZE]
  have hhigh : 2 ^ 64 - 2 ^ 47 ≤ bootMachine.hhdm_offset := by decide
  have hframe : bootMachine.hhdm_offset % FRAME_SIZE = 0 := by rw [FRAME_SIZE]; decide
  refine ⟨⟨⟨hhigh, hframe, ?_, ?_, ?_, ?_, List.pairwise_singleton _ _⟩, rfl, ?_⟩, ?_, ?_, ?_, rfl, rfl, rfl⟩
  · intro d hd _; obtain rfl := List.mem_singleton.mp hd; rw [FRAME_SIZE]; exact haligned.1
  · intro d hd _; obtain rfl := List.mem_singleton.mp hd; rw [FRAME_SIZE]; exact haligned.2
  · intro d hd _; obtain rfl := List.mem_singleton.mp hd; exact hpos
  · intro d hd _
    obtain rfl := List.mem_singleton.mp hd
    simp only [bootMachine]
    omega
  · simp only [PhysMem.init, List.foldl_cons, List.foldl_nil, if_pos hrange.2.2]
    rfl
  · show Machine.maps bootMachine bootMachine.commonRoot
    rw [hroot]
    simp only [Machine.maps, bootMachine, FRAME_SIZE]
    omega
  · rintro g ⟨π, -, -, hw⟩ ⟨d, hd, -, hbase, -⟩
    obtain rfl := List.mem_singleton.mp hd
    have hw' : walk bootMachine.tableEdge bootMachine.commonRoot π = some g := hw
    rw [hroot] at hw'
    have := bootMachine_tables hw' (by omega)
    simp only [MemmapEntry.range, FRAME_SIZE] at hbase
    omega
  · intro live h
    have : live.sum + 1 ≤ live.sum := List.single_le_sum (by simp) _ h
    omega

theorem bootMachine_booted : BootedKernel [bootEntry] bootMachine :=
  bootMachine_with (by decide) (by decide) (by decide)

theorem bootMachine_frames : 10 ≤ {f | usableFrame [bootEntry] f}.ncard := by
  have hcoe : {f | usableFrame [bootEntry] f} = Finset.Ico 512 528 := by
    ext f
    rw [Finset.coe_Ico, Set.mem_Ico]
    exact bootMachine_usable f
  rw [hcoe, Set.ncard_coe_finset, Nat.card_Ico]
  omega

/-! ## Isolation -/

/-- **Isolation.** Processes are isolated in every run in which `map` finds no present word in the frames
that it takes for tables. -/
theorem clean_runs_isolate {entries : List MemmapEntry} {w : World}
    (h : System.GuardedReachable (worldSystem entries) CleanStep w) : Isolated w := by
  obtain ⟨F, D, hinv⟩ := worldInv_of_clean h
  exact hinv.isolated

theorem bootMachine_isolated :
    ∃ w P, System.GuardedReachable (worldSystem [bootEntry]) CleanStep w ∧ w.procs 0 = some P ∧ Isolated w := by
  obtain ⟨w, r, a, b, c, f, e, l, h⟩ := bootMachine_booted.armed bootMachine_frames
  exact ⟨w, _, h.reach, h.proc, clean_runs_isolate h.reach⟩

/-- One page more, and the process reaches its own root as a page. -/
theorem bootMachine_not_isolated :
    ¬ ∀ w, System.Reachable (worldSystem [bootEntry]) w → Isolated w := by
  intro hall
  obtain ⟨w, r, a, b, c, f, e, l, h⟩ := bootMachine_booted.armed bootMachine_frames
  obtain ⟨w', hstep, hbroken⟩ := h.breaks
  exact hbroken (hall w' (h.reach.reachable.step hstep))

end Kernel
