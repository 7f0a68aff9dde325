import Kernel.Syscall.Write
import Kernel.Vmm.Isolation

/-!
# User buffers

`write` puts out the bytes of a buffer in the user half whose pages are there or
in a VME. It refuses every other, unless a table for its pages is made of a frame
that a dead process wrote to.
-/

namespace Kernel

open Lib

/-! ## The check of the range -/

/-- The pages of a range. -/
def rangeTurns (ptr len : Nat) : Nat := (ptr + len - 1) / FRAME_SIZE - ptr / FRAME_SIZE + 1

/-- The range lies in the user half. -/
def UserRange (ptr len : Nat) : Prop := 0x1000 ≤ ptr ∧ ptr + len ≤ 2 ^ 47

theorem last_eq {ptr len : Nat} (h : UserRange ptr len) :
    sub64 (add64 ptr len) 1 = ptr + len - 1 := by
  unfold UserRange at h
  simp only [sub64, add64]
  omega

theorem last_wraps {ptr len : Nat} (hptr : ptr < 2 ^ 64) (hlen : len < 2 ^ 64)
    (hlow : 0x1000 ≤ ptr) (hge : ¬ sub64 (add64 ptr len) 1 < ptr) (hle : ¬ sub64 (add64 ptr len) 1 ≥ 2 ^ 47) :
    ptr + len ≤ 2 ^ 47 := by
  simp only [sub64, add64] at *
  omega

theorem rangeMapped_out {nodes : Nat → BlockIO} {turns ptr len : Nat} (hptr : ptr < 2 ^ 64) (hlen : len < 2 ^ 64)
    (hpos : len ≠ 0) (h : ¬ UserRange ptr len) : is_user_range_mapped nodes turns ptr len = pure false := by
  unfold is_user_range_mapped
  rw [if_neg hpos]
  dsimp only
  by_cases hstart : ptr < 0x1000 ∨ ptr ≥ 0x0000800000000000
  · rw [if_pos hstart]
  · rw [if_neg hstart, if_pos]
    by_contra hor
    rw [not_or] at hor hstart
    exact h ⟨by omega, last_wraps hptr hlen (by omega) hor.1 hor.2⟩

theorem rangeMapped_in {nodes : Nat → BlockIO} {turns ptr len : Nat} (hpos : len ≠ 0) (h : UserRange ptr len) :
    is_user_range_mapped nodes turns ptr len =
      pageLoop nodes ((ptr + len - 1) / FRAME_SIZE * FRAME_SIZE) turns (ptr / FRAME_SIZE * FRAME_SIZE) := by
  obtain ⟨h1, h2⟩ := h
  unfold is_user_range_mapped
  rw [if_neg hpos, if_neg (by omega)]
  dsimp only
  rw [last_eq ⟨h1, h2⟩, if_neg (by omega)]

theorem rangeTurns_last (ptr : Nat) {len : Nat} (hpos : len ≠ 0) : ptr / FRAME_SIZE * FRAME_SIZE +
    (rangeTurns ptr len - 1) * FRAME_SIZE = (ptr + len - 1) / FRAME_SIZE * FRAME_SIZE := by
  simp only [rangeTurns, FRAME_SIZE]
  omega

theorem rangeTurns_lt {ptr len : Nat} (h : UserRange ptr len) : rangeTurns ptr len ≤ 2 ^ 35 := by
  obtain ⟨h1, h2⟩ := h
  simp only [rangeTurns, FRAME_SIZE]
  omega

/-- **The page loop ends.** More turns than there are pages make no difference. -/
theorem rangeMapped_turns {nodes : Nat → BlockIO} {turns ptr len : Nat} (hptr : ptr < 2 ^ 64) (hlen : len < 2 ^ 64)
    (ht : 2 ^ 35 ≤ turns) : is_user_range_mapped nodes turns ptr len = is_user_range_mapped nodes (2 ^ 35) ptr len := by
  by_cases hpos : len = 0
  · unfold is_user_range_mapped
    rw [if_pos hpos, if_pos hpos]
  by_cases h : UserRange ptr len
  · have hlt := rangeTurns_lt h
    have hlast := rangeTurns_last ptr hpos
    have h64 : (ptr + len - 1) / FRAME_SIZE * FRAME_SIZE < 2 ^ 64 := by
      obtain ⟨h1, h2⟩ := h
      simp only [FRAME_SIZE]
      omega
    have hone : rangeTurns ptr len - 1 < rangeTurns ptr len := by
      unfold rangeTurns
      omega
    have hfew : rangeTurns ptr len - 1 < 2 ^ 35 := by omega
    have hmore : rangeTurns ptr len - 1 < turns := by omega
    rw [rangeMapped_in hpos h, rangeMapped_in hpos h, pageLoop_turns hlast h64 hmore, pageLoop_turns hlast h64 hfew]
  · rw [rangeMapped_out hptr hlen hpos h, rangeMapped_out hptr hlen hpos h]

/-! ## The bytes that are put out -/

/-- The page of `a` is there, or a VME has it. -/
def Machine.Covered (s : Machine) (root a : Nat) : Prop :=
  (s.pageEntry root (a / FRAME_SIZE)).isSome ∨
    ∃ vme ∈ s.privateVmes ++ s.sharedVmes, vme.start ≤ a / FRAME_SIZE * FRAME_SIZE ∧
      a / FRAME_SIZE * FRAME_SIZE < vme.end

section

variable {s t : Machine} {nodes : Nat → BlockIO} {F D : Set Nat} {root ptr len : Nat}

theorem findVme_isSome {l : List VME} {pageVa : Nat} :
    (findVme l pageVa).isSome ↔ ∃ vme ∈ l, vme.start ≤ pageVa ∧ pageVa < vme.end := by
  unfold findVme
  rw [List.find?_isSome]
  simp

theorem covered_iff {a : Nat} : (s.expectedByte nodes root a).isSome ↔ s.Covered root a := by
  unfold Machine.expectedByte Machine.vmeFor Machine.Covered
  rw [Option.isSome_or, Bool.or_eq_true, userByte_isSome, Option.isSome_map, Option.isSome_or, Bool.or_eq_true,
    findVme_isSome, findVme_isSome]
  simp only [List.mem_append, or_and_right, exists_or]

theorem deref_run {a : Nat} {b : Byte} (hr : t.root = root) (h : t.userByte root a = some b) :
    (deref a).run t = some (b, t) := by
  unfold deref
  rw [Prog.get_bind_run, hr, h]
  rfl

theorem putLoop_run (ptr n : Nat) (hr : t.root = root) (h : ∀ i, i < n → (t.userByte root (ptr + i)).isSome) :
    ∃ out, (putLoop ptr n).run t = some (out, t) ∧
      out.map some = (List.range n).map fun i => t.userByte root (ptr + i) := by
  induction n with
  | zero => exact ⟨[], rfl, rfl⟩
  | succ n ih =>
    obtain ⟨out, hrun, hout⟩ := ih fun i hi => h i (by omega)
    obtain ⟨b, hb⟩ := Option.isSome_iff_exists.mp (h n (by omega))
    refine ⟨out ++ [b], ?_, ?_⟩
    · unfold putLoop
      rw [Prog.bind_run hrun, Prog.bind_run (deref_run hr hb)]
      rfl
    · rw [List.range_succ, List.map_append, List.map_append, hout, List.map_singleton, List.map_singleton, hb]

/-- Each turn of the page loop for a range in the user half starts in a state with `P`. -/
def RangeTurns (nodes : Nat → BlockIO) (P : Nat → Machine → Prop) (ptr len : Nat) (s : Machine) : Prop :=
  len ≠ 0 → UserRange ptr len → EachTurn nodes P (rangeTurns ptr len) (ptr / FRAME_SIZE * FRAME_SIZE) s

/-- The buffers that `write` accepts. -/
def WriteAccepts (s : Machine) (root ptr len : Nat) : Prop :=
  len = 0 ∨ UserRange ptr len ∧ ∀ a, ptr ≤ a → a < ptr + len → s.Covered root a

theorem validBuffer_in (h : UserRange ptr len) : is_valid_user_buffer ptr len = true := by
  have htop : userTopExclusive = 2 ^ 47 := rfl
  obtain ⟨h1, h2⟩ := h
  unfold is_valid_user_buffer
  by_cases hpos : len = 0
  · rw [if_pos hpos]
  · rw [if_neg hpos, if_neg (by rw [htop]; omega)]
    dsimp only
    rw [last_eq ⟨h1, h2⟩, if_neg (by omega), if_neg (by rw [htop]; omega)]

theorem len_toInt (h : len < 2 ^ 63) : (BitVec.ofNat 64 len).toInt = len := by
  have hn : (BitVec.ofNat 64 len).toNat = len := by
    rw [BitVec.toNat_ofNat]
    omega
  rw [BitVec.toInt_eq_toNat_of_lt (by omega), hn]

theorem rangeMapped_spec (h : Space s F D s.acting root) (hr : OnRoot s root)
    (hread : ∀ vme ∈ s.privateVmes ++ s.sharedVmes, Readable nodes vme) (hpos : len ≠ 0) (huser : UserRange ptr len)
    (hclean : RangeTurns nodes (FaultClean nodes) ptr len s) (hframes : RangeTurns nodes FramesLeft ptr len s) :
    ∃ b t F' D', (is_user_range_mapped nodes (2 ^ 35) ptr len).run s = some (b, t) ∧ Looped s nodes F D root
      (ptr / FRAME_SIZE * FRAME_SIZE) ((ptr + len - 1) / FRAME_SIZE * FRAME_SIZE) b t F' D' := by
  have hlt := rangeTurns_lt huser
  have hone : rangeTurns ptr len - 1 + 1 = rangeTurns ptr len := by
    unfold rangeTurns
    omega
  have hvmes : ∀ pageVa vme, s.vmeFor pageVa = some vme → Readable nodes vme := by
    intro pageVa vme hvme
    refine hread vme (List.mem_append.mpr ?_)
    rcases Option.or_eq_some_iff.mp hvme with hmem | ⟨-, hmem⟩
    · exact Or.inl (List.mem_of_find?_eq_some hmem)
    · exact Or.inr (List.mem_of_find?_eq_some hmem)
  rw [rangeMapped_in hpos huser]
  obtain ⟨h1, h2⟩ := huser
  refine pageLoop_spec (k := rangeTurns ptr len - 1) ?_ h hr hvmes ?_ (rangeTurns_last ptr hpos) (by omega) ?_ ?_
  · simp only [FRAME_SIZE]
    omega
  · exact Nat.mul_mod_left _ _
  · rw [hone]
    exact hclean hpos ⟨h1, h2⟩
  · rw [hone]
    exact hframes hpos ⟨h1, h2⟩

/-- **User buffers.** `write` puts out the bytes of a buffer that it accepts, and refuses every other. -/
theorem write_user_buffer (nodes : Nat → BlockIO) (ptr len : Nat) (h : Space s F D s.acting root) (hr :
    OnRoot s root) (hptr : ptr < 2 ^ 64) (hlen : len < 2 ^ 64)
    (hread : ∀ vme ∈ s.privateVmes ++ s.sharedVmes, Readable nodes vme)
    (hframes : RangeTurns nodes FramesLeft ptr len s) (hclean : RangeTurns nodes (FaultClean nodes) ptr len s) :
    (∀ turns, 2 ^ 35 ≤ turns → is_user_range_mapped nodes turns ptr len = is_user_range_mapped nodes (2 ^ 35) ptr len) ∧
      ∃ r out t, (∀ turns, 2 ^ 35 ≤ turns → (sys_write nodes turns 1 ptr len).run s = some ((r, out), t)) ∧
        (WriteAccepts s root ptr len →
          r = len ∧ out.map some = (List.range len).map fun i => s.expectedByte nodes root (ptr + i)) ∧
        (¬ WriteAccepts s root ptr len → r = -1 ∧ out = []) := by
  have hturns : ∀ turns, 2 ^ 35 ≤ turns →
      is_user_range_mapped nodes turns ptr len = is_user_range_mapped nodes (2 ^ 35) ptr len :=
    fun turns ht => rangeMapped_turns hptr hlen ht
  refine ⟨hturns, ?_⟩
  by_cases hpos : len = 0
  · refine ⟨0, [], s, fun turns _ => ?_, fun _ => by rw [hpos]; exact ⟨rfl, rfl⟩, fun hn => absurd (Or.inl hpos) hn⟩
    have hvalid : is_valid_user_buffer ptr 0 = true := rfl
    have hmapped : is_user_range_mapped nodes turns ptr 0 = pure true := rfl
    rw [hpos, sys_write, if_neg (by simp), hvalid, if_neg (by simp), hmapped]
    rfl
  by_cases huser : UserRange ptr len
  · obtain ⟨b, t, F', D', hrun, hl⟩ := rangeMapped_spec h hr hread hpos huser hclean hframes
    have hvalid := validBuffer_in huser
    obtain ⟨h1, h2⟩ := huser
    have hin : ∀ a, ptr ≤ a → a < ptr + len → ptr / FRAME_SIZE * FRAME_SIZE ≤ a ∧
        a < (ptr + len - 1) / FRAME_SIZE * FRAME_SIZE + FRAME_SIZE := by
      intro a
      simp only [FRAME_SIZE]
      omega
    -- A page is covered as a whole, so the buffer is covered when its pages are.
    have hiff : b = true ↔ WriteAccepts s root ptr len := by
      rw [hl.covered]
      constructor
      · refine fun hall => Or.inr ⟨⟨h1, h2⟩, fun a ha ha' => ?_⟩
        obtain ⟨h3, h4⟩ := hin a ha ha'
        exact covered_iff.mp (hall a h3 h4)
      · rintro (h0 | ⟨-, hall⟩) a h3 h4
        · exact absurd h0 hpos
        · obtain ⟨c, hc, hpage⟩ : ∃ c, (ptr ≤ c ∧ c < ptr + len) ∧ c / FRAME_SIZE = a / FRAME_SIZE := by
            refine ⟨if a < ptr then ptr else if a < ptr + len then a else ptr + len - 1, ?_, ?_⟩
            · split_ifs <;> omega
            · simp only [FRAME_SIZE] at *
              split_ifs <;> omega
          rw [expectedByte_isSome hpage.symm]
          exact covered_iff.mpr (hall c hc.1 hc.2)
    cases b with
    | false =>
      have hnot : ¬ WriteAccepts s root ptr len := fun hw => by
        have := hiff.mpr hw
        cases this
      refine ⟨-1, [], t, fun turns ht => ?_, fun hw => absurd hw hnot, fun _ => ⟨rfl, rfl⟩⟩
      rw [sys_write, if_neg (by simp), hvalid, if_neg (by simp), hturns turns ht, Prog.bind_run hrun]
      rfl
    | true =>
      have haccepts := hiff.mp rfl
      have hroot : t.root = root := (hr.congr hl.evolves.regs).root h.root_lt
      have hbyte : ∀ i, i < len → t.userByte root (ptr + i) = s.expectedByte nodes root (ptr + i) := by
        intro i hi
        rw [hl.bytes rfl _ (by omega), if_pos (hin _ (by omega) (by omega))]
      have hsome : ∀ i, i < len → (t.userByte root (ptr + i)).isSome := by
        intro i hi
        obtain ⟨h3, h4⟩ := hin (ptr + i) (by omega) (by omega)
        rw [hbyte i hi]
        exact hl.covered.mp rfl _ h3 h4
      obtain ⟨out, hout, hbytes⟩ := putLoop_run ptr len hroot hsome
      refine ⟨len, out, t, fun turns ht => ?_, fun _ => ⟨rfl, ?_⟩, fun hn => absurd haccepts hn⟩
      · rw [sys_write, if_neg (by simp), hvalid, if_neg (by simp), hturns turns ht, Prog.bind_run hrun,
          if_neg (by simp), Prog.bind_run hout, len_toInt (by omega)]
        rfl
      · rw [hbytes]
        exact List.map_congr_left fun i hi => hbyte i (List.mem_range.mp hi)
  · have hnot : ¬ WriteAccepts s root ptr len := by
      rintro (h0 | ⟨hu, -⟩)
      · exact hpos h0
      · exact huser hu
    refine ⟨-1, [], s, fun turns ht => ?_, fun hw => absurd hw hnot, fun _ => ⟨rfl, rfl⟩⟩
    rw [sys_write, if_neg (by simp), rangeMapped_out hptr hlen hpos huser, pure_bind]
    split_ifs with _ hfalse
    · rfl
    · exact absurd rfl hfalse
    · rfl

end

/-! ## A buffer of the first process -/

theorem write_user_buffer_first : ∃ w P r out t, System.GuardedReachable (worldSystem [bootEntry]) CleanStep w ∧
    w.procs 0 = some P ∧
    (sys_write (fun _ => emptyFile) (2 ^ 35) 1 (508 * FRAME_SIZE) 1).run (w.m.enter 0 P) = some ((r, out), t) ∧
    r = 1 ∧ out.length = 1 := by
  obtain ⟨w, root, d, v, h⟩ := bootMachine_booted.loaded bootMachine_frames
  obtain ⟨F, D, hinv⟩ := worldInv_of_clean h.reach
  obtain ⟨a, b, c, -, hchain⟩ := h.chain
  obtain ⟨entry, hentry, -⟩ := hchain.page
  have hP := hinv.procs 0 _ h.proc
  obtain ⟨hspace, hr, -⟩ := hP.enter
  rw [hP.root_eq rfl] at hspace hr
  generalize hm : w.m.enter 0 ⟨root * FRAME_SIZE, [], 0, 0⟩ = m at hspace hr
  have hpage : m.pageEntry root (508 * FRAME_SIZE / FRAME_SIZE) = some entry := by
    rw [Nat.mul_div_cancel _ (by simp [FRAME_SIZE]), ← hm]
    exact hentry
  have hroot := hr.root hspace.root_lt
  have hturn : 508 * FRAME_SIZE / FRAME_SIZE * FRAME_SIZE = 508 * FRAME_SIZE := by
    simp only [FRAME_SIZE]
  have hone : rangeTurns (508 * FRAME_SIZE) 1 = 1 := by
    simp only [rangeTurns, FRAME_SIZE]
  -- The page is there, so the loop maps nothing.
  have hpresent : ∀ {P : Prop}, m.pageEntry m.root (508 * FRAME_SIZE / FRAME_SIZE) = none → P := by
    intro P hnone
    rw [hroot, hpage] at hnone
    cases hnone
  obtain ⟨-, r, out, t, hrun, haccept, -⟩ := write_user_buffer (fun _ => emptyFile) (508 * FRAME_SIZE) 1
    hspace hr (by simp only [FRAME_SIZE]; omega) (by omega) (fun vme _ _ => emptyFile_delivers)
    (fun _ _ => by rw [hone, hturn]; exact ⟨fun hnone => hpresent hnone, fun _ _ => trivial⟩)
    (fun _ _ => by rw [hone, hturn]; exact ⟨fun hnone => hpresent hnone, fun _ _ => trivial⟩)
  obtain ⟨hr1, hout⟩ := haccept (Or.inr ⟨⟨by simp only [FRAME_SIZE]; omega, by simp only [FRAME_SIZE]; omega⟩,
    fun a h1 h2 => Or.inl (by rw [show a = 508 * FRAME_SIZE by omega, hpage]; rfl)⟩)
  refine ⟨w, _, r, out, t, h.reach, h.proc, ?_, hr1, ?_⟩
  · rw [hm]
    exact hrun _ le_rfl
  · simpa using congrArg List.length hout

/-! ## A page that is not the process's -/

section

variable {entries : List MemmapEntry} {w : World} {m t : Machine} {F D : Set Nat} {r a b c f e : Nat} {l : List Nat}
  {v : Word} {nodes : Nat → BlockIO} {vme : VME}

theorem Ready.fault (nodes : Nat → BlockIO) (h : Ready m r a b c 512 [f] e l v) (hs : Space m F D m.acting r)
    (hact : m.acting = 0)
    (hr : OnRoot m r) (hvme : findVme m.privateVmes (512 * FRAME_SIZE) = some vme) (hnode : vme.node = 0) :
    ∃ t, (ensureMappedPage nodes (512 * FRAME_SIZE)).run m = some (true, t) ∧ HoleFilled t r a b e f v ∧
      t.regs = m.regs := by
  have hva : 512 * FRAME_SIZE < 2 ^ 47 ∧ 512 * FRAME_SIZE / FRAME_SIZE = 512 := by
    rw [FRAME_SIZE]; omega
  have hnone : m.pageEntry r (512 * FRAME_SIZE / FRAME_SIZE) = none := by
    rw [hva.2]
    exact h.hole_none le_rfl (by omega)
  have hlist : FreeList m (f :: e :: l) := h.list
  have hf := hs.pageFrame (alloc_avail hlist)
  have hread : Readable nodes vme := fun hn => absurd hnode hn
  obtain ⟨w, hfillrun, hfill⟩ := fillPage_run (512 * FRAME_SIZE) hf.space.wf.hhdm hf.maps hread
  have hw := hf.fill hfill
  have hout : ∀ g ∈ e :: l, g ≠ f := by
    rintro g hg rfl
    exact (List.nodup_cons.mp hlist.nodup).1 hg
  have hlist' : FreeList w (e :: l) := by
    refine hlist.cons_avail.congr ?_ ?_ ?_ fun g hg => hfill.other g (hout g hg)
    · rw [hfill.state]; rfl
    · rw [hfill.state]; rfl
    · rw [hfill.state]; rfl
  rw [hact] at hs
  obtain ⟨t, hmap, hfilled, hregs⟩ := h.table hs (fun g hg => (hw.other g hg).1) hlist' hw.regs
  rw [← hact] at hs
  refine ⟨t, ?_, hfilled, hregs⟩
  rw [ensureMappedPage_private hs hr hva.1 hnone hvme,
    mapPageFromVme_map hs hr hva.1 hnone (alloc_avail hlist) hfillrun hw, hva.2, hmap]
  rfl

theorem Ready.missing (h : Ready m r a b c 512 [f] e l v) : tablesMissing m 512 3 r = 1 := by
  obtain ⟨h3, h2, h1, -⟩ := vpnIndex_hole (k := 512) le_rfl (by omega)
  obtain ⟨-, hp3, hn3⟩ := Machine.edge_some.mp h.top
  obtain ⟨-, hp2, hn2⟩ := Machine.edge_some.mp h.mid
  simp only [tablesMissing, Nat.zero_add, Nat.reduceAdd, h3, h2, h1, hp3, hn3, hp2, hn2, h.hole, if_true, if_false]

theorem FreeList.two_free (h : FreeList m (f :: e :: l)) (hF : PhysWf m F) : 2 ≤ F.ncard := by
  have hfinite := hF.finite
  obtain ⟨l', hl', hmem⟩ := hF
  obtain rfl := hl'.chain.unique hl'.hhdm h.chain
  have hne : f ≠ e := by
    have := h.nodup
    simp only [List.nodup_cons, List.mem_cons, not_or] at this
    exact this.1.1
  rw [← Set.ncard_pair hne]
  refine Set.ncard_le_ncard ?_ hfinite
  rintro g (rfl | rfl)
  · exact (hmem _).mpr (Or.inl (by simp))
  · exact (hmem _).mpr (Or.inl (by simp))

theorem HoleFilled.next (nodes : Nat → BlockIO) (h : HoleFilled t r a b e f v) (hv : present v) (hh : HhdmOk t)
    (hr : t.root = r)
    (hm : t.maps r ∧ t.maps a ∧ t.maps b ∧ t.maps e) :
    (ensureMappedPage nodes (513 * FRAME_SIZE)).run t = some (true, t) := by
  have hva : 513 * FRAME_SIZE < 2 ^ 47 ∧ 513 * FRAME_SIZE / FRAME_SIZE = 513 := by
    rw [FRAME_SIZE]; omega
  have hpath : ∀ π g, π <+: tablePath (513 * FRAME_SIZE / FRAME_SIZE) 3 → walk t.edge t.root π = some g → t.maps g := by
    intro π g hπ hw
    rw [hva.2, tablePath_hole (by omega) (by omega)] at hπ
    rw [hr] at hw
    obtain ⟨hmr, hma, hmb, hme⟩ := hm
    simp only [List.prefix_cons_iff, List.prefix_nil] at hπ
    obtain rfl | ⟨_, rfl, rfl | ⟨_, rfl, rfl | ⟨_, rfl, rfl⟩⟩⟩ := hπ
    · rwa [← Option.some.inj hw]
    · rw [walk_cons_some h.top] at hw
      rwa [← Option.some.inj hw]
    · rw [walk_cons_some h.top, walk_cons_some h.mid] at hw
      rwa [← Option.some.inj hw]
    · rw [h.path] at hw
      rwa [← Option.some.inj hw]
  unfold ensureMappedPage
  rw [Prog.bind_run (isMapped_path hh (Or.inl hva.1) hpath), hr, hva.2, (h.entries hv).2]
  rfl

/-- Page 512 is in a VME and page 513 is not, but `write` takes a buffer that reaches into it. -/
structure Overread (s : Machine) (F D : Set Nat) (r : Nat) : Prop where
  space : Space s F D s.acting r
  root : OnRoot s r
  frames : RangeTurns (fun _ => emptyFile) FramesLeft (513 * FRAME_SIZE - 1) 2 s
  refused : ¬ WriteAccepts s r (513 * FRAME_SIZE - 1) 2
  run : ∃ out t, (sys_write (fun _ => emptyFile) (2 ^ 35) 1 (513 * FRAME_SIZE - 1) 2).run s = some ((2, out), t)

theorem Armed.overread (h : Armed entries w r a b c 512 [f] e l (mkEntry r tableFlags)) :
    ∃ s F D, Overread s F D r := by
  obtain ⟨m, F, D, hm, hspace, hr, hready, -, -⟩ := h.enter
  have hact : m.acting = 0 := by rw [← hm]; rfl
  let vme : VME := ⟨0x8000, 0x1000, 513 * FRAME_SIZE, false, 0, 0⟩
  generalize hs : ({ m with privateVmes := [vme], sharedVmes := [] } : Machine) = s
  have hvmes : s.privateVmes = [vme] ∧ s.sharedVmes = [] := by rw [← hs]; exact ⟨rfl, rfl⟩
  have hsact : s.acting = 0 := by rw [← hs]; exact hact
  have hmem : s.mem = m.mem := by rw [← hs]
  have hsspace : Space s F D s.acting r := by
    rw [hsact, ← hs]
    exact hspace.congr rfl rfl rfl rfl rfl
  have hsr : OnRoot s r := by rw [← hs]; exact hr
  have hsready : Ready s r a b c 512 [f] e l (mkEntry r tableFlags) := by
    rw [← hs]
    exact hready.congr rfl rfl rfl rfl
  have hfind : findVme s.privateVmes (512 * FRAME_SIZE) = some vme := by
    rw [hvmes.1]
    have h1 : 512 * FRAME_SIZE ≥ 0x1000 := by simp only [FRAME_SIZE]; omega
    have h2 : 512 * FRAME_SIZE < 513 * FRAME_SIZE := by simp only [FRAME_SIZE]; omega
    simp [findVme, vme, h1, h2]
  obtain ⟨t, hfirst, hfilled, hregs⟩ := hsready.fault (fun _ => emptyFile) hsspace hsact hsr hfind rfl
  have hpresent : present (mkEntry r tableFlags) := (present_mkEntry r _).mpr present_tableFlags
  have hroot : s.root = r := hsr.root hsspace.root_lt
  have htroot : t.root = r := (hsr.congr hregs).root hsspace.root_lt
  have hlist : FreeList s (f :: e :: l) := hsready.list
  obtain ⟨haD, hbD, -⟩ := (show Ready s r a b c 512 [f] e l _ from hsready).tables (by rw [← hsact]; exact hsspace)
  have hmaps : ∀ g, s.maps g → t.maps g := fun g => (Machine.maps_congr (Machine.regs_hhdm hregs) g).mpr
  have hsecond := hfilled.next (fun _ => emptyFile) hpresent
    (hsspace.wf.hhdm.congr (Machine.regs_hhdm hregs)) htroot
    ⟨hmaps r (hsspace.owned r hsspace.root_mem).2, hmaps a (hsspace.owned a haD).2, hmaps b (hsspace.owned b hbD).2,
      hmaps e (hlist.mapped e (by simp))⟩
  have hdiv : ∀ k, k * FRAME_SIZE / FRAME_SIZE = k := fun k => Nat.mul_div_cancel _ (by simp [FRAME_SIZE])
  have hfirstPage : (513 * FRAME_SIZE - 1) / FRAME_SIZE = 512 := by simp only [FRAME_SIZE]
  have hlastPage : (513 * FRAME_SIZE - 1 + 2 - 1) / FRAME_SIZE = 513 := by simp only [FRAME_SIZE]
  have hadd : add64 (512 * FRAME_SIZE) FRAME_SIZE = 513 * FRAME_SIZE := by
    unfold add64 FRAME_SIZE
    rfl
  have huser : UserRange (513 * FRAME_SIZE - 1) 2 := by
    constructor <;> (simp only [FRAME_SIZE]; omega)
  have hturns : rangeTurns (513 * FRAME_SIZE - 1) 2 = 2 := by rw [rangeTurns, hlastPage, hfirstPage]
  refine ⟨s, F, D, hsspace, hsr, fun _ _ => ?_, ?_, ?_⟩
  · rw [hturns, hfirstPage]
    refine ⟨fun _ _ _ F' hF' => ?_, fun u hu => ⟨fun hnone => ?_, fun _ _ => trivial⟩⟩
    · rw [hdiv, hroot, hsready.missing]
      exact hlist.two_free hF'
    · rw [hfirst, Option.some.injEq, Prod.mk.injEq] at hu
      obtain ⟨-, rfl⟩ := hu
      rw [hadd, hdiv, htroot, (hfilled.entries hpresent).2] at hnone
      cases hnone
  · rintro (h0 | ⟨-, hall⟩)
    · cases h0
    · rcases hall (513 * FRAME_SIZE) (by omega) (by simp only [FRAME_SIZE]; omega) with hpage | ⟨x, hx, -, hend⟩
      · rw [hdiv, hsready.hole_none (by omega) (by omega)] at hpage
        cases hpage
      · rw [hvmes.1, hvmes.2, List.append_nil, List.mem_singleton] at hx
        subst hx
        rw [hdiv] at hend
        exact absurd hend (lt_irrefl _)
  · have hloop : (is_user_range_mapped (fun _ => emptyFile) (2 ^ 35) (513 * FRAME_SIZE - 1) 2).run s =
        some (true, t) := by
      rw [rangeMapped_in (by omega) huser, hlastPage, hfirstPage,
        pageLoop_turns (k := 1) (by omega) (by simp only [FRAME_SIZE]; omega) (by omega)]
      unfold pageLoop
      rw [Prog.bind_run hfirst, if_neg (by simp), if_neg (by simp only [FRAME_SIZE]; omega), hadd]
      unfold pageLoop
      rw [Prog.bind_run hsecond, if_neg (by simp), if_pos rfl]
      rfl
    obtain ⟨out, hout, -⟩ := putLoop_run (513 * FRAME_SIZE - 1) 2 htroot fun i hi => by
      rw [userByte_isSome]
      obtain ⟨h512, h513⟩ := hfilled.entries hpresent
      rcases Nat.lt_or_ge i 1 with h0 | h1
      · rw [show i = 0 by omega, Nat.add_zero, hfirstPage, h512]
        rfl
      · rw [show (513 * FRAME_SIZE - 1 + i) / FRAME_SIZE = 513 by simp only [FRAME_SIZE]; omega, h513]
        rfl
    refine ⟨out, t, ?_⟩
    rw [sys_write, if_neg (by simp), validBuffer_in huser, if_neg (by simp), Prog.bind_run hloop, if_neg (by simp),
      Prog.bind_run hout]
    rfl

end

/-- A buffer that is to be refused for what its pages are, and whose two bytes are put out. -/
theorem write_overreads : ¬ ∀ (s : Machine) (F D : Set Nat) (root ptr len : Nat) (nodes : Nat → BlockIO),
    Space s F D s.acting root → OnRoot s root → ptr < 2 ^ 64 → len < 2 ^ 64 →
    (∀ vme ∈ s.privateVmes ++ s.sharedVmes, Readable nodes vme) → RangeTurns nodes FramesLeft ptr len s →
    ∃ r out t, (∀ turns, 2 ^ 35 ≤ turns → (sys_write nodes turns 1 ptr len).run s = some ((r, out), t)) ∧
      (WriteAccepts s root ptr len →
        r = len ∧ out.map some = (List.range len).map fun i => s.expectedByte nodes root (ptr + i)) ∧
      (¬ WriteAccepts s root ptr len → r = -1 ∧ out = []) := by
  intro hall
  obtain ⟨w, root, a, b, c, f, e, l, h⟩ := bootMachine_booted.armed bootMachine_frames
  obtain ⟨s, F, D, ho⟩ := h.overread
  obtain ⟨out, t, hrun⟩ := ho.run
  obtain ⟨r, out', t', hrun', -, hrefused⟩ :=
    hall s F D root (513 * FRAME_SIZE - 1) 2 (fun _ => emptyFile) ho.space ho.root
    (by simp only [FRAME_SIZE]; omega) (by omega) (fun _ _ _ => emptyFile_delivers) ho.frames
  rw [hrun' _ le_rfl, Option.some.injEq, Prod.mk.injEq, Prod.mk.injEq] at hrun
  have hr := (hrefused ho.refused).1
  omega

end Kernel
