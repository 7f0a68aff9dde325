import Kernel.Blocking.Opened
import Mathlib.Data.Finset.Card

/-!
# The start of the cores (`barrier.h`, `core_main.cc`)

Nobody leaves a barrier before as many have arrived as it was made for. In
`core_main` every core arrives once, and only then is a thread made. So the
first thread finds all cores set up.
-/

namespace Kernel.Blocking

open Lib Kernel.Thread

section

variable {V C : Type} {K : Gate V C} {k : Nat} {m m' : GateState V C} {c n : Nat} {o : GateOp V C} {v : V} {t : Tid}
  {x : After} {l : List (Tid × C)} {s u : Threads}

/-! ## Arrivals -/

/-- The thread has called, and has released the spin lock for the last time. -/
def GateState.Left (m : GateState V C) (t : Tid) : Prop :=
  m.phase t = .leaving ∨ m.phase t = .none ∧ t ∈ m.calls.map Prod.fst

theorem goto_other {p : GatePhase C} (ht : t ≠ m.current c) : (m.goto c p).phase t = m.phase t :=
  Function.update_of_ne ht _ _

theorem goto_self (p : GatePhase C) : (m.goto c p).phase (m.current c) = p := Function.update_self ..

theorem gate_phase (hs : GateStep K k m (c, o) m') (ht : t ≠ m.current c) : m'.phase t = m.phase t := by
  cases hs with
  | other => rfl
  | _ => exact goto_other ht

theorem Decides.calls (h : Decides K m c x v l) : l = m.calls ∧ v = m.value ∧ x = .wait ∨
    ∃ call, l = m.calls ++ [(m.current c, call)] ∧ K.update call m.value = some v ∧ K.after call v = x ∧
      m.phase (m.current c) = .entered call := by
  cases h with
  | update hp hupdate hafter => exact Or.inr ⟨_, rfl, hupdate, hafter, hp⟩
  | test => exact Or.inl ⟨rfl, rfl, rfl⟩

theorem gate_calls (hs : GateStep K k m (c, o) m') :
    (m'.calls = m.calls ∧ m'.value = m.value ∧ (m'.phase (m.current c) = m.phase (m.current c) ∨
      (m.phase (m.current c) = .leaving ∧ m'.phase (m.current c) = .none) ∨
      (m'.phase (m.current c) ≠ .none ∧ m'.phase (m.current c) ≠ .leaving))) ∨
    ∃ x v l, Decides K m c x v l ∧ m'.value = v ∧ m'.calls = l ∧ m'.phase (m.current c) ≠ .none ∧
      (m'.phase (m.current c) = .leaving → x = .wait → K.is_open v = true) ∧
      (FewCalls K m (c, o) → ∀ call, m.phase (m.current c) = .entered call → K.wraps call m.value = false) := by
  cases hs with
  | notify hd | unlock hd =>
    refine Or.inr ⟨_, _, _, hd, rfl, rfl, ?_, (fun _ h => by cases h), id⟩
    simp [GateState.goto]
  | pass hd hv =>
    refine Or.inr ⟨_, _, _, hd, rfl, rfl, ?_, fun _ _ => hv, id⟩
    simp [GateState.goto]
  | wait hd | retry hd =>
    refine Or.inr ⟨_, _, _, hd, rfl, rfl, ?_, fun h => ?_, id⟩
    · simp [GateState.goto]
    · simp [GateState.goto] at h
  | call hr hp => exact Or.inl ⟨rfl, rfl, Or.inr (Or.inr (by simp [GateState.goto]))⟩
  | ret hr hp => exact Or.inl ⟨rfl, rfl, Or.inr (Or.inl ⟨hp, goto_self _⟩)⟩
  | acquire | relock | lock_again => exact Or.inl ⟨rfl, rfl, Or.inr (Or.inr (by simp [GateState.goto]))⟩
  | other => exact Or.inl ⟨rfl, rfl, Or.inl rfl⟩

theorem left_step (hs : GateStep K k m (c, o) m') (ht : m'.Left t) : m.Left t ∨
    t = m.current c ∧ ∃ x, Decides K m c x m'.value m'.calls ∧ (x = .wait → K.is_open m'.value = true) := by
  by_cases htc : t = m.current c
  · subst htc
    rcases gate_calls hs with ⟨hcalls, -, hown⟩ | ⟨x, v, l, hd, rfl, rfl, hne, hopen, -⟩
    · rw [GateState.Left, hcalls] at ht
      rcases hown with hsame | ⟨hleaving, -⟩ | ⟨hnone, hleaving⟩
      · rw [hsame] at ht
        exact Or.inl ht
      · exact Or.inl (Or.inl hleaving)
      · exact absurd ht (not_or.mpr ⟨hleaving, fun h => hnone h.1⟩)
    · exact Or.inr ⟨rfl, x, hd, hopen (ht.resolve_right fun h => hne h.1)⟩
  · rw [GateState.Left, gate_phase hs htc] at ht
    refine Or.inl (ht.imp_right fun ⟨hp, hmem⟩ => ⟨hp, ?_⟩)
    rcases gate_calls hs with ⟨hcalls, -⟩ | ⟨x, v, l, hd, -, rfl, -⟩
    · rwa [hcalls] at hmem
    · rcases hd.calls with ⟨hl, -⟩ | ⟨call, hl, -⟩
      · rwa [hl] at hmem
      · rw [hl, List.map_append, List.mem_append] at hmem
        exact hmem.resolve_right (by simpa using htc)

end

/-! ## The barrier -/

section

variable {k c j : Nat} {m m' : GateState (BitVec 64) Unit} {n : BitVec 64} {t : Tid} {o : GateOp (BitVec 64) Unit}

structure ArrivedOk (n : BitVec 64) (m : GateState (BitVec 64) Unit) : Prop where
  count : m.value = n - BitVec.ofNat 64 m.calls.length
  left : ∀ t, m.Left t → n.toNat ≤ m.calls.length

theorem ArrivedOk.decides (h : ArrivedOk n m) {x : After} {v : BitVec 64} {l : List (Tid × Unit)}
    (hd : Decides Barrier m c x v l) : v = n - BitVec.ofNat 64 l.length ∧ m.calls.length ≤ l.length := by
  rcases hd.calls with ⟨rfl, rfl, -⟩ | ⟨call, rfl, hupdate, -⟩
  · exact ⟨h.count, Nat.le_refl _⟩
  · have hv : m.value - 1 = v := Option.some.inj hupdate
    rw [← hv, h.count, List.length_append, List.length_singleton]
    refine ⟨?_, Nat.le_succ _⟩
    rw [BitVec.ofNat_add]
    bv_omega

theorem arrived_zero {l : Nat} (h : n - BitVec.ofNat 64 l = 0) : n.toNat ≤ l := by
  have hn : n = BitVec.ofNat 64 l := by bv_omega
  rw [hn, BitVec.toNat_ofNat]
  exact Nat.mod_le _ _

theorem ArrivedOk.step (h : ArrivedOk n m) {a : Nat × GateOp (BitVec 64) Unit} (hs : GateStep Barrier k m a m') :
    ArrivedOk n m' := by
  obtain ⟨c, o⟩ := a
  have hgrow : m'.value = n - BitVec.ofNat 64 m'.calls.length ∧ m.calls.length ≤ m'.calls.length := by
    rcases gate_calls hs with ⟨hcalls, hvalue, -⟩ | ⟨x, v, l, hd, rfl, rfl, -⟩
    · rw [hcalls, hvalue]
      exact ⟨h.count, Nat.le_refl _⟩
    · exact h.decides hd
  refine ⟨hgrow.1, fun t ht => ?_⟩
  rcases left_step hs ht with hleft | ⟨-, x, hd, hopen⟩
  · exact Nat.le_trans (h.left t hleft) hgrow.2
  · have hzero : m'.value = 0 := by
      cases x with
      | wait => exact beq_iff_eq.mp (hopen rfl)
      | notify | unlock =>
        rcases hd.calls with ⟨-, -, hx⟩ | ⟨call, -, -, hx, -⟩
        · cases hx
        · by_contra hne
          rw [show Barrier.after call m'.value = .wait from if_neg hne] at hx
          cases hx
    rw [hgrow.1] at hzero
    exact arrived_zero hzero

theorem arrivedOk_inductive : System.Inductive (gateSystem Barrier k n) (ArrivedOk n) where
  init m h := by
    refine ⟨?_, fun t ht => ?_⟩
    · rw [h.value, h.calls]
      simp
    · rw [GateState.Left, h.phase, h.calls] at ht
      simp at ht
  step _ _ _ h hs := ArrivedOk.step h hs

end

/-! ## The first thread -/

section

variable {s u : Threads} {c : Nat} {o : Op} {t : Tid}

/-- There is a thread, or there is about to be one. -/
def Started (s : Threads) : Prop := (∃ j, s.Alive j) ∨ ∃ t, s.making t ≠ .none

theorem making_step (h : ThreadsOk s) (hs : ThreadStep s (c, o) u) (hu : u.making t ≠ .none) :
    s.making t ≠ .none ∨ t = s.current c ∧ (o = .make_thread ∨ ∃ n, s.current c = .thread n) := by
  cases hs with
  | switch =>
    simp only [Threads.making, Threads.context_switch, Threads.modCore_tcb, Threads.modTcb_tcb] at *
    grind -linarith
  | make_alloc hr hm hre hdead =>
    have htcb := h.alloc_tcb hr.current hdead true
    grind -linarith [TCB.alloc, Threads.making, hr.current]
  | fork_alloc hr hdead =>
    have htcb := h.alloc_tcb hr.current hdead false
    grind -linarith [TCB.alloc, Threads.making, hr.current]
  | publish hr hm =>
    have htcb := h.publish_tcb hr.current hm
    grind -linarith [Threads.making]
  | make_thread hr => grind -linarith [Threads.making, hr.current]
  | _ => exact Or.inl (by grind -linarith [Threads.making, TCB.disable_preemption, TCB.enable_preemption])

theorem started_step (h : ThreadsOk s) (hs : ThreadStep s (c, o) u) (hu : Started u) :
    Started s ∨ o = .make_thread ∧ s.current c = .idle c := by
  have hmaking : ∀ t, u.making t ≠ .none → Started s ∨ o = .make_thread ∧ s.current c = .idle c := by
    intro t ht
    rcases making_step h hs ht with hold | ⟨-, ho⟩
    · exact Or.inl (Or.inr ⟨t, hold⟩)
    · cases hcur : s.current c with
      | thread n => exact Or.inl (Or.inl ⟨n, h.runs_alive hcur⟩)
      | idle d =>
        obtain rfl := (h.core c).own d hcur
        refine Or.inr ⟨ho.resolve_right fun ⟨n, hn⟩ => ?_, rfl⟩
        rw [hcur] at hn
        cases hn
  rcases hu with ⟨j, hj⟩ | ⟨t, ht⟩
  · by_cases hmade : ∃ t, j ∈ u.cell (.creator t)
    · obtain ⟨t, hmem⟩ := hmade
      obtain ⟨b, hb⟩ := Threads.mem_creator.mp hmem
      exact hmaking t (by simp [hb])
    · exact Or.inl (Or.inl ⟨j, step_alive hs hj fun t ht => hmade ⟨t, ht⟩⟩)
  · exact hmaking t ht

end

/-! ## The start of the cores -/

section

variable {k c : Nat} {core_count : BitVec 64} {m m' : GateState (BitVec 64) Unit} {t : Tid}
  {o : GateOp (BitVec 64) Unit}

/-- `core_main` on each of the cores: its idle thread calls `sync` once, and makes no thread before it is through.
Nobody else calls it. -/
def CoreMain (core_count : BitVec 64) (m : GateState (BitVec 64) Unit) : Nat × GateOp (BitVec 64) Unit → Prop
  | (c, .call _) => c < core_count.toNat ∧ m.current c = .idle c ∧ .idle c ∉ m.calls.map Prod.fst
  | (c, .other .make_thread) => m.current c = .idle c → m.Left (.idle c)
  | _ => True

structure StartOk (core_count : BitVec 64) (m : GateState (BitVec 64) Unit) : Prop where
  threads : ThreadsOk m.threads
  arrived : ArrivedOk core_count m
  /-- A thread on its way to the barrier is the idle thread of one of the cores, and has not arrived yet. -/
  coming : ∀ t call, m.phase t = .acquire call ∨ m.phase t = .entered call →
    (∃ c < core_count.toNat, t = .idle c) ∧ t ∉ m.calls.map Prod.fst
  cores : ∀ t ∈ m.calls.map Prod.fst, ∃ c < core_count.toNat, t = .idle c
  once : (m.calls.map Prod.fst).Nodup
  started : Started m.threads → core_count.toNat ≤ m.calls.length

theorem gate_threads {V C : Type} {K : Gate V C} {m m' : GateState V C} {o : GateOp V C}
    (hs : GateStep K k m (c, o) m') :
    m'.threads = m.threads ∨ ∃ o', ThreadStep m.threads (c, o') m'.threads ∧
      (o' = .make_thread → o = .other .make_thread) := by
  cases hs with
  | call | ret => exact Or.inl rfl
  | acquire _ hs | relock _ hs | lock_again _ hs | notify _ hs | unlock _ hs => exact Or.inr ⟨_, hs, by simp⟩
  | pass _ _ hs | wait _ _ hs | retry _ _ _ hs => exact Or.inr ⟨_, hs, by simp⟩
  | other _ _ hs => exact Or.inr ⟨_, hs, fun h => by rw [h]⟩

theorem coming_step {V C : Type} {K : Gate V C} {m m' : GateState V C} {o : GateOp V C} {call : C}
    (hs : GateStep K k m (c, o) m') (hp : m'.phase t = .acquire call ∨ m'.phase t = .entered call) :
    (m'.calls = m.calls ∨ t ≠ m.current c) ∧ (m.phase t = .acquire call ∨ m.phase t = .entered call ∨
      o = .call call ∧ t = m.current c) := by
  by_cases ht : t = m.current c
  · subst ht
    cases hs with
    | call =>
      refine ⟨Or.inl rfl, Or.inr (Or.inr ⟨congrArg GateOp.call ?_, rfl⟩)⟩
      simpa [GateState.goto, eq_comm] using hp
    | acquire ha => exact ⟨Or.inl rfl, Or.inl (by rw [ha]; simpa [GateState.goto] using hp)⟩
    | other => exact ⟨Or.inl rfl, hp.imp_right Or.inl⟩
    | _ => simp [GateState.goto] at hp
  · rw [gate_phase hs ht] at hp
    exact ⟨Or.inr ht, hp.imp_right Or.inl⟩

theorem StartOk.called (h : StartOk core_count m) {c : Nat} {o : GateOp (BitVec 64) Unit}
    (hs : GateStep Barrier k m (c, o) m') :
    m'.calls = m.calls ∨ ∃ call, m'.calls = m.calls ++ [(m.current c, call)] ∧
      (∃ d < core_count.toNat, m.current c = .idle d) ∧ m.current c ∉ m.calls.map Prod.fst := by
  rcases gate_calls hs with ⟨hsame, -⟩ | ⟨x, v, l, hd, -, rfl, -⟩
  · exact Or.inl hsame
  · rcases hd.calls with ⟨hsame, -⟩ | ⟨call, hgrown, -, -, hp⟩
    · exact Or.inl hsame
    · exact Or.inr ⟨call, hgrown, h.coming _ call (Or.inr hp)⟩

theorem StartOk.step (h : StartOk core_count m) {a : Nat × GateOp (BitVec 64) Unit} (hmain : CoreMain core_count m a)
    (hs : GateStep Barrier k m a m') : StartOk core_count m' := by
  obtain ⟨c, o⟩ := a
  have harrived := h.arrived.step hs
  have hcalls := h.called hs
  have hlength : m.calls.length ≤ m'.calls.length := by
    rcases hcalls with hsame | ⟨call, hgrown, -⟩
    · rw [hsame]
    · rw [hgrown, List.length_append]
      exact Nat.le_add_right _ _
  refine ⟨?_, harrived, fun t call hp => ?_, fun t ht => ?_, ?_, fun hstarted => ?_⟩
  · rcases gate_threads hs with hsame | ⟨o', hstep, -⟩
    · rw [hsame]
      exact h.threads
    · exact h.threads.step hstep
  · obtain ⟨hother, hp⟩ := coming_step hs hp
    have hold : (∃ d < core_count.toNat, t = .idle d) ∧ t ∉ m.calls.map Prod.fst := by
      rcases hp with hp | hp | ⟨rfl, rfl⟩
      · exact h.coming t call (Or.inl hp)
      · exact h.coming t call (Or.inr hp)
      · obtain ⟨hc, hcur, hnot⟩ := hmain
        rw [hcur]
        exact ⟨⟨c, hc, rfl⟩, hnot⟩
    refine ⟨hold.1, fun hmem => ?_⟩
    rcases hcalls with hsame | ⟨call', hgrown, -⟩
    · exact hold.2 (hsame ▸ hmem)
    · rw [hgrown, List.map_append, List.mem_append] at hmem
      have htc : t = m.current c := by simpa using hmem.resolve_left hold.2
      refine hother.elim (fun hsame => ?_) fun hne => hne htc
      have hlen := congrArg List.length (hsame.symm.trans hgrown)
      simp at hlen
  · rcases hcalls with hsame | ⟨call, hgrown, hcore, -⟩
    · exact h.cores t (hsame ▸ ht)
    · rw [hgrown, List.map_append, List.mem_append] at ht
      rcases ht with ht | ht
      · exact h.cores t ht
      · obtain rfl : t = m.current c := by simpa using ht
        exact hcore
  · rcases hcalls with hsame | ⟨call, hgrown, -, hnot⟩
    · rw [hsame]
      exact h.once
    · rw [hgrown, List.map_append]
      exact List.Nodup.append h.once (List.nodup_singleton _) (by simpa using hnot)
  · refine Nat.le_trans ?_ hlength
    rcases gate_threads hs with hsame | ⟨o', hstep, ho⟩
    · exact h.started (hsame ▸ hstarted)
    · rcases started_step h.threads hstep hstarted with hold | ⟨rfl, hcur⟩
      · exact h.started hold
      · -- The idle thread is through the barrier.
        rw [ho rfl] at hmain
        exact h.arrived.left _ (hmain hcur)

theorem startOk_of_guarded (h : (gateSystem Barrier k core_count).GuardedReachable (CoreMain core_count) m) :
    StartOk core_count m := by
  obtain ⟨m₀, l, hnew, hrun⟩ := h
  refine hrun.preserves (fun _ _ _ h hmain hs => h.step hmain hs) ⟨threadsOk_booted hnew.threads,
    arrivedOk_inductive.init _ hnew, fun t call hp => ?_, ?_, ?_, ?_⟩
  · rw [hnew.phase] at hp
    rcases hp with hp | hp <;> cases hp
  · rw [hnew.calls]
    simp
  · rw [hnew.calls]
    exact List.nodup_nil
  · rintro (⟨j, hj⟩ | ⟨t, ht⟩)
    · rw [Threads.Alive, (hnew.threads.alive j).1] at hj
      cases hj
    · exact absurd (hnew.threads.tcb t).2.1 ht

/-- **The start.** When there is a thread, `core_main` of every core has arrived at the barrier. -/
theorem first_thread_finds_all_cores
    (h : (gateSystem Barrier k core_count).GuardedReachable (CoreMain core_count) m) {j : Nat}
    (hj : m.threads.alive j = true) : ∀ c < core_count.toNat, .idle c ∈ m.calls.map Prod.fst := by
  have hok := startOk_of_guarded h
  have hlen := hok.started (Or.inl ⟨j, hj⟩)
  have hsub : (m.calls.map Prod.fst).toFinset ⊆ (Finset.range core_count.toNat).image Tid.idle := by
    intro t ht
    obtain ⟨c, hc, rfl⟩ := hok.cores t (List.mem_toFinset.mp ht)
    exact Finset.mem_image_of_mem _ (Finset.mem_range.mpr hc)
  have hcard : ((Finset.range core_count.toNat).image Tid.idle).card ≤ (m.calls.map Prod.fst).toFinset.card := by
    rw [List.toFinset_card_of_nodup hok.once, List.length_map]
    exact Nat.le_trans Finset.card_image_le (by rw [Finset.card_range]; exact hlen)
  intro c hc
  have hmem : Tid.idle c ∈ (Finset.range core_count.toNat).image Tid.idle :=
    Finset.mem_image_of_mem _ (Finset.mem_range.mpr hc)
  rw [← Finset.eq_of_subset_of_card_le hsub hcard] at hmem
  exact List.mem_toFinset.mp hmem

theorem start_step {a : Nat × GateOp (BitVec 64) Unit}
    (h : (gateSystem Barrier k core_count).GuardedReachable (CoreMain core_count) m) (hs : GateStep Barrier k m a m')
    (hmain : CoreMain core_count m a) : (gateSystem Barrier k core_count).GuardedReachable (CoreMain core_count) m' :=
  h.step hmain hs

theorem two_cores_start : ∃ m : GateState (BitVec 64) Unit, m.threads.alive 0 = true ∧
    ∀ c < (2 : BitVec 64).toNat, .idle c ∈ m.calls.map Prod.fst := by
  have h : (gateSystem Barrier 0 2).GuardedReachable (CoreMain 2) ⟨boot, 2, fun _ => .none, []⟩ :=
    ⟨_, [], ⟨⟨fun _ => rfl, fun _ => rfl, fun _ => rfl, fun _ => ⟨rfl, rfl, rfl, rfl⟩, rfl, rfl, rfl,
      fun _ => ⟨rfl, rfl⟩⟩, rfl, fun _ => rfl, rfl⟩, .nil _⟩
  have h := start_step h (.call (c := 0) (x := ()) ⟨rfl, rfl, rfl, rfl⟩ rfl) ⟨by decide, rfl, by simp⟩
  have h := start_step h (.acquire (c := 0) rfl (.lock ⟨rfl, rfl, rfl, rfl⟩ rfl)) trivial
  have h := start_step h (.retry (c := 0) (v := 1) (.update rfl rfl rfl) rfl rfl
    (.unlock ⟨rfl, rfl, rfl, rfl⟩ rfl)) trivial
  have h := start_step h (.call (c := 1) (x := ()) ⟨rfl, rfl, rfl, rfl⟩ rfl) ⟨by decide, rfl, by decide⟩
  have h := start_step h (.acquire (c := 1) rfl (.lock ⟨rfl, rfl, rfl, rfl⟩ rfl)) trivial
  have h := start_step h (.notify (c := 1) (v := 0) (.update rfl rfl rfl)
    (.notify_all ⟨rfl, rfl, rfl, rfl⟩ rfl)) trivial
  have h := start_step h (.lock_again (c := 0) rfl (.lock ⟨rfl, rfl, rfl, rfl⟩ rfl)) trivial
  have h := start_step h (.pass (c := 0) (.test rfl) rfl (.unlock ⟨rfl, rfl, rfl, rfl⟩ rfl)) trivial
  have h := start_step h (.ret (c := 0) ⟨rfl, rfl, rfl, rfl⟩ rfl) trivial
  have h := start_step h (.other (c := 0) (o := .make_thread) (by constructor <;> simp) (Or.inl rfl)
    (.make_thread ⟨⟨rfl, rfl, rfl, rfl⟩, rfl, rfl⟩)) fun _ => Or.inr ⟨rfl, by decide⟩
  have h := start_step h (.other (c := 0) (o := .make_alloc 0) (by constructor <;> simp) (Or.inl rfl)
    (.make_alloc (n := 0) (t := .idle 0) ⟨rfl, rfl, rfl, rfl⟩ rfl rfl rfl)) trivial
  exact ⟨_, rfl, first_thread_finds_all_cores (j := 0) h rfl⟩

end

end Kernel.Blocking
