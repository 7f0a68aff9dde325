import Kernel.Thread.ContextSwitch

/-!
# What a context switch keeps

A suspended thread has on its stack what `restore` needs, whatever the other
cores and threads do in the meantime.
-/

namespace Kernel.ContextSwitch

open Lib Lib.X86

variable {κ : Type}

/-! ## The invariant -/

section

variable (s : Threads κ)

/-- The quadwords from `a` on, on the stack of `p`, are those of `l`. -/
structure OnStack (p : Quad) (a : Nat) (l : List Quad) : Prop where
  stacked : Stacked s.mem a l
  low : (s.stack p).lo ≤ a
  high : a + 8 * l.length ≤ (s.stack p).hi

/-- A switch to `p` gives it its context. -/
def Parked (p : Quad) : Prop :=
  ∃ l, OnStack s p (s.mem (saved_rsp p)).toNat l ∧ Restores (s.context p) (s.mem (saved_rsp p)) l

/-- How far a core is in `context_switch_`. -/
inductive Phase (c : κ) : Prop where
  | work : s.todo c = [] → s.place (s.current c) = .running c → (∀ p, s.place p ≠ .claimed c) → Phase c
  | save {is : List Instr} {l l' : List Quad} {k' : Core} : is <:+ save →
      s.todo c = is ++ .store .fs 8 .rsp :: .wrfsbase .rdi :: .load .rsp .fs 8 :: restore →
      s.current c = s.prev c → s.place (s.prev c) = .running c → OnStack s (s.prev c) ((s.core c).reg .rsp).toNat l →
      (s.stack (s.prev c)).lo + 8 * depth is ≤ ((s.core c).reg .rsp).toNat →
      runL is (s.core c, l) = some (k', l') → Restores (s.context (s.prev c)) (k'.reg .rsp) l' →
      k'.reg .rax = s.prev c → k'.reg .rdi = s.next c → ¬ k'.rflags.interrupts → s.place (s.next c) = .claimed c →
      Parked s (s.next c) → Phase c
  | stored : s.todo c = .wrfsbase .rdi :: .load .rsp .fs 8 :: restore → (∀ p, s.place p ≠ .running c) →
      ¬ (s.core c).rflags.interrupts →
      (s.core c).reg .rax = s.prev c → (s.core c).reg .rdi = s.next c → s.place (s.next c) = .claimed c →
      Parked s (s.next c) → Phase c
  | based : s.todo c = .load .rsp .fs 8 :: restore → (∀ p, s.place p ≠ .running c) →
      ¬ (s.core c).rflags.interrupts → (s.core c).reg .rax = s.prev c → s.current c = s.next c →
      s.place (s.next c) = .claimed c → Parked s (s.next c) → Phase c
  | restore {is : List Instr} {l : List Quad} {k' : Core} : is <:+ restore → is ≠ [] → s.todo c = is →
      (∀ p, s.place p ≠ .running c) → s.current c = s.next c → s.place (s.next c) = .claimed c →
      OnStack s (s.next c) ((s.core c).reg .rsp).toNat l → runL is (s.core c, l) = some (k', []) →
      Resumed (s.context (s.next c)) (s.prev c) k' → Phase c

structure CoreInv (c : κ) : Prop where
  running : ∀ p, s.place p = .running c → s.current c = p
  claimed : ∀ p, s.place p = .claimed c → s.next c = p
  phase : Phase s c

structure SwitchInv : Prop where
  layout : Layout s
  parked : ∀ p, s.place p = .suspended → Parked s p
  cores : ∀ c, CoreInv s c

end

section

variable {s t : Threads κ} {c d : κ} {p q : Quad} {a : Nat} {l : List Quad}

/-- A step that leaves a thread alone. -/
structure Kept (s t : Threads κ) (q : Quad) : Prop where
  stack : t.stack q = s.stack q
  context : t.context q = s.context q
  mem : ∀ a, a ∈ s.stack q ∨ a = saved_rsp q → t.mem a = s.mem a

/-- A step that leaves a core alone. -/
structure Aside (s t : Threads κ) (d : κ) : Prop where
  core : t.core d = s.core d
  todo : t.todo d = s.todo d
  prev : t.prev d = s.prev d
  next : t.next d = s.next d
  running : ∀ q, t.place q = .running d ↔ s.place q = .running d
  claimed : ∀ q, t.place q = .claimed d ↔ s.place q = .claimed d
  kept : ∀ q, s.place q = .running d ∨ s.place q = .claimed d → Kept s t q

theorem OnStack.kept (h : OnStack s q a l) (hk : Kept s t q) : OnStack t q a l := by
  have hlow := h.low
  have hhigh := h.high
  refine ⟨h.stacked.congr fun b hb hlt => hk.mem b (Or.inl ?_), ?_, ?_⟩
  · rw [Stack.mem_iff]
    omega
  · rwa [hk.stack]
  · rwa [hk.stack]

theorem Parked.kept (h : Parked s q) (hk : Kept s t q) : Parked t q := by
  obtain ⟨l, hl, hr⟩ := h
  rw [Parked, hk.mem _ (Or.inr rfl), hk.context]
  exact ⟨l, hl.kept hk, hr⟩

theorem Phase.aside (h : Phase s d) (ha : Aside s t d) : Phase t d := by
  have hcurrent : t.current d = s.current d := congrArg Core.fsbase ha.core
  have hfree : (∀ p, s.place p ≠ .running d) → ∀ p, t.place p ≠ .running d := fun h p hp => h p ((ha.running p).1 hp)
  cases h with
  | work htodo hp hfr =>
    refine .work (ha.todo.trans htodo) ?_ fun p hp => hfr p ((ha.claimed p).1 hp)
    rw [hcurrent]
    exact (ha.running _).2 hp
  | save his htodo hcur hp hst hroom hrun hres hrax hrdi hif hnext hpark =>
    have hk := ha.kept _ (Or.inl hp)
    refine .save his (ha.todo.trans htodo) ?_ ?_ (l := _) ?_ ?_ (by rw [ha.core]; exact hrun) ?_ ?_ ?_ ?_ ?_ ?_
    · rw [hcurrent, ha.prev, hcur]
    · rw [ha.prev]
      exact (ha.running _).2 hp
    · rw [ha.prev, ha.core]
      exact hst.kept hk
    · rw [ha.prev, ha.core, hk.stack]
      exact hroom
    · rw [ha.prev, hk.context]
      exact hres
    · rw [ha.prev, hrax]
    · rw [ha.next, hrdi]
    · exact hif
    · rw [ha.next]
      exact (ha.claimed _).2 hnext
    · rw [ha.next]
      exact hpark.kept (ha.kept _ (Or.inr hnext))
  | stored htodo hfr hif hrax hrdi hnext hpark =>
    refine .stored (ha.todo.trans htodo) (hfree hfr) (by rwa [ha.core]) ?_ ?_ ?_ ?_
    · rw [ha.core, ha.prev, hrax]
    · rw [ha.core, ha.next, hrdi]
    · rw [ha.next]
      exact (ha.claimed _).2 hnext
    · rw [ha.next]
      exact hpark.kept (ha.kept _ (Or.inr hnext))
  | based htodo hfr hif hrax hcur hnext hpark =>
    refine .based (ha.todo.trans htodo) (hfree hfr) (by rwa [ha.core]) ?_ ?_ ?_ ?_
    · rw [ha.core, ha.prev, hrax]
    · rw [hcurrent, ha.next, hcur]
    · rw [ha.next]
      exact (ha.claimed _).2 hnext
    · rw [ha.next]
      exact hpark.kept (ha.kept _ (Or.inr hnext))
  | restore his hne htodo hfr hcur hnext hst hrun hres =>
    have hk := ha.kept _ (Or.inr hnext)
    refine .restore his hne (ha.todo.trans htodo) (hfree hfr) ?_ ?_ (l := _) ?_ (by rw [ha.core]; exact hrun) ?_
    · rw [hcurrent, ha.next, hcur]
    · rw [ha.next]
      exact (ha.claimed _).2 hnext
    · rw [ha.next, ha.core]
      exact hst.kept hk
    · rw [ha.next, ha.prev, hk.context]
      exact hres

theorem CoreInv.aside (h : CoreInv s d) (ha : Aside s t d) : CoreInv t d where
  running p hp := (congrArg Core.fsbase ha.core).trans (h.running p ((ha.running p).1 hp))
  claimed p hp := ha.next.trans (h.claimed p ((ha.claimed p).1 hp))
  phase := h.phase.aside ha

end

/-! ## The steps -/

section

variable {s t : Threads κ} {c d : κ} {p q : Quad}

theorem Kept.of_own (hl : Layout s) (hp : s.Alive p) (hq : s.Alive q) (hne : q ≠ p) (hstack : t.stack q = s.stack q)
    (hcontext : t.context q = s.context q) (hm : ∀ a, a ∉ s.stack p → a ≠ saved_rsp p → t.mem a = s.mem a) :
    Kept s t q := by
  refine ⟨hstack, hcontext, fun a ha => ?_⟩
  rcases ha with ha | rfl
  · refine hm a (fun hap => hl.apart q p a hq hp hne ha hap) ?_
    rintro rfl
    exact hl.slots p q hp hq ha
  · exact hm _ (hl.slots q p hq hp) fun heq => hne (saved_rsp_inj heq)

theorem OwnStack.kept {m : Mem} (h : OwnStack s p m) (hq : s.Alive q) (hne : q ≠ p) (hstack : t.stack q = s.stack q)
    (hcontext : t.context q = s.context q) (hm : t.mem = m) : Kept s t q := by
  refine ⟨hstack, hcontext, fun a ha => ?_⟩
  rw [hm]
  rcases ha with ha | rfl
  · exact h.stack q a hq hne ha
  · exact h.saved q hq

theorem Kept.of_mem (hstack : t.stack q = s.stack q) (hcontext : t.context q = s.context q) (hm : t.mem = s.mem) :
    Kept s t q := ⟨hstack, hcontext, fun _ _ => congrFun hm _⟩

theorem Layout.mono (h : Layout s) (hstack : t.stack = s.stack) (halive : ∀ p, t.Alive p → s.Alive p) : Layout t := by
  refine ⟨fun p hp => ?_, fun p q a hp hq => ?_, fun p q hp hq => ?_⟩ <;> rw [hstack]
  · exact h.fits p (halive p hp)
  · exact h.apart p q a (halive p hp) (halive q hq)
  · exact h.slots p q (halive p hp) (halive q hq)

theorem alive_of_eq {x : Place κ} (h : s.place p = x) (hx : x ≠ .absent) : s.Alive p := by
  rwa [Threads.Alive, h]

theorem Phase.of_idle (h : Phase s c) (htodo : s.todo c = []) :
    s.place (s.current c) = .running c ∧ ∀ p, s.place p ≠ .claimed c := by
  cases h with
  | work _ hp hfr => exact ⟨hp, hfr⟩
  | save _ h => simp [htodo] at h
  | stored h => simp [htodo] at h
  | based h => simp [htodo] at h
  | restore _ hne h => exact absurd (h.symm.trans htodo) hne

variable [DecidableEq κ]

theorem SwitchInv.work (h : SwitchInv s) {k : Core} {m : Mem} (htodo : s.todo c = []) (hk : k.fsbase = s.current c)
    (hown : OwnStack s (s.current c) m) : SwitchInv { s with core := Function.update s.core c k, mem := m } := by
  obtain ⟨hplace, hfree⟩ := (h.cores c).phase.of_idle htodo
  have hkept : ∀ q x, s.place q = x → x ≠ .absent → x ≠ .running c →
      Kept s { s with core := Function.update s.core c k, mem := m } q := by
    rintro q x rfl habs hrun
    refine hown.kept habs ?_ rfl rfl rfl
    rintro rfl
    exact hrun hplace
  refine ⟨h.layout.mono rfl fun _ hp => hp, fun q hq => (h.parked q hq).kept (hkept q _ hq (by simp) (by simp)),
    fun d => ?_⟩
  by_cases hd : d = c
  · subst hd
    have hcur : Threads.current { s with core := Function.update s.core d k, mem := m } d = s.current d := by
      simp only [Threads.current, Function.update_self]
      exact hk
    refine ⟨fun p hp => hcur.trans ((h.cores d).running p hp), (h.cores d).claimed, .work htodo ?_ hfree⟩
    rw [hcur]
    exact hplace
  · refine (h.cores d).aside ⟨Function.update_of_ne hd .., rfl, rfl, rfl, fun _ => Iff.rfl, fun _ => Iff.rfl, ?_⟩
    rintro q (hq | hq)
    · exact hkept q _ hq (by simp) (by simp [hd])
    · exact hkept q _ hq (by simp) (by simp)

theorem call_place (ra : Quad) (q : Quad) :
    (s.call c ra).place q = if q = (s.core c).reg .rdi then .claimed c else s.place q := Function.update_apply ..

theorem call_same (hnext : s.place ((s.core c).reg .rdi) = .suspended) (ra : Quad) (q : Quad) {x : Place κ}
    (hs : x ≠ .suspended) (hc : x ≠ .claimed c) : (s.call c ra).place q = x ↔ s.place q = x := by
  rw [call_place]
  split_ifs with hq
  · rw [hq, hnext]
    exact ⟨fun h => absurd h.symm hc, fun h => absurd h.symm hs⟩
  · rfl

omit [DecidableEq κ] in
theorem below_rsp (hroom : (s.stack (s.current c)).lo + 80 ≤ ((s.core c).reg .rsp).toNat) :
    ((s.core c).reg .rsp - 8).toNat = ((s.core c).reg .rsp).toNat - 8 := by
  bv_omega

theorem SwitchInv.call_kept (h : SwitchInv s) (ra : Quad) (hplace : s.place (s.current c) = .running c)
    (hroom : (s.stack (s.current c)).lo + 80 ≤ ((s.core c).reg .rsp).toNat)
    (hhi : ((s.core c).reg .rsp).toNat ≤ (s.stack (s.current c)).hi) (habs : s.place q ≠ .absent)
    (hrun : s.place q ≠ .running c) : Kept s (s.call c ra) q := by
  have hne : q ≠ s.current c := by
    rintro rfl
    exact hrun hplace
  refine .of_own h.layout (alive_of_eq hplace (by simp)) habs hne rfl (Function.update_of_ne hne ..) fun a ha _ => ?_
  refine Function.update_of_ne ?_ ..
  rintro rfl
  refine ha ?_
  rw [Stack.mem_iff, below_rsp hroom]
  omega

theorem SwitchInv.call_phase (h : SwitchInv s) (ra : Quad) (hplace : s.place (s.current c) = .running c)
    (hnext : s.place ((s.core c).reg .rdi) = .suspended)
    (hroom : (s.stack (s.current c)).lo + 80 ≤ ((s.core c).reg .rsp).toNat)
    (hhi : ((s.core c).reg .rsp).toNat ≤ (s.stack (s.current c)).hi) : Phase (s.call c ra) c := by
  have hsub := below_rsp hroom
  have hcore : (s.call c ra).core c = (s.core c).setReg .rsp ((s.core c).reg .rsp - 8) := Function.update_self ..
  have hprev : (s.call c ra).prev c = s.current c := Function.update_self ..
  have hnxt : (s.call c ra).next c = (s.core c).reg .rdi := Function.update_self ..
  have hcur : (s.call c ra).current c = s.current c := by
    rw [Threads.current, hcore]
    rfl
  obtain ⟨k', l', hrun, hres, hrax, hrdi, hif⟩ := save_runL (s.core c) ra
  refine .save (List.suffix_refl _) (l := [ra]) (Function.update_self ..) (hcur.trans hprev.symm) ?_ ?_ ?_
    (by rw [hcore]; exact hrun) ?_ (hrax.trans hprev.symm) (hrdi.trans hnxt.symm) hif ?_ ?_
  · rw [hprev]
    exact (call_same hnext ra _ (by simp) (by simp)).2 hplace
  · rw [hprev, hcore]
    simp only [Core.setReg_reg, Function.update_self, hsub]
    refine ⟨⟨?_, trivial⟩, ?_, ?_⟩
    · rw [← hsub]
      exact Function.update_self ..
    · change (s.stack _).lo ≤ _
      omega
    · change _ ≤ (s.stack _).hi
      simp only [List.length_singleton]
      omega
  · rw [hprev, hcore]
    simp only [Core.setReg_reg, Function.update_self, hsub]
    change (s.stack _).lo + 72 ≤ _
    omega
  · rw [hprev, show (s.call c ra).context (s.current c) = .called (s.core c) ra from Function.update_self ..]
    exact hres
  · rw [hnxt, call_place, if_pos rfl]
  · rw [hnxt]
    exact (h.parked _ hnext).kept (h.call_kept ra hplace hroom hhi (by simp [hnext]) (by simp [hnext]))

theorem SwitchInv.call (h : SwitchInv s) {ra : Quad} (htodo : s.todo c = [])
    (hnext : s.place ((s.core c).reg .rdi) = .suspended)
    (hroom : (s.stack (s.current c)).lo + 80 ≤ ((s.core c).reg .rsp).toNat)
    (hhi : ((s.core c).reg .rsp).toNat ≤ (s.stack (s.current c)).hi) : SwitchInv (s.call c ra) := by
  obtain ⟨hplace, hfree⟩ := (h.cores c).phase.of_idle htodo
  have hkept := fun q => h.call_kept (q := q) ra hplace hroom hhi
  have hsame := fun q (x : Place κ) hs hc => call_same (x := x) hnext ra q hs hc
  refine ⟨h.layout.mono rfl fun p hp habs => hp ((hsame p _ (by simp) (by simp)).2 habs), fun q hq => ?_, fun d => ?_⟩
  · rw [call_place] at hq
    split_ifs at hq
    exact (h.parked q hq).kept (hkept q (by simp [hq]) (by simp [hq]))
  by_cases hd : d = c
  · subst hd
    refine ⟨fun p hp => ?_, fun p hp => ?_, h.call_phase ra hplace hnext hroom hhi⟩
    · have hcore : (s.call d ra).core d = (s.core d).setReg .rsp ((s.core d).reg .rsp - 8) := Function.update_self ..
      have hcur : (s.call d ra).current d = s.current d := by
        rw [Threads.current, hcore]
        rfl
      exact hcur.trans ((h.cores d).running p ((hsame p _ (by simp) (by simp)).1 hp))
    · rw [call_place] at hp
      split_ifs at hp with hpq
      · rw [hpq]
        exact Function.update_self ..
      · exact absurd hp (hfree p)
  · refine (h.cores d).aside ⟨Function.update_of_ne hd .., Function.update_of_ne hd .., Function.update_of_ne hd ..,
      Function.update_of_ne hd .., fun q => hsame q _ (by simp) (by simp), fun q => hsame q _ (by simp) (by simp [hd]),
      ?_⟩
    rintro q (hq | hq)
    · exact hkept q (by simp [hq]) (by simp [hq, hd])
    · exact hkept q (by simp [hq]) (by simp [hq])

theorem SwitchInv.execute (h : SwitchInv s) {i : Instr} {is : List Instr}
    (hp : s.place p = .running c ∨ s.place p = .claimed c)
    (hm : ∀ a, a ∉ s.stack p → a ≠ saved_rsp p → (s.execute c i is).mem a = s.mem a)
    (hplace : ∀ q, q ≠ p → (s.execute c i is).place q = s.place q)
    (hpt : (s.execute c i is).place p = .running c ∨ (s.execute c i is).place p = .claimed c ∨
      (s.execute c i is).place p = .suspended ∧ Parked (s.execute c i is) p)
    (hc : CoreInv (s.execute c i is) c) : SwitchInv (s.execute c i is) := by
  have halive : s.Alive p := by
    rcases hp with hp | hp <;> exact alive_of_eq hp (by simp)
  have hkept : ∀ q, s.Alive q → q ≠ p → Kept s (s.execute c i is) q := fun q hq hne =>
    .of_own h.layout halive hq hne rfl rfl hm
  refine ⟨h.layout.mono rfl fun q hq => ?_, fun q hq => ?_, fun d => ?_⟩
  · by_cases hqp : q = p
    · rwa [hqp]
    · rwa [Threads.Alive, ← hplace q hqp]
  · by_cases hqp : q = p
    · subst hqp
      rw [hq] at hpt
      simpa using hpt
    · rw [hplace q hqp] at hq
      exact (h.parked q hq).kept (hkept q (alive_of_eq hq (by simp)) hqp)
  · by_cases hd : d = c
    · rwa [hd]
    have hcd : c ≠ d := Ne.symm hd
    have hne : ∀ q, s.place q = .running d ∨ s.place q = .claimed d → q ≠ p := by
      rintro q hq rfl
      rcases hp with hp | hp <;> rw [hp] at hq <;> simp [hcd] at hq
    have hsame : ∀ q x, x = .running d ∨ x = .claimed d → ((s.execute c i is).place q = x ↔ s.place q = x) := by
      intro q x hx
      by_cases hqp : q = p
      · subst hqp
        rcases hx with rfl | rfl <;> rcases hp with hp | hp <;> rcases hpt with hpt | hpt | ⟨hpt, -⟩ <;>
          simp [hp, hpt, hcd]
      · rw [hplace q hqp]
    refine (h.cores d).aside ⟨Function.update_of_ne hd .., Function.update_of_ne hd .., rfl, rfl,
      fun q => hsame q _ (Or.inl rfl), fun q => hsame q _ (Or.inr rfl), fun q hq => hkept q ?_ (hne q hq)⟩
    rcases hq with hq | hq <;> exact alive_of_eq hq (by simp)

theorem stack_execute {i : Instr} {is : List Instr} (js : List Instr) {l l' : List Quad} {k' : Core}
    (hfits : (s.stack p).hi < 2 ^ 64) (hi : i.dest ≠ some .rsp) (hst : OnStack s p ((s.core c).reg .rsp).toNat l)
    (hroom : (s.stack p).lo + 8 * depth (i :: is) ≤ ((s.core c).reg .rsp).toNat)
    (hrun : runL (i :: is) (s.core c, l) = some (k', l')) :
    ∃ l₁, (∀ a, a ∉ s.stack p → (s.execute c i js).mem a = s.mem a) ∧
      OnStack (s.execute c i js) p (((s.execute c i js).core c).reg .rsp).toNat l₁ ∧
      (s.stack p).lo + 8 * depth is ≤ (((s.execute c i js).core c).reg .rsp).toNat ∧
      runL is ((s.execute c i js).core c, l₁) = some (k', l') := by
  obtain ⟨⟨k₁, l₁⟩, h₁, h₂⟩ := Option.bind_eq_some_iff.1 hrun
  have hlow := hst.low
  have hhigh := hst.high
  rw [depth_cons] at hroom
  obtain ⟨m', he, hs⟩ := execL_exec h₁ hi hst.stacked (by omega) (by omega)
  have hcore : (s.execute c i js).core c = k₁ := by
    simp only [Threads.execute, Function.update_self, he]
  have hmem : (s.execute c i js).mem = m' := by
    simp only [Threads.execute, he]
  have htop := hs.top
  have hdown := hs.low
  rw [hcore]
  refine ⟨l₁, fun a ha => ?_, ⟨?_, ?_, ?_⟩, by omega, h₂⟩
  · rw [hmem]
    rw [Stack.mem_iff] at ha
    exact hs.frame a (by omega)
  · rw [hmem]
    exact hs.stacked
  · change (s.stack p).lo ≤ _
    omega
  · change _ ≤ (s.stack p).hi
    omega

theorem SwitchInv.exec_save (h : SwitchInv s) {i : Instr} {is : List Instr} {l l' : List Quad} {k' : Core}
    (his : i :: is <:+ save) (hcur : s.current c = s.prev c) (hp : s.place (s.prev c) = .running c)
    (hst : OnStack s (s.prev c) ((s.core c).reg .rsp).toNat l)
    (hroom : (s.stack (s.prev c)).lo + 8 * depth (i :: is) ≤ ((s.core c).reg .rsp).toNat)
    (hrun : runL (i :: is) (s.core c, l) = some (k', l')) (hres : Restores (s.context (s.prev c)) (k'.reg .rsp) l')
    (hrax : k'.reg .rax = s.prev c) (hrdi : k'.reg .rdi = s.next c) (hif : ¬ k'.rflags.interrupts)
    (hnext : s.place (s.next c) = .claimed c) (hpark : Parked s (s.next c)) :
    SwitchInv (s.execute c i (is ++ .store .fs 8 .rsp :: .wrfsbase .rdi :: .load .rsp .fs 8 :: restore)) := by
  obtain ⟨hdest, hfs, hplaced⟩ := save_plain (κ := κ) i (his.subset List.mem_cons_self)
  have halive := alive_of_eq hp (by simp)
  obtain ⟨l₁, hm, hst₁, hroom₁, hrun₁⟩ := stack_execute
    (is ++ .store .fs 8 .rsp :: .wrfsbase .rdi :: .load .rsp .fs 8 :: restore) (h.layout.fits _ halive) hdest hst
    hroom hrun
  set t := s.execute c i (is ++ .store .fs 8 .rsp :: .wrfsbase .rdi :: .load .rsp .fs 8 :: restore) with ht
  have hplace : t.place = s.place := hplaced s c
  have hcur' : t.current c = s.current c := by
    simp only [ht, Threads.current, Threads.execute, Function.update_self]
    exact exec_fsbase hfs _
  have hne : s.next c ≠ s.prev c := by
    intro heq
    rw [heq, hp] at hnext
    cases hnext
  have hkept : Kept s t (s.next c) :=
    .of_own h.layout halive (alive_of_eq hnext (by simp)) hne rfl rfl fun a ha _ => hm a ha
  refine h.execute (Or.inl hp) (fun a ha _ => hm a ha) (fun q _ => congrFun hplace q) (Or.inl ?_)
    ⟨fun q hq => ?_, ?_, ?_⟩
  · exact (congrFun hplace _).trans hp
  · rw [hcur']
    exact (h.cores c).running q ((congrFun hplace q).symm.trans hq)
  · intro q hq
    exact (h.cores c).claimed q ((congrFun hplace q).symm.trans hq)
  · exact .save ((List.suffix_cons i is).trans his) (Function.update_self ..) (hcur'.trans hcur)
      ((congrFun hplace _).trans hp) hst₁ hroom₁ hrun₁ hres hrax hrdi hif ((congrFun hplace _).trans hnext)
      (hpark.kept hkept)

theorem SwitchInv.exec_store (h : SwitchInv s) {l : List Quad} (hcur : s.current c = s.prev c)
    (hp : s.place (s.prev c) = .running c) (hst : OnStack s (s.prev c) ((s.core c).reg .rsp).toNat l)
    (hres : Restores (s.context (s.prev c)) ((s.core c).reg .rsp) l) (hrax : (s.core c).reg .rax = s.prev c)
    (hrdi : (s.core c).reg .rdi = s.next c) (hif : ¬ (s.core c).rflags.interrupts)
    (hnext : s.place (s.next c) = .claimed c) (hpark : Parked s (s.next c)) :
    SwitchInv (s.execute c (.store .fs 8 .rsp) (.wrfsbase .rdi :: .load .rsp .fs 8 :: restore)) := by
  set t := s.execute c (.store .fs 8 .rsp) (.wrfsbase .rdi :: .load .rsp .fs 8 :: restore) with ht
  have halive := alive_of_eq hp (by simp)
  have hcore : t.core c = s.core c := Function.update_self ..
  have hmem : t.mem = Function.update s.mem (saved_rsp (s.prev c)) ((s.core c).reg .rsp) := by
    rw [← hcur]
    rfl
  have hplace : t.place = Function.update s.place (s.prev c) .suspended := by
    rw [← hcur]
    rfl
  have hm : ∀ a, a ≠ saved_rsp (s.prev c) → t.mem a = s.mem a := by
    intro a ha
    rw [hmem]
    exact Function.update_of_ne ha ..
  have hne : s.next c ≠ s.prev c := by
    intro heq
    rw [heq, hp] at hnext
    cases hnext
  have hparked : Parked t (s.prev c) := by
    rw [Parked, hmem, Function.update_self]
    refine ⟨l, ⟨hst.stacked.congr fun b hb hlt => hm b ?_, hst.low, hst.high⟩, hres⟩
    rintro rfl
    have hhigh := hst.high
    have hlow := hst.low
    exact h.layout.slots _ _ halive halive (Stack.mem_iff.2 (by omega))
  have hkept : Kept s t (s.next c) :=
    .of_own h.layout halive (alive_of_eq hnext (by simp)) hne rfl rfl fun a _ ha => hm a ha
  have hfree : ∀ q, t.place q ≠ .running c := by
    intro q hq
    rw [hplace, Function.update_apply] at hq
    split_ifs at hq with hqp
    exact hqp (((h.cores c).running q hq).symm.trans hcur)
  refine h.execute (Or.inl hp) (fun a _ ha => hm a ha) (fun q hq => ?_) (Or.inr (Or.inr ⟨?_, hparked⟩))
    ⟨fun q hq => absurd hq (hfree q), fun q hq => ?_, ?_⟩
  · rw [← ht, hplace, Function.update_of_ne hq]
  · rw [← ht, hplace, Function.update_self]
  · rw [hplace, Function.update_apply] at hq
    split_ifs at hq
    exact (h.cores c).claimed q hq
  · refine .stored (Function.update_self ..) hfree (by rwa [hcore]) (by rw [hcore]; exact hrax)
      (by rw [hcore]; exact hrdi)
      ?_ (hpark.kept hkept)
    change t.place (s.next c) = _
    rw [hplace, Function.update_of_ne hne, hnext]

theorem SwitchInv.exec_wrfsbase (h : SwitchInv s) (hfree : ∀ p, s.place p ≠ .running c)
    (hif : ¬ (s.core c).rflags.interrupts) (hrax : (s.core c).reg .rax = s.prev c)
    (hrdi : (s.core c).reg .rdi = s.next c) (hnext : s.place (s.next c) = .claimed c) (hpark : Parked s (s.next c)) :
    SwitchInv (s.execute c (.wrfsbase .rdi) (.load .rsp .fs 8 :: restore)) := by
  set t := s.execute c (.wrfsbase .rdi) (.load .rsp .fs 8 :: restore) with ht
  have hcore : t.core c = { s.core c with fsbase := (s.core c).reg .rdi } := Function.update_self ..
  refine h.execute (Or.inr hnext) (fun _ _ _ => rfl) (fun _ _ => rfl) (Or.inr (Or.inl hnext))
    ⟨fun q hq => absurd hq (hfree q), (h.cores c).claimed, ?_⟩
  refine .based (Function.update_self ..) hfree ?_ ?_ ?_ hnext (hpark.kept (.of_mem rfl rfl rfl))
  · rw [← ht, hcore]
    exact hif
  · rw [← ht, hcore]
    exact hrax
  · rw [← ht, Threads.current, hcore]
    exact hrdi

theorem SwitchInv.exec_load (h : SwitchInv s) (hfree : ∀ p, s.place p ≠ .running c)
    (hrax : (s.core c).reg .rax = s.prev c) (hcur : s.current c = s.next c) (hnext : s.place (s.next c) = .claimed c)
    (hpark : Parked s (s.next c)) : SwitchInv (s.execute c (.load .rsp .fs 8) restore) := by
  set t := s.execute c (.load .rsp .fs 8) restore with ht
  have hcore : t.core c = (s.core c).setReg .rsp (s.mem (saved_rsp (s.next c))) := by
    simp only [ht, Threads.execute, Function.update_self]
    rw [← hcur]
    rfl
  have hrsp : (t.core c).reg .rsp = s.mem (saved_rsp (s.next c)) := by
    rw [hcore, Core.setReg_reg, Function.update_self]
  obtain ⟨l, hl, hres⟩ := hpark
  obtain ⟨k', hrun, hres'⟩ := hres (t.core c) hrsp
  refine h.execute (Or.inr hnext) (fun _ _ _ => rfl) (fun _ _ => rfl) (Or.inr (Or.inl hnext))
    ⟨fun q hq => absurd hq (hfree q), (h.cores c).claimed, ?_⟩
  refine .restore (List.suffix_refl _) (by simp [restore]) (Function.update_self ..) hfree ?_ hnext (l := l) ?_ hrun ?_
  · rw [← ht, Threads.current, hcore]
    exact hcur
  · rw [← ht, hrsp]
    exact hl.kept (.of_mem rfl rfl rfl)
  · rw [hcore, show ((s.core c).setReg _ _).reg Reg.rax = (s.core c).reg .rax from rfl, hrax] at hres'
    exact hres'

theorem restore_ret {i : Instr} {is : List Instr} (h : i :: is <:+ restore) : i = .ret ↔ is = [] := by
  simp only [restore, List.suffix_cons_iff, List.suffix_nil, List.cons.injEq, reduceCtorEq, or_false] at h
  rcases h with ⟨rfl, rfl⟩ | ⟨rfl, rfl⟩ | ⟨rfl, rfl⟩ | ⟨rfl, rfl⟩ | ⟨rfl, rfl⟩ | ⟨rfl, rfl⟩ | ⟨rfl, rfl⟩ | ⟨rfl, rfl⟩ |
    ⟨rfl, rfl⟩ | ⟨rfl, rfl⟩ | ⟨rfl, rfl⟩ | ⟨rfl, rfl⟩ | ⟨rfl, rfl⟩ <;> simp

theorem SwitchInv.exec_restore (h : SwitchInv s) {i : Instr} {is : List Instr} {l : List Quad} {k' : Core}
    (his : i :: is <:+ restore) (hfree : ∀ p, s.place p ≠ .running c) (hcur : s.current c = s.next c)
    (hnext : s.place (s.next c) = .claimed c) (hst : OnStack s (s.next c) ((s.core c).reg .rsp).toNat l)
    (hrun : runL (i :: is) (s.core c, l) = some (k', [])) (hres : Resumed (s.context (s.next c)) (s.prev c) k') :
    SwitchInv (s.execute c i is) := by
  obtain ⟨hdest, hfs, hplaced⟩ := restore_plain (κ := κ) i (his.subset List.mem_cons_self)
  have hpushes : depth (i :: is) = 0 := by
    have hle := his.sublist.countP_le (p := (·.pushes))
    exact Nat.le_zero.1 hle
  obtain ⟨l₁, hm, hst₁, -, hrun₁⟩ := stack_execute is (h.layout.fits _ (alive_of_eq hnext (by simp))) hdest hst
    (by rw [hpushes]; exact hst.low) hrun
  set t := s.execute c i is with ht
  have hcur' : t.current c = s.next c := by
    simp only [ht, Threads.current, Threads.execute, Function.update_self]
    exact (exec_fsbase hfs _).trans hcur
  by_cases hret : i = .ret
  · have hplace : t.place = Function.update s.place (s.next c) (.running c) := by
      rw [ht, hret, ← hcur]
      rfl
    have hself : t.place (s.next c) = .running c := by
      rw [hplace, Function.update_self]
    have hfree' : ∀ q, t.place q ≠ .claimed c := by
      intro q hq
      rw [hplace, Function.update_apply] at hq
      split_ifs at hq with hqn
      exact hqn ((h.cores c).claimed q hq).symm
    refine h.execute (Or.inr hnext) (fun a ha _ => hm a ha) (fun q hq => ?_) (Or.inl hself)
      ⟨fun q hq => ?_, fun q hq => absurd hq (hfree' q), .work ?_ ?_ hfree'⟩
    · rw [← ht, hplace, Function.update_of_ne hq]
    · rw [hplace, Function.update_apply] at hq
      split_ifs at hq with hqn
      · rw [hqn, hcur']
      · exact absurd hq (hfree q)
    · rw [← (restore_ret his).1 hret]
      exact Function.update_self ..
    · rw [← ht, hcur', hself]
  · have hplace : t.place = s.place := hplaced hret s c
    refine h.execute (Or.inr hnext) (fun a ha _ => hm a ha) (fun q _ => congrFun hplace q)
      (Or.inr (Or.inl ((congrFun hplace _).trans hnext))) ⟨fun q hq => ?_, fun q hq => ?_, ?_⟩
    · exact absurd ((congrFun hplace q).symm.trans hq) (hfree q)
    · exact (h.cores c).claimed q ((congrFun hplace q).symm.trans hq)
    · exact .restore ((List.suffix_cons i is).trans his) (fun hnil => hret ((restore_ret his).2 hnil))
        (Function.update_self ..) (fun q hq => hfree q ((congrFun hplace q).symm.trans hq)) hcur'
        ((congrFun hplace _).trans hnext) hst₁ hrun₁ hres

theorem SwitchInv.exec (h : SwitchInv s) {i : Instr} {is : List Instr} (htodo : s.todo c = i :: is) :
    SwitchInv (s.execute c i is) := by
  cases (h.cores c).phase with
  | work h₀ => simp [htodo] at h₀
  | @save js _ _ _ hjs h₀ hcur hp hst hroom hrun hres hrax hrdi hif hnext hpark =>
    cases js with
    | nil =>
      obtain ⟨rfl, rfl⟩ := List.cons.inj (htodo.symm.trans h₀)
      obtain ⟨rfl, rfl⟩ := Prod.mk.inj (Option.some.inj hrun)
      exact h.exec_store hcur hp hst hres hrax hrdi hif hnext hpark
    | cons j js =>
      obtain ⟨rfl, rfl⟩ := List.cons.inj (htodo.symm.trans h₀)
      exact h.exec_save hjs hcur hp hst hroom hrun hres hrax hrdi hif hnext hpark
  | stored h₀ hfree hif hrax hrdi hnext hpark =>
    obtain ⟨rfl, rfl⟩ := List.cons.inj (htodo.symm.trans h₀)
    exact h.exec_wrfsbase hfree hif hrax hrdi hnext hpark
  | based h₀ hfree hif hrax hcur hnext hpark =>
    obtain ⟨rfl, rfl⟩ := List.cons.inj (htodo.symm.trans h₀)
    exact h.exec_load hfree hrax hcur hnext hpark
  | restore his hne h₀ hfree hcur hnext hst hrun hres =>
    obtain rfl := htodo.symm.trans h₀
    exact h.exec_restore his hfree hcur hnext hst hrun hres

theorem SwitchInv.irq (h : SwitchInv s) {m : Mem} (htodo : s.todo c ≠ []) (hif : (s.core c).rflags.interrupts)
    (hown : OwnStack s (s.current c) m)
    (hlive : ∀ a ∈ s.stack (s.current c), ((s.core c).reg .rsp).toNat ≤ a → m a = s.mem a) :
    SwitchInv { s with mem := m } := by
  have howner : s.place (s.current c) = .running c ∨ s.place (s.current c) = .claimed c := by
    cases (h.cores c).phase with
    | work h₀ => exact absurd h₀ htodo
    | save _ _ hcur hp =>
      rw [hcur]
      exact Or.inl hp
    | stored _ _ hif' => exact absurd hif hif'
    | based _ _ hif' => exact absurd hif hif'
    | restore _ _ _ _ hcur hnext =>
      rw [hcur]
      exact Or.inr hnext
  have hkept : ∀ q x, s.place q = x → x ≠ .absent → s.place (s.current c) ≠ x → Kept s { s with mem := m } q := by
    rintro q x rfl habs hne
    refine hown.kept habs ?_ rfl rfl rfl
    rintro rfl
    exact hne rfl
  have hst' : ∀ l, OnStack s (s.current c) ((s.core c).reg .rsp).toNat l →
      OnStack { s with mem := m } (s.current c) ((s.core c).reg .rsp).toNat l := by
    intro l hst
    have hlow := hst.low
    have hhigh := hst.high
    exact ⟨hst.stacked.congr fun b hb hlt => hlive b (Stack.mem_iff.2 (by omega)) hb, hlow, hhigh⟩
  refine ⟨h.layout.mono rfl fun _ hp => hp, fun q hq => (h.parked q hq).kept (hkept q _ hq (by simp) ?_), fun d => ?_⟩
  · rcases howner with ho | ho <;> simp [ho]
  by_cases hd : d = c
  · subst hd
    refine ⟨(h.cores d).running, (h.cores d).claimed, ?_⟩
    cases (h.cores d).phase with
    | work h₀ => exact absurd h₀ htodo
    | save his h₀ hcur hp hst hroom hrun hres hrax hrdi hif' hnext hpark =>
      refine .save his h₀ hcur hp ?_ hroom hrun hres hrax hrdi hif' hnext (hpark.kept (hkept _ _ hnext (by simp) ?_))
      · rw [← hcur] at hst
        change OnStack _ (s.prev d) _ _
        rw [← hcur]
        exact hst' _ hst
      · rw [hcur, hp]
        simp
    | stored _ _ hif' => exact absurd hif hif'
    | based _ _ hif' => exact absurd hif hif'
    | restore his hne h₀ hfree hcur hnext hst hrun hres =>
      refine .restore his hne h₀ hfree hcur hnext ?_ hrun hres
      rw [← hcur] at hst
      change OnStack _ (s.next d) _ _
      rw [← hcur]
      exact hst' _ hst
  · have hcd : c ≠ d := Ne.symm hd
    refine (h.cores d).aside ⟨rfl, rfl, rfl, rfl, fun _ => Iff.rfl, fun _ => Iff.rfl, ?_⟩
    rintro q (hq | hq) <;> refine hkept q _ hq (by simp) ?_ <;> rcases howner with ho | ho <;> simp [ho, hcd]

end

end Kernel.ContextSwitch
