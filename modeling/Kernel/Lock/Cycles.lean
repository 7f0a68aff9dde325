import Kernel.Lib.Ledger
import Kernel.Lock.SpinRuns
import Mathlib.Algebra.BigOperators.Group.List.Basic
import Mathlib.Data.BitVec

/-!
# What spin locks count

`unlock` adds to the statistics when it has the lock no more, one atomic access
after another. No section is lost or counted twice.
-/

namespace Kernel.Spin

open Lib

variable {s t : Spins} {c : Nat} {a : Nat × LockOp Nat}

/-- What `unlock` still has to add to the total, and to the count. -/
def Pc.cycles : Pc → BitVec 64
  | .restore true elapsed _ | .add_total elapsed => elapsed
  | _ => 0

def Pc.count : Pc → BitVec 64
  | .restore true _ _ | .add_total _ | .add_count _ => 1
  | _ => 0

/-- The section that `AtomicMax::update` still has to look at. -/
def Pc.toMax : Pc → Option (BitVec 64)
  | .restore true v _ | .add_total v | .add_count v | .get_max v | .compare_exchange v _ => some v
  | _ => none

/-- What a step does to the statistics and to what is pending. -/
structure Counts (s : Spins) (c : Nat) (t : Spins) : Prop where
  pc : t.pc = Function.update s.pc c (t.pc c)
  cycles : t.total_critical_section_cycles + (t.pc c).cycles + s.sections.sum =
    s.total_critical_section_cycles + (s.pc c).cycles + t.sections.sum
  count : t.critical_section_count + (t.pc c).count + BitVec.ofNat 64 s.sections.length =
    s.critical_section_count + (s.pc c).count + BitVec.ofNat 64 t.sections.length

theorem update_pc_self (f : Nat → Pc) (p : Pc) :
    Function.update f c p = Function.update f c (Function.update f c p c) := by
  rw [Function.update_self]

theorem silent_counts (h : Silent s c t) : Counts s c t := by
  cases h with
  | set_flag => exact ⟨(Function.update_eq_self _ _).symm, rfl, rfl⟩
  | @restore b was elapsed hp =>
    refine ⟨update_pc_self _ _, ?_, ?_⟩ <;> cases b <;> simp [Spins.goto, Spins.restore, hp, Pc.cycles, Pc.count]
  | @get_max v hp =>
    refine ⟨update_pc_self _ _, ?_, ?_⟩ <;> by_cases hv : v ≤ s.max_critical_section_cycles <;>
      simp [Spins.goto, hp, hv, Pc.cycles, Pc.count]
  | add_total hp | add_count hp =>
    refine ⟨update_pc_self _ _, ?_, ?_⟩ <;> simp [Spins.goto, hp, Pc.cycles, Pc.count, add_assoc]
  | lock hp | disable hp | exchange_failed hp | restore_failed hp | try_failed hp | set_was_disabled hp
  | set_start hp | unlock hp
  | get_count_it hp | set_count_it hp | get_start hp | rdtsc hp | get_was_disabled hp | compare_exchange hp
  | compare_failed hp =>
    refine ⟨update_pc_self _ _, ?_, ?_⟩ <;>
      simp [Spins.goto, Spins.setDisabled, Spins.restore, Spins.modLock, hp, Pc.cycles, Pc.count]

theorem spin_counts {o : LockOp Nat} (h : SpinStep s (c, o) t) : Counts s c t := by
  cases h with
  | acquire hp =>
    refine ⟨update_pc_self _ _, ?_, ?_⟩ <;> simp [Spins.goto, Spins.setHeld, Spins.modLock, hp, Pc.cycles, Pc.count]
  | @release _ _ b was elapsed hp =>
    refine ⟨update_pc_self _ _, ?_, ?_⟩ <;> cases b <;>
      simp [Spins.goto, Spins.setHeld, Spins.modLock, hp, Pc.cycles, Pc.count, BitVec.ofNat_add, add_assoc, add_comm,
        add_left_comm]
  | internal hi => exact silent_counts hi

/-- All sections that count are in the statistics, or their core still has to add them. -/
structure CountsOk (s : Spins) : Prop where
  cycles : Ledger s.total_critical_section_cycles (fun c => (s.pc c).cycles) s.sections.sum
  count : Ledger s.critical_section_count (fun c => (s.pc c).count) (BitVec.ofNat 64 s.sections.length)

theorem CountsOk.step (h : CountsOk s) (hs : SpinStep s a t) : CountsOk t := by
  obtain ⟨c, o⟩ := a
  have hcounts := spin_counts hs
  have hpending : ∀ g : Pc → BitVec 64, (fun d => g (t.pc d)) = Function.update (fun d => g (s.pc d)) c
    (g (t.pc c)) := by
    intro g
    funext d
    by_cases hd : d = c
    · rw [hd, Function.update_self]
    · rw [hcounts.pc, Function.update_of_ne hd, Function.update_of_ne hd]
  constructor
  · rw [hpending]
    exact h.cycles.update c hcounts.cycles
  · rw [hpending]
    exact h.count.update c hcounts.count

/-! ## The maximum -/

/-- What a step does to the maximum. -/
structure Raises (s : Spins) (c : Nat) (t : Spins) : Prop where
  other : ∀ d, d ≠ c → t.pc d = s.pc d
  sections : t.sections = s.sections ∧ (∀ v, (t.pc c).toMax = some v → (s.pc c).toMax = some v) ∨
    ∃ v, t.sections = s.sections ++ [v] ∧ (t.pc c).toMax = some v ∧ (s.pc c).toMax = none
  grows : t.max_critical_section_cycles = s.max_critical_section_cycles ∨
    s.pc c = .compare_exchange t.max_critical_section_cycles s.max_critical_section_cycles
  done : ∀ v, (s.pc c).toMax = some v → (t.pc c).toMax = some v ∨ v ≤ t.max_critical_section_cycles
  larger : ∀ v old, t.pc c = .compare_exchange v old → old < v

theorem raises_of_plain {p : Pc} (hpc : t.pc = Function.update s.pc c p) (hsections : t.sections = s.sections)
    (hmax : t.max_critical_section_cycles = s.max_critical_section_cycles) (hto : p.toMax = (s.pc c).toMax)
    (hne : ∀ v old, p ≠ .compare_exchange v old) : Raises s c t := by
  have hp : t.pc c = p := by rw [hpc, Function.update_self]
  refine ⟨fun d hd => ?_, Or.inl ⟨hsections, fun v hv => ?_⟩, Or.inl hmax, fun v hv => Or.inl ?_, fun v old he => ?_⟩
  · rw [hpc, Function.update_of_ne hd]
  · rw [← hto, ← hp]
    exact hv
  · rw [hp, hto]
    exact hv
  · exact absurd (hp ▸ he) (hne v old)

theorem silent_raises (h : Silent s c t) : Raises s c t := by
  cases h with
  | set_flag hp =>
    exact raises_of_plain (p := .out) (by rw [← hp]; exact (Function.update_eq_self _ _).symm) rfl rfl (by rw [hp])
      fun v old he => by cases he
  | @restore b was elapsed hp =>
    cases b <;> exact raises_of_plain rfl rfl rfl (by rw [hp]; rfl) fun v old he => by cases he
  | @get_max v hp =>
    by_cases hv : v ≤ s.max_critical_section_cycles
    · refine ⟨fun d hd => Function.update_of_ne hd _ _, Or.inl ⟨rfl, fun w hw => ?_⟩, Or.inl rfl, fun w hw => Or.inr ?_,
        fun w old he => ?_⟩
      · simp [Spins.goto, hv, Pc.toMax] at hw
      · rw [hp] at hw
        cases hw
        exact hv
      · simp [Spins.goto, hv] at he
    · have hpc : (s.goto c (if v ≤ s.max_critical_section_cycles then Pc.out
          else .compare_exchange v s.max_critical_section_cycles)).pc c =
          .compare_exchange v s.max_critical_section_cycles := by
        simp [Spins.goto, hv]
      refine ⟨fun d hd => Function.update_of_ne hd _ _, Or.inl ⟨rfl, fun w hw => ?_⟩, Or.inl rfl, fun w hw => Or.inl ?_,
        fun w old he => ?_⟩
      · rw [hpc] at hw
        rw [hp]
        exact hw
      · rw [hp] at hw
        rw [hpc]
        exact hw
      · rw [hpc] at he
        cases he
        exact BitVec.not_le.mp hv
  | @compare_exchange v old hp hold =>
    refine ⟨fun d hd => Function.update_of_ne hd _ _, Or.inl ⟨rfl, fun w hw => ?_⟩, Or.inr ?_, fun w hw => Or.inr ?_,
      fun w old he => ?_⟩
    · simp [Spins.goto, Pc.toMax] at hw
    · rw [hold]
      exact hp
    · rw [hp] at hw
      cases hw
      exact BitVec.le_refl _
    · simp [Spins.goto] at he
  | lock hp | disable hp | exchange_failed hp | restore_failed hp | try_failed hp | set_was_disabled hp
  | set_start hp | unlock hp
  | get_count_it hp | set_count_it hp | get_start hp | rdtsc hp | get_was_disabled hp | add_total hp | add_count hp
  | compare_failed hp =>
    exact raises_of_plain rfl rfl rfl (by rw [hp]; rfl) fun v old he => by cases he

theorem spin_raises {o : LockOp Nat} (h : SpinStep s (c, o) t) : Raises s c t := by
  cases h with
  | acquire hp => exact raises_of_plain rfl rfl rfl (by rw [hp]; rfl) fun v old he => by cases he
  | @release _ _ b was elapsed hp =>
    cases b with
    | false => exact raises_of_plain rfl rfl rfl (by rw [hp]; rfl) fun v old he => by cases he
    | true =>
      refine ⟨fun d hd => Function.update_of_ne hd _ _, Or.inr ⟨elapsed, rfl, ?_, ?_⟩, Or.inl rfl, fun v hv => ?_,
        fun v old he => ?_⟩
      · simp [Spins.goto, Spins.modLock, Spins.setHeld, Pc.toMax]
      · rw [hp]
        rfl
      · rw [hp] at hv
        cases hv
      · simp [Spins.goto, Spins.modLock, Spins.setHeld] at he
  | internal hi => exact silent_raises hi

/-- The maximum is that of the sections that are through. -/
structure MaxOk (s : Spins) : Prop where
  bound : ∀ v ∈ s.sections, v ≤ s.max_critical_section_cycles ∨ ∃ c, (s.pc c).toMax = some v
  found : s.max_critical_section_cycles = 0 ∨ s.max_critical_section_cycles ∈ s.sections
  pending : ∀ c v, (s.pc c).toMax = some v → v ∈ s.sections
  larger : ∀ c v old, s.pc c = .compare_exchange v old → old < v

theorem Raises.le (h : Raises s c t) (hok : MaxOk s) :
    s.max_critical_section_cycles ≤ t.max_critical_section_cycles := by
  rcases h.grows with hsame | hp
  · rw [hsame]
    exact BitVec.le_refl _
  · exact BitVec.le_of_lt (hok.larger c _ _ hp)

theorem Raises.sub (h : Raises s c t) {v : BitVec 64} (hv : v ∈ s.sections) : v ∈ t.sections := by
  rcases h.sections with ⟨hsame, -⟩ | ⟨w, hadd, -⟩
  · rw [hsame]
    exact hv
  · rw [hadd]
    exact List.mem_append_left _ hv

theorem MaxOk.step (h : MaxOk s) (hs : SpinStep s a t) : MaxOk t := by
  obtain ⟨c, o⟩ := a
  have hr := spin_raises hs
  refine ⟨fun v hv => ?_, ?_, fun d v hv => ?_, fun d v old hp => ?_⟩
  · have hcases : v ∈ s.sections ∨ (t.pc c).toMax = some v := by
      rcases hr.sections with ⟨hsame, -⟩ | ⟨w, hadd, hw, -⟩
      · exact Or.inl (hsame ▸ hv)
      · rw [hadd, List.mem_append, List.mem_singleton] at hv
        rcases hv with hv | rfl
        · exact Or.inl hv
        · exact Or.inr hw
    rcases hcases with hold | hnew
    · rcases h.bound v hold with hle | ⟨d, hd⟩
      · exact Or.inl (BitVec.le_trans hle (hr.le h))
      · by_cases hdc : d = c
        · subst hdc
          exact (hr.done v hd).symm.imp_right fun hd => ⟨d, hd⟩
        · exact Or.inr ⟨d, by rw [hr.other d hdc]; exact hd⟩
    · exact Or.inr ⟨c, hnew⟩
  · rcases hr.grows with hsame | hp
    · rw [hsame]
      exact h.found.imp_right hr.sub
    · exact Or.inr (hr.sub (h.pending c _ (by rw [hp]; rfl)))
  · by_cases hdc : d = c
    · subst hdc
      rcases hr.sections with ⟨hsame, hold⟩ | ⟨w, hadd, hw, -⟩
      · rw [hsame]
        exact h.pending d v (hold v hv)
      · rw [hw] at hv
        cases hv
        rw [hadd]
        exact List.mem_append_right _ (List.mem_singleton_self _)
    · rw [hr.other d hdc] at hv
      exact hr.sub (h.pending d v hv)
  · by_cases hdc : d = c
    · subst hdc
      exact hr.larger v old hp
    · rw [hr.other d hdc] at hp
      exact h.larger d v old hp

theorem statistics_inductive : System.Inductive spinSystem fun s => CountsOk s ∧ MaxOk s where
  init s h := by
    refine ⟨⟨?_, ?_⟩, ?_, Or.inl h.max_critical_section_cycles, fun c v hv => ?_, fun c v old hp => ?_⟩
    · rw [h.sections, h.total_critical_section_cycles]
      exact Ledger.none fun c => by rw [h.pc]; rfl
    · rw [h.sections, h.critical_section_count]
      exact Ledger.none fun c => by rw [h.pc]; rfl
    · rw [h.sections]
      simp
    · rw [h.pc] at hv
      cases hv
    · rw [h.pc] at hp
      cases hp
  step _ _ _ h hs := ⟨h.1.step hs, h.2.step hs⟩

/-- **Statistics.** When no core is in `unlock`, they are those of all sections that count: the total (modulo 2^64), the
number and the longest. -/
theorem statistics_exact (h : spinSystem.Reachable t) (hout : ∀ c, t.pc c = .out) :
    t.total_critical_section_cycles = t.sections.sum ∧
      t.critical_section_count = BitVec.ofNat 64 t.sections.length ∧
      (∀ v ∈ t.sections, v ≤ t.max_critical_section_cycles) ∧
      (t.max_critical_section_cycles ∈ t.sections ∨ t.max_critical_section_cycles = 0) := by
  obtain ⟨hcounts, hmax⟩ := statistics_inductive.reachable h
  refine ⟨hcounts.cycles.settled fun c => ?_, hcounts.count.settled fun c => ?_, fun v hv => ?_, hmax.found.symm⟩
  · rw [hout]
    rfl
  · rw [hout]
    rfl
  · rcases hmax.bound v hv with hle | ⟨c, hc⟩
    · exact hle
    · rw [hout] at hc
      cases hc

theorem statistics_exact_one : ∃ t : Spins, t.sections = [3] ∧ t.total_critical_section_cycles = t.sections.sum := by
  have h : spinSystem.Reachable unlocked := ⟨_, _, unlocked_free, .nil _⟩
  have h := h.step (.internal (.lock (c := 0) (l := 5) rfl))
  have h := h.step (.internal (.disable (c := 0) rfl))
  have h := h.step (.acquire (c := 0) rfl rfl)
  have h := h.step (.internal (.set_was_disabled (c := 0) rfl))
  have h := h.step (.internal (.set_start (c := 0) (t := 7) rfl))
  have h := h.step (.internal (.unlock (c := 0) (l := 5) rfl (List.mem_singleton.mpr rfl)))
  have h := h.step (.internal (.get_count_it (c := 0) rfl))
  have h := h.step (.internal (.set_count_it (c := 0) rfl))
  have h := h.step (.internal (.get_start (c := 0) rfl))
  have h := h.step (.internal (.rdtsc (c := 0) (t := 9) rfl))
  have h := h.step (.internal (.get_was_disabled (c := 0) rfl))
  have h := h.step (.release (c := 0) rfl)
  have h := h.step (.internal (.restore (c := 0) rfl))
  have h := h.step (.internal (.lock (c := 0) (l := 5) rfl))
  have h := h.step (.internal (.disable (c := 0) rfl))
  have h := h.step (.acquire (c := 0) rfl rfl)
  have h := h.step (.internal (.set_was_disabled (c := 0) rfl))
  have h := h.step (.internal (.set_start (c := 0) (t := 20) rfl))
  have h := h.step (.internal (.unlock (c := 0) (l := 5) rfl (List.mem_singleton.mpr rfl)))
  have h := h.step (.internal (.get_count_it (c := 0) rfl))
  have h := h.step (.internal (.set_count_it (c := 0) rfl))
  have h := h.step (.internal (.get_start (c := 0) rfl))
  have h := h.step (.internal (.rdtsc (c := 0) (t := 23) rfl))
  have h := h.step (.internal (.get_was_disabled (c := 0) rfl))
  have h := h.step (.release (c := 0) rfl)
  have h := h.step (.internal (.restore (c := 0) rfl))
  have h := h.step (.internal (.add_total (c := 0) rfl))
  have h := h.step (.internal (.add_count (c := 0) rfl))
  have h := h.step (.internal (.get_max (c := 0) rfl))
  have h := h.step (.internal (@Silent.compare_exchange _ 0 3 0 rfl rfl))
  refine ⟨_, rfl, (statistics_exact h fun c => ?_).1⟩
  cases c with
  | zero => rfl
  | succ c => rfl

end Kernel.Spin
