import Kernel.Lock.SpinRuns

/-!
# Spin locks and the interrupt flag

Each lock keeps the flag that it has found. A core that gives its locks back in
reverse order has interrupts off all the time, and then the flag that it had.
-/

namespace Kernel.Spin

open Lib

variable {s t : Spins} {c d l : Nat} {a : Nat × LockOp Nat}

/-- The lock that goes back is the one taken last. -/
def LastFirst (s : Spins) : Nat × LockOp Nat → Prop
  | (c, .release l) => ((s.held c).head?.map Prod.fst) = some l
  | _ => True

/-- The flag that a core with these locks has. -/
def flagWith (base : Bool) : List (Nat × Bool) → Bool
  | [] => base
  | _ :: _ => true

/-- Each lock was taken with the flag that those before it call for. -/
def Nested (base : Bool) : List (Nat × Bool) → Prop
  | [] => True
  | a :: locks => a.2 = flagWith base locks ∧ Nested base locks

/-- What the flag is, and the flag that `lock` or `unlock` still has to keep or to set. -/
def Pc.FlagAt (disabled base : Bool) (held : List (Nat × Bool)) : Pc → Prop
  | .exchange _ was | .restore_failed _ was | .restore _ _ was => disabled = true ∧ was = flagWith base held
  | .set_was_disabled l was => disabled = true ∧ held.head? = some (l, was)
  | .set_taken l _ _ was => disabled = true ∧ (l, was) ∈ held
  | _ => disabled = flagWith base held

structure FlagOk (s : Spins) (c : Nat) : Prop where
  nested : Nested (s.base c) (s.held c)
  saved : ∀ a ∈ s.held c, s.pc c ≠ .set_was_disabled a.1 a.2 → (s.lock a.1).was_disabled = a.2
  flag : (s.pc c).FlagAt (s.disabled c) (s.base c) (s.held c)

theorem flagWith_of_mem {base : Bool} {held : List (Nat × Bool)} {a : Nat × Bool} (h : a ∈ held) :
    flagWith base held = true := by
  cases held with
  | nil => cases h
  | cons b locks => rfl

namespace FlagOk

theorem other (h : FlagOk s d) (hheld : t.held d = s.held d) (hpc : t.pc d = s.pc d)
    (hdisabled : t.disabled d = s.disabled d)
    (hbase : t.base d = s.base d) (hsaved : ∀ a ∈ s.held d, (t.lock a.1).was_disabled = (s.lock a.1).was_disabled) :
    FlagOk t d := by
  refine ⟨?_, fun a ha hne => ?_, ?_⟩
  · rw [hbase, hheld]
    exact h.nested
  · rw [hheld] at ha
    rw [hpc] at hne
    rw [hsaved a ha]
    exact h.saved a ha hne
  · rw [hpc, hdisabled, hbase, hheld]
    exact h.flag

theorem same (h : FlagOk s c) (hheld : t.held c = s.held c) (hbase : t.base c = s.base c)
    (hsaved : ∀ a ∈ s.held c, (t.lock a.1).was_disabled = (s.lock a.1).was_disabled)
    (hpc : ∀ l was, s.pc c ≠ .set_was_disabled l was) (hflag : (t.pc c).FlagAt (t.disabled c) (s.base c) (s.held c)) :
    FlagOk t c := by
  refine ⟨?_, fun a ha _ => ?_, ?_⟩
  · rw [hbase, hheld]
    exact h.nested
  · rw [hheld] at ha
    rw [hsaved a ha]
    exact h.saved a ha (hpc _ _)
  · rw [hbase, hheld]
    exact hflag

theorem set_was {l : Nat} {was : Bool} (h : FlagOk s c) (hok : SpinOk s) (hp : s.pc c = .set_was_disabled l was)
    (hpc : t.pc c = .set_start l) (hheld : t.held c = s.held c) (hbase : t.base c = s.base c)
    (hdisabled : t.disabled c = s.disabled c) (hlock : (t.lock l).was_disabled = was)
    (hothers : ∀ k, k ≠ l → (t.lock k).was_disabled = (s.lock k).was_disabled) : FlagOk t c := by
  have hflag := h.flag
  rw [hp] at hflag
  obtain ⟨hoff, hhead⟩ := hflag
  have hmem : (l, was) ∈ s.held c := List.mem_of_head? hhead
  refine ⟨?_, fun a ha _ => ?_, ?_⟩
  · rw [hbase, hheld]
    exact h.nested
  · rw [hheld] at ha
    by_cases hl : a.1 = l
    · have ha' : a = (l, was) := List.inj_on_of_nodup_map (hok.nodup c) ha hmem hl
      rw [ha']
      exact hlock
    · rw [hothers _ hl]
      refine h.saved a ha ?_
      rw [hp]
      intro he
      cases he
      exact hl rfl
  · rw [hpc, hdisabled, hoff, hheld, hbase]
    exact (flagWith_of_mem hmem).symm

theorem silent (h : FlagOk s c) (hok : SpinOk s) (hs : Silent s c t) : FlagOk t c := by
  have hflag := h.flag
  have hsame : ∀ a ∈ s.held c, (s.lock a.1).was_disabled = (s.lock a.1).was_disabled := fun _ _ => rfl
  cases hs with
  | set_flag hp hnil =>
    refine ⟨?_, fun a ha _ => ?_, ?_⟩
    · change Nested _ (s.held c)
      rw [hnil]
      trivial
    · change a ∈ s.held c at ha
      rw [hnil] at ha
      cases ha
    · change (s.pc c).FlagAt _ _ (s.held c)
      simp [hp, hnil, Pc.FlagAt, flagWith, Spins.setDisabled]
  | set_was_disabled hp =>
    refine h.set_was hok hp ?_ rfl rfl rfl ?_ fun k hk => ?_
    · simp [Spins.goto, Spins.modLock]
    · simp [Spins.modLock]
    · simp [Spins.goto, Spins.modLock, hk]
  | set_start hp | set_count_it hp =>
    rw [hp] at hflag
    refine h.same rfl rfl (fun a _ => modLock_same (s := s.goto c _) SpinLock.was_disabled (by intro x; rfl) a.1)
      (by simp [hp]) ?_
    simpa [Spins.goto, Spins.modLock, Pc.FlagAt] using hflag
  | @get_was_disabled l b elapsed hp =>
    rw [hp] at hflag
    obtain ⟨a, ha, hal⟩ := List.mem_map.mp (hok.own c l (by rw [hp]; rfl))
    have hwas : (s.lock l).was_disabled = a.2 := hal ▸ h.saved a ha (by simp [hp])
    refine h.same rfl rfl hsame (by simp [hp]) ?_
    change (Function.update s.pc c _ c).FlagAt _ _ _
    rw [Function.update_self]
    refine ⟨hflag.trans (flagWith_of_mem ha), ?_⟩
    rw [hwas, ← hal]
    exact ha
  | disable hp =>
    rw [hp] at hflag
    exact h.same rfl rfl hsame (by simp [hp]) (by simpa [Spins.goto, Spins.setDisabled, Pc.FlagAt] using hflag)
  -- The flag is off, so `restore` has it off or on as it was.
  | @restore_failed _ was hp | @try_failed _ was hp =>
    rw [hp] at hflag
    refine h.same rfl rfl hsame (by simp [hp]) ?_
    cases was <;> simp_all [Spins.goto, Spins.restore, Pc.FlagAt]
  | @restore b was elapsed hp =>
    rw [hp] at hflag
    refine h.same rfl rfl hsame (by simp [hp]) ?_
    cases b <;> cases was <;> simp_all [Spins.goto, Spins.restore, Pc.FlagAt]
  | @get_max v hp =>
    rw [hp] at hflag
    refine h.same rfl rfl hsame (by simp [hp]) ?_
    by_cases hv : v ≤ s.max_critical_section_cycles <;> simpa [Spins.goto, hv, Pc.FlagAt] using hflag
  | lock hp | exchange_failed hp | unlock hp | get_count_it hp | get_start hp | rdtsc hp | add_total hp | add_count hp
  | compare_exchange hp | compare_failed hp =>
    rw [hp] at hflag
    exact h.same rfl rfl hsame (by simp [hp]) (by simpa [Spins.goto, Pc.FlagAt] using hflag)

theorem acquired {l : Nat} {was : Bool} (h : FlagOk s c) (ha : Acquired s c l was t) : FlagOk t c := by
  have hflag := h.flag
  rw [ha.at_exchange] at hflag
  have hheld : t.held c = (l, was) :: s.held c := by rw [ha.held, Function.update_self]
  have hpc : t.pc c = .set_was_disabled l was := by rw [ha.pc, Function.update_self]
  refine ⟨?_, fun a ham hne => ?_, ?_⟩
  · rw [ha.base, hheld]
    exact ⟨hflag.2, h.nested⟩
  · rw [hheld, List.mem_cons] at ham
    rw [ha.was]
    rcases ham with rfl | ham
    · exact absurd hpc hne
    · exact h.saved a ham (by simp [ha.at_exchange])
  · rw [hpc, hheld, ha.disabled]
    exact ⟨hflag.1, rfl⟩

theorem released {l : Nat} {b was : Bool} {elapsed : BitVec 64} (h : FlagOk s c) (hok : SpinOk s)
    (hr : Released s c l b elapsed was t) (hlast : ((s.held c).head?.map Prod.fst) = some l) : FlagOk t c := by
  have hflag := h.flag
  rw [hr.at_set_taken] at hflag
  obtain ⟨hoff, hmem⟩ := hflag
  have hnodup := hok.nodup c
  have hnested := h.nested
  have hsaved := h.saved
  have hrest : t.held c = (s.held c).filter fun a => a.1 ≠ l := by rw [hr.held, Function.update_self]
  cases hheld : s.held c with
  | nil =>
    rw [hheld] at hlast
    cases hlast
  | cons a locks =>
    rw [hheld] at hlast hmem hnodup hnested hsaved hrest
    have hl : a.1 = l := Option.some.inj hlast
    have ha : a = (l, was) := List.inj_on_of_nodup_map hnodup List.mem_cons_self hmem hl
    rw [List.map_cons, List.nodup_cons, hl] at hnodup
    have hlocks : t.held c = locks := by
      rw [hrest, List.filter_cons_of_neg (by simp [hl]), List.filter_eq_self]
      intro x hx
      have hne : x.1 ≠ l := fun h => hnodup.1 (List.mem_map.mpr ⟨x, hx, h⟩)
      simpa using hne
    refine ⟨?_, fun x hx _ => ?_, ?_⟩
    · rw [hr.base, hlocks]
      exact hnested.2
    · rw [hlocks] at hx
      rw [hr.was]
      exact hsaved x (List.mem_cons_of_mem _ hx) (by simp [hr.at_set_taken])
    · rw [hr.pc, Function.update_self, hlocks, hr.disabled, hr.base]
      rw [ha] at hnested
      exact ⟨hoff, hnested.1⟩

theorem step (h : ∀ c, FlagOk s c) (hok : SpinOk s) (hlast : LastFirst s a) (hs : SpinStep s a t) (d : Nat) :
    FlagOk t d := by
  obtain ⟨c, o⟩ := a
  by_cases hd : d = c
  · subst hd
    cases o with
    | acquire l =>
      obtain ⟨was, ha⟩ := acquired_of_step hs
      exact (h d).acquired ha
    | release l =>
      obtain ⟨b, elapsed, was, hr⟩ := released_of_step hs
      exact (h d).released hok hr hlast
    | internal =>
      cases hs with
      | internal hi => exact (h d).silent hok hi
  · cases o with
    | acquire l =>
      obtain ⟨was, ha⟩ := acquired_of_step hs
      exact (h d).other (by rw [ha.held, Function.update_of_ne hd]) (by rw [ha.pc, Function.update_of_ne hd])
        (by rw [ha.disabled]) (by rw [ha.base]) fun x _ => ha.was x.1
    | release l =>
      obtain ⟨b, elapsed, was, hr⟩ := released_of_step hs
      exact (h d).other (by rw [hr.held, Function.update_of_ne hd]) (by rw [hr.pc, Function.update_of_ne hd])
        (by rw [hr.disabled]) (by rw [hr.base]) fun x _ => hr.was x.1
    | internal =>
      cases hs with
      | internal hi =>
        have halone := silent_alone hi
        obtain ⟨hpc, hdisabled, hbase⟩ := halone.other d hd
        refine (h d).other (by rw [halone.held]) hpc hdisabled hbase fun x hx => ?_
        -- The lock of `d` is none that `c` writes to.
        refine (halone.was x.1).resolve_right fun hown => hd ?_
        exact hok.one d c x.1 (List.mem_map_of_mem hx) (hok.own c x.1 hown)

end FlagOk

theorem flagOk_of_guarded (h : spinSystem.GuardedReachable LastFirst t) : ∀ c, FlagOk t c := by
  obtain ⟨s, l, hs, hrun⟩ := h
  have hboth : SpinOk t ∧ ∀ c, FlagOk t c := by
    refine hrun.preserves (I := fun s => SpinOk s ∧ ∀ c, FlagOk s c) ?_ ⟨SpinOk.free hs, fun c => ?_⟩
    · intro s a t h hlast hstep
      exact ⟨h.1.step hstep, FlagOk.step h.2 h.1 hlast hstep⟩
    · refine ⟨?_, fun a ha => ?_, ?_⟩
      · rw [hs.held]
        trivial
      · rw [hs.held] at ha
        cases ha
      · rw [hs.pc, hs.disabled, hs.held]
        exact rfl
  exact hboth.2

/-- **Interrupts.** A core that gives its locks back in reverse order has interrupts off while it has one. When it has
none, it has the flag that it had set before. -/
theorem interrupts_off_with_lock (h : spinSystem.GuardedReachable LastFirst t) (c : Nat) :
    (t.held c ≠ [] → t.disabled c = true) ∧ (t.pc c = .out → t.held c = [] → t.disabled c = t.base c) := by
  have hflag := (flagOk_of_guarded h c).flag
  refine ⟨fun hne => ?_, fun hout hnil => ?_⟩
  · obtain ⟨a, ha⟩ := List.exists_mem_of_ne_nil _ hne
    have hoff : flagWith (t.base c) (t.held c) = true := flagWith_of_mem ha
    cases hp : t.pc c <;> rw [hp] at hflag <;> first | exact hflag.1 | exact hflag.trans hoff
  · rw [hout, hnil] at hflag
    exact hflag

theorem last_first_step (h : spinSystem.GuardedReachable LastFirst s) (hs : SpinStep s a t) (hlast : LastFirst s a) :
    spinSystem.GuardedReachable LastFirst t :=
  h.step hlast hs

theorem interrupts_off_with_two : ∃ t : Spins, t.held 0 = [(6, true), (5, false)] ∧ t.disabled 0 = true := by
  have h : spinSystem.GuardedReachable LastFirst unlocked := ⟨_, _, unlocked_free, .nil _⟩
  have h := last_first_step h (.internal (.lock (c := 0) (l := 5) rfl)) trivial
  have h := last_first_step h (.internal (.disable (c := 0) rfl)) trivial
  have h := last_first_step h (.acquire (c := 0) rfl rfl) trivial
  have h := last_first_step h (.internal (.set_was_disabled (c := 0) rfl)) trivial
  have h := last_first_step h (.internal (.set_start (c := 0) (t := 7) rfl)) trivial
  have h := last_first_step h (.internal (.lock (c := 0) (l := 6) rfl)) trivial
  have h := last_first_step h (.internal (.disable (c := 0) rfl)) trivial
  have h := last_first_step h (.acquire (c := 0) rfl rfl) trivial
  exact ⟨_, rfl, (interrupts_off_with_lock h 0).1 (List.cons_ne_nil _ _)⟩

end Kernel.Spin
