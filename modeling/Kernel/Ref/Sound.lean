import Kernel.Ref.Runs

/-!
# Soundness of the reference counts

Each count is right, and each object and each `Middle` is deleted once, by the
call that let the last reference go.
-/

namespace Kernel

open Lib

/-! ## What holds in every state -/

/-- Deleted once, or about to be by one call, if `gone`; else neither. -/
def Once (gone : Prop) (count : Nat) (pending : Nat → Prop) : Prop :=
  (¬ gone → count = 0 ∧ ∀ k, ¬ pending k) ∧
    (gone → count = 0 ∧ (∃! k, pending k) ∨ count = 1 ∧ ∀ k, ¬ pending k)

structure Sound (s : Refs) : Prop where
  strong : ∀ m, Tally (s.middle m).strong_count fun i => s.var (.strong i) = .ref m
  weak : ∀ m, Tally (s.middle m).weak_count fun i => s.var (.weak i) = .ref m
  /-- An address that is not counted is left only in a variable that a call is changing. -/
  stale : ∀ v m, s.var v = .stale m → ∃ k, (s.call k).writes v
  /-- A `Middle` points to its object until the last `StrongRef` is gone. -/
  ptr : ∀ m, m < s.next → (s.middle m).ptr = if (s.middle m).strong_count = 0 then none else some (s.object m)
  object : ∀ m, m < s.next →
    Once ((s.middle m).strong_count = 0) (s.deleted (s.object m)) fun k => (s.call k).deletes (s.object m)
  middle : ∀ m, m < s.next → Once ((s.middle m).strong_count = 0 ∧ (s.middle m).weak_count = 0) (s.freed m) fun k =>
    (s.call k).frees m
  /-- No call is about to take the lock of a deleted `Middle`. -/
  locks : ∀ k m, (s.call k).locks m → m < s.next ∧ s.freed m = 0 ∧ ∀ l, ¬ (s.call l).frees m
  /-- The assertions. -/
  remove_strong : ∀ k i m ends, s.call k = .remove_strong i m ends → 0 < (s.middle m).strong_count
  remove_weak : ∀ k i m ends, s.call k = .remove_weak i m ends → 0 < (s.middle m).weak_count

/-- What a step may do. -/
structure SoundStep (s : Refs) (a : RefOp) (t : Refs) : Prop where
  /-- A call is to delete an object of a `Middle` once its section took the last `StrongRef`. -/
  deletes : ∀ k m, m < s.next → ¬ (s.call k).deletes (s.object m) → (t.call k).deletes (s.object m) →
    a = .lock k ∧ ∃ i ends, s.call k = .remove_strong i m ends ∧ (s.middle m).strong_count = 1
  frees : ∀ k m, ¬ (s.call k).frees m → (t.call k).frees m → a = .lock k ∧
    ((∃ i ends, s.call k = .remove_strong i m ends ∧ (s.middle m).strong_count = 1 ∧ (s.middle m).weak_count = 0) ∨
      ∃ i ends, s.call k = .remove_weak i m ends ∧ (s.middle m).weak_count = 1 ∧ (s.middle m).strong_count = 0)
  /-- Only such a call deletes it. -/
  deleted : ∀ o, t.deleted o ≠ s.deleted o → ∃ k, a = .delete_object k ∧ (s.call k).deletes o
  freed : ∀ m, t.freed m ≠ s.freed m → ∃ k, a = .delete_middle k ∧ (s.call k).frees m
  /-- A `WeakRef` gives a null `StrongRef` when the object is gone, and else one to the same object. -/
  promote : ∀ k i j m, a = .lock k → s.call k = .add_strong i (.weak j) m →
    t.var (.strong i) = if (s.middle m).ptr = none then .null else .ref m

section

variable {s t : Refs} {a : RefOp} {owner : Nat → Owner} {fate : Nat → Fate}

theorem RefInv.live (h : RefInv s owner fate) {m : Nat} (hm : fate m = .live) :
    m < s.next ∧ s.freed m = 0 ∧ ∀ l, ¬ (s.call l).frees m := by
  refine ⟨?_, ?_, fun l hl => ?_⟩
  · by_contra hle
    rw [(h.middles.unmade m).mpr (by omega)] at hm
    cases hm
  · rw [h.middles.freed, if_neg (by rw [hm]; simp)]
  · rw [(h.middles.call l m).mp hl] at hm
    cases hm

theorem RefInv.live_ref (h : RefInv s owner fate) {v : Ref} {m : Nat} (hv : v.shared) (hm : s.var v = .ref m) :
    fate m = .live := by
  cases v with
  | strong i => exact (h.middles.live m).mpr (Or.inl (h.strong.pos hm))
  | weak i => exact (h.middles.live m).mpr (Or.inr (h.weak.pos hm))
  | unique j => exact hv.elim

theorem RefInv.objectOwner (h : RefInv s owner fate) {m : Nat} (hm : m < s.next) :
    owner (s.object m) = .middle m ∨ (∃ k, owner (s.object m) = .call k) ∨ owner (s.object m) = .gone := by
  by_cases hzero : (s.middle m).strong_count = 0
  · exact Or.inr (h.objects.past m hm hzero)
  · obtain ⟨o, hptr⟩ := Option.ne_none_iff_exists'.mp (mt (h.objects.count m).mp hzero)
    rw [h.objects.object m o hptr]
    exact Or.inl ((h.objects.ptr m o).mp hptr)

theorem RefInv.object (h : RefInv s owner fate) {m : Nat} (hm : m < s.next) :
    Once ((s.middle m).strong_count = 0) (s.deleted (s.object m)) fun k => (s.call k).deletes (s.object m) := by
  have ho := h.objects
  constructor
  · intro hpos
    obtain ⟨o, hptr⟩ := Option.ne_none_iff_exists'.mp (mt (ho.count m).mp hpos)
    have howner := (ho.ptr m o).mp hptr
    rw [ho.object m o hptr, ho.deleted, howner]
    refine ⟨rfl, fun k hk => ?_⟩
    rw [(ho.call k o).mp hk] at howner
    cases howner
  · intro hzero
    rcases ho.past m hm hzero with ⟨k, hk⟩ | hgone
    · refine Or.inl ⟨by rw [ho.deleted, hk]; rfl, k, (ho.call k _).mpr hk, fun l hl => ?_⟩
      have hl' := (ho.call l _).mp hl
      rw [hk] at hl'
      exact (Owner.call.inj hl').symm
    · refine Or.inr ⟨by rw [ho.deleted, if_pos hgone], fun k hk => ?_⟩
      rw [(ho.call k _).mp hk] at hgone
      cases hgone

theorem RefInv.middle (h : RefInv s owner fate) {m : Nat} (hm : m < s.next) :
    Once ((s.middle m).strong_count = 0 ∧ (s.middle m).weak_count = 0) (s.freed m) fun k => (s.call k).frees m := by
  have hf := h.middles
  constructor
  · intro hpos
    exact (h.live ((hf.live m).mpr (by omega))).2
  · rintro ⟨hs, hw⟩
    cases hfate : fate m with
    | unmade => exact absurd ((hf.unmade m).mp hfate) (by omega)
    | live => exact absurd ((hf.live m).mp hfate) (by omega)
    | call k =>
      refine Or.inl ⟨by rw [hf.freed, hfate]; rfl, k, (hf.call k m).mpr hfate, fun l hl => ?_⟩
      have hl' := (hf.call l m).mp hl
      rw [hfate] at hl'
      exact (Fate.call.inj hl').symm
    | gone =>
      refine Or.inr ⟨by rw [hf.freed, if_pos hfate], fun k hk => ?_⟩
      rw [(hf.call k m).mp hk] at hfate
      cases hfate

theorem RefInv.locks (h : RefInv s owner fate) {k m : Nat} (hk : (s.call k).locks m) : fate m = .live := by
  have hcall := h.vars.calls k
  cases hc : s.call k with
  | add_strong i other n =>
    rw [hc] at hk hcall
    obtain rfl := hk
    exact h.live_ref hcall.2.2 hcall.2.1
  | add_weak i other n =>
    rw [hc] at hk hcall
    obtain rfl := hk
    exact h.live_ref hcall.2.2 hcall.2.1
  | remove_strong i n ends =>
    rw [hc] at hk hcall
    obtain rfl := hk
    exact h.live_ref (v := .strong i) trivial hcall
  | remove_weak i n ends =>
    rw [hc] at hk hcall
    obtain rfl := hk
    exact h.live_ref (v := .weak i) trivial hcall
  | idle => rw [hc] at hk; exact hk.elim
  | after v d f e => rw [hc] at hk; exact hk.elim

theorem RefInv.sound (h : RefInv s owner fate) : Sound s where
  strong := h.strong
  weak := h.weak
  stale := h.vars.stale
  ptr m hm := by
    split_ifs with hzero
    · exact (h.objects.count m).mpr hzero
    · obtain ⟨o, hptr⟩ := Option.ne_none_iff_exists'.mp (mt (h.objects.count m).mp hzero)
      rw [hptr, h.objects.object m o hptr]
  object m hm := h.object hm
  middle m hm := h.middle hm
  locks k m hk := h.live (h.locks hk)
  remove_strong k i m ends hk := by
    have hi := h.vars.calls k
    rw [hk] at hi
    exact h.strong.pos hi
  remove_weak k i m ends hk := by
    have hi := h.vars.calls k
    rw [hk] at hi
    exact h.weak.pos hi

/-! ## Steps -/

theorem Refs.enter_deletes {k l o : Nat} {c : Call} (h : ((s.enter l c).call k).deletes o) :
    (s.call k).deletes o ∨ k = l ∧ c.deletes o := by
  rw [enter_call] at h
  split_ifs at h with hk
  · exact Or.inr ⟨hk, h⟩
  · exact Or.inl h

theorem Refs.enter_frees {k l m : Nat} {c : Call} (h : ((s.enter l c).call k).frees m) :
    (s.call k).frees m ∨ k = l ∧ c.frees m := by
  rw [enter_call] at h
  split_ifs at h with hk
  · exact Or.inr ⟨hk, h⟩
  · exact Or.inl h

/-- Where a call gets an object to delete from: a raw pointer, a `UniqueRef` or the last `StrongRef`. -/
theorem RefStep.deletes (hc : Careful s a) (hs : RefStep s a t) {k o : Nat} (hk : (t.call k).deletes o) :
    (s.call k).deletes o ∨ s.given o = false ∨ (∃ j, s.var (.unique j) = .ref o) ∨
      a = .lock k ∧ ∃ i m ends, s.call k = .remove_strong i m ends ∧ (s.middle m).strong_count = 1 ∧
        (s.middle m).ptr = some o := by
  cases hs with
  | null _ => exact Or.inl hk
  | strong_ptr _ => exact Or.inl hk
  | unique_ptr _ => exact Or.inl hk
  | strong_unique _ _ _ => exact Or.inl hk
  | unique_unique _ _ _ => exact Or.inl hk
  | drop_null _ _ => exact Or.inl hk
  | strong_copy _ _ _ _ => exact Or.inl ((Refs.enter_deletes hk).resolve_right fun h => h.2)
  | weak_copy _ _ _ _ => exact Or.inl ((Refs.enter_deletes hk).resolve_right fun h => h.2)
  | drop_strong _ _ _ => exact Or.inl ((Refs.enter_deletes hk).resolve_right fun h => h.2)
  | drop_weak _ _ _ => exact Or.inl ((Refs.enter_deletes hk).resolve_right fun h => h.2)
  | add_strong _ _ => exact Or.inl ((Refs.enter_deletes hk).resolve_right fun h => h.2)
  | add_weak _ _ => exact Or.inl ((Refs.enter_deletes hk).resolve_right fun h => h.2)
  | finish _ => exact Or.inl ((Refs.enter_deletes hk).resolve_right fun h => h.2)
  | weak_ptr _ _ =>
    refine (Refs.enter_deletes hk).imp id fun ⟨_, h⟩ => Or.inl ?_
    rw [← Option.some.inj h]
    exact hc
  | @weak_unique l i j p _ _ _ hj =>
    refine (Refs.enter_deletes hk).imp id fun ⟨_, h⟩ => Or.inr (Or.inl ⟨j, ?_⟩)
    rw [← Option.some.inj h]
    exact hj
  | @drop_unique l i p ends _ _ hv =>
    refine (Refs.enter_deletes hk).imp id fun ⟨_, h⟩ => Or.inr (Or.inl ⟨i, ?_⟩)
    rw [← Option.some.inj h]
    exact hv
  | delete_object _ => exact Or.inl ((Refs.enter_deletes hk).resolve_right fun h => by cases h.2)
  | delete_middle _ => exact Or.inl ((Refs.enter_deletes hk).resolve_right fun h => by cases h.2)
  | remove_weak _ _ => exact Or.inl ((Refs.enter_deletes hk).resolve_right fun h => by cases h.2)
  | @remove_strong l i m ends delete_m x del_ptr hl hx =>
    refine (Refs.enter_deletes hk).imp id fun ⟨hkl, h⟩ => Or.inr (Or.inr ?_)
    have hdel : del_ptr = some o := h
    unfold Middle.remove_strong at hx
    dsimp only at hx
    split_ifs at hx with hpos hzero
    · obtain ⟨-, hptr, -⟩ : _ ∧ _ ∧ _ := by simpa using hx
      exact ⟨by rw [hkl], i, m, ends, by rw [hkl]; exact hl, by omega, hptr.trans hdel⟩
    · obtain ⟨-, hptr, -⟩ : _ ∧ _ ∧ _ := by simpa using hx
      rw [← hptr] at hdel
      cases hdel

/-- Where a call gets a `Middle` to delete from. -/
theorem RefStep.frees (hs : RefStep s a t) {k m : Nat} (hk : (t.call k).frees m) :
    (s.call k).frees m ∨ a = .lock k ∧
      ((∃ i ends, s.call k = .remove_strong i m ends ∧ (s.middle m).strong_count = 1 ∧ (s.middle m).weak_count = 0) ∨
        ∃ i ends, s.call k = .remove_weak i m ends ∧ (s.middle m).weak_count = 1 ∧ (s.middle m).strong_count = 0) := by
  cases hs with
  | null _ => exact Or.inl hk
  | strong_ptr _ => exact Or.inl hk
  | unique_ptr _ => exact Or.inl hk
  | strong_unique _ _ _ => exact Or.inl hk
  | unique_unique _ _ _ => exact Or.inl hk
  | drop_null _ _ => exact Or.inl hk
  | strong_copy _ _ _ _ => exact Or.inl ((Refs.enter_frees hk).resolve_right fun h => h.2)
  | weak_copy _ _ _ _ => exact Or.inl ((Refs.enter_frees hk).resolve_right fun h => h.2)
  | drop_strong _ _ _ => exact Or.inl ((Refs.enter_frees hk).resolve_right fun h => h.2)
  | drop_weak _ _ _ => exact Or.inl ((Refs.enter_frees hk).resolve_right fun h => h.2)
  | add_strong _ _ => exact Or.inl ((Refs.enter_frees hk).resolve_right fun h => h.2)
  | add_weak _ _ => exact Or.inl ((Refs.enter_frees hk).resolve_right fun h => h.2)
  | finish _ => exact Or.inl ((Refs.enter_frees hk).resolve_right fun h => h.2)
  | weak_ptr _ _ => exact Or.inl ((Refs.enter_frees hk).resolve_right fun h => by cases h.2)
  | weak_unique _ _ _ _ => exact Or.inl ((Refs.enter_frees hk).resolve_right fun h => by cases h.2)
  | drop_unique _ _ _ => exact Or.inl ((Refs.enter_frees hk).resolve_right fun h => by cases h.2)
  | delete_middle _ => exact Or.inl ((Refs.enter_frees hk).resolve_right fun h => by cases h.2)
  | delete_object hl =>
    refine Or.inl ((Refs.enter_frees hk).elim id fun ⟨hkl, h⟩ => ?_)
    rw [hkl, hl]
    exact h
  | @remove_strong l i n ends delete_m x del_ptr hl hx =>
    refine (Refs.enter_frees hk).imp id fun ⟨hkl, h⟩ => ⟨by rw [hkl], Or.inl ?_⟩
    have hfree : (if delete_m then some n else none) = some m := h
    split_ifs at hfree with hdelete
    obtain rfl := Option.some.inj hfree
    unfold Middle.remove_strong at hx
    dsimp only at hx
    split_ifs at hx with hpos hzero
    · obtain ⟨-, -, hweak⟩ : _ ∧ _ ∧ _ := by simpa using hx
      rw [hdelete, decide_eq_true_iff] at hweak
      exact ⟨i, ends, by rw [hkl]; exact hl, by omega, hweak⟩
    · obtain ⟨-, -, hweak⟩ : _ ∧ _ ∧ _ := by simpa using hx
      simp [hdelete] at hweak
  | @remove_weak l i n ends delete_m x hl hx =>
    refine (Refs.enter_frees hk).imp id fun ⟨hkl, h⟩ => ⟨by rw [hkl], Or.inr ?_⟩
    have hfree : (if delete_m then some n else none) = some m := h
    split_ifs at hfree with hdelete
    obtain rfl := Option.some.inj hfree
    unfold Middle.remove_weak at hx
    dsimp only at hx
    split_ifs at hx with hpos
    obtain ⟨-, hzero⟩ : _ ∧ _ := by simpa using hx
    simp only [hdelete, Bool.and_eq_true, decide_eq_true_eq] at hzero
    exact ⟨i, ends, by rw [hkl]; exact hl, by omega, hzero.2⟩

theorem RefStep.deleted (hs : RefStep s a t) {o : Nat} (h : t.deleted o ≠ s.deleted o) :
    ∃ k, a = .delete_object k ∧ (s.call k).deletes o := by
  cases hs with
  | @delete_object k p v delete_m ends hk =>
    refine ⟨k, rfl, ?_⟩
    by_cases hp : o = p
    · rw [hk, hp]
      rfl
    · exact absurd (if_neg hp) h
  | _ => exact absurd rfl h

theorem RefStep.freed (hs : RefStep s a t) {m : Nat} (h : t.freed m ≠ s.freed m) :
    ∃ k, a = .delete_middle k ∧ (s.call k).frees m := by
  cases hs with
  | @delete_middle k n v ends hk =>
    refine ⟨k, rfl, ?_⟩
    by_cases hn : m = n
    · rw [hk, hn]
      rfl
    · exact absurd (if_neg hn) h
  | _ => exact absurd rfl h

theorem RefInv.promote (h : RefInv s owner fate) {k i m : Nat} {other : Ref} (hs : RefStep s (.lock k) t)
    (hk : s.call k = .add_strong i other m) :
    t.var (.strong i) = if (s.middle m).ptr = none then .null else .ref m := by
  have hcount := h.objects.count m
  cases hs with
  | @add_strong k' i' m' other' x ok hk' hx =>
    rw [hk] at hk'
    obtain ⟨rfl, rfl, rfl⟩ := Call.add_strong.inj hk'
    simp only [Refs.enter, Refs.put_var, if_true]
    unfold Middle.add_strong at hx
    split_ifs at hx with hpos <;> obtain ⟨-, rfl⟩ := Prod.mk.inj hx
    · rw [if_neg (mt hcount.mp (by omega))]
      rfl
    · rw [if_pos (hcount.mpr (by omega))]
      rfl
  | add_weak hk' _ => rw [hk] at hk'; cases hk'
  | remove_strong hk' _ => rw [hk] at hk'; cases hk'
  | remove_weak hk' _ => rw [hk] at hk'; cases hk'

theorem RefInv.soundStep (h : RefInv s owner fate) (hc : Careful s a) (hs : RefStep s a t) : SoundStep s a t where
  deletes k m hm hnot hk := by
    have howner := h.objectOwner hm
    rcases hs.deletes hc hk with hold | hgiven | ⟨j, hj⟩ | ⟨ha, i, n, ends, hcall, hone, hptr⟩
    · exact absurd hold hnot
    · rw [(h.objects.given _).mpr hgiven] at howner
      simp at howner
    · rw [(h.objects.unique j _).mp hj] at howner
      simp at howner
    · rw [(h.objects.ptr n _).mp hptr] at howner
      obtain rfl : n = m := by simpa using howner
      exact ⟨ha, i, ends, hcall, hone⟩
  frees k m hnot hk := (hs.frees hk).resolve_left hnot
  deleted o ho := hs.deleted ho
  freed m hm := hs.freed hm
  promote k i j m ha hk := by
    rw [ha] at hs
    exact h.promote hs hk

/-! ## Runs -/

theorem NoRefs.inv (h : NoRefs s) : RefInv s (fun _ => .nobody) fun _ => .unmade := by
  obtain ⟨hvar, hcall, hmiddle, hnext, hdeleted, hfreed, hgiven⟩ := h
  refine ⟨⟨?_, ?_, ?_, ?_⟩, ?_, ?_, ?_, ?_⟩
  · simp [hcall, CallOk]
  · simp [hvar]
  · simp [hcall, Call.writes]
  · simp [hcall, Call.reads]
  · intro m
    rw [hmiddle]
    exact Tally.empty (by simp [hvar])
  · intro m
    rw [hmiddle]
    exact Tally.empty (by simp [hvar])
  · constructor <;> simp [hvar, hcall, hmiddle, hnext, hdeleted, hgiven, Call.deletes]
  · constructor <;> simp [hcall, hmiddle, hnext, hfreed, Call.frees]

theorem refInv_of_careful (h : System.GuardedReachable refSystem Careful s) : ∃ owner fate, RefInv s owner fate := by
  obtain ⟨s₀, l, hinit, hrun⟩ := h
  refine hrun.preserves (I := fun s => ∃ owner fate, RefInv s owner fate) ?_ ⟨_, _, NoRefs.inv hinit⟩
  rintro s a t ⟨owner, fate, hs⟩ hc hstep
  exact hs.step hc hstep

/-- **Reference counts.** They are sound in every run in which raw pointers are to objects of their own and no variable
is copied while a call changes it. -/
theorem refs_sound (h : System.GuardedReachable refSystem Careful s) :
    Sound s ∧ ∀ a t, Careful s a → RefStep s a t → SoundStep s a t := by
  obtain ⟨owner, fate, hinv⟩ := refInv_of_careful h
  exact ⟨hinv.sound, fun a t hc hs => hinv.soundStep hc hs⟩

end

/-! ## Runs of two calls -/

def noRefs : Refs where
  middle _ := ⟨none, 0, 0⟩
  next := 0
  var _ := .none
  call _ := .idle
  object _ := 0
  deleted _ := 0
  freed _ := 0
  given _ := false

theorem noRefs_init : refSystem.init noRefs :=
  ⟨fun _ => rfl, fun _ => rfl, fun _ => rfl, rfl, fun _ => rfl, fun _ => rfl, fun _ => rfl⟩

theorem noRefs_idle (v : Ref) (k : Nat) : ¬ (noRefs.call k).writes v := fun h => h

/-- One `StrongRef` to one object. -/
def oneRef : Refs := (noRefs.give 0).make 0 0

theorem oneRef_step : RefStep noRefs (.strong_ptr 0 0) oneRef := .strong_ptr ⟨rfl, noRefs_idle _⟩

theorem oneRef_careful : System.GuardedReachable refSystem Careful oneRef :=
  System.GuardedReachable.step ⟨noRefs, [], noRefs_init, .nil _⟩ (a := .strong_ptr 0 0) rfl oneRef_step

/-- The only reference to a `Middle` is set to null, by call 0: the states in which the object and the `Middle` are
deleted, with the variable still as it was. -/
theorem drop_deletes {s : Refs} {i m o : Nat} (hidle : s.call 0 = .idle) (hquiet : s.Quiet (.strong i))
    (hi : s.var (.strong i) = .ref m) (hm : s.middle m = ⟨some o, 1, 0⟩) :
    ∃ t u, refSystem.Run s [.drop 0 (.strong i) false, .lock 0, .delete_object 0] t ∧ RefStep t (.delete_middle 0) u ∧
      t.deleted o = s.deleted o + 1 ∧ u.freed m = s.freed m + 1 ∧
      (∀ v, t.var v = u.var v ∧ u.var v = if v = .strong i then .stale m else s.var v) ∧
      (∀ n, n ≠ m → t.middle n = s.middle n) ∧
      ∀ k, u.call k = if k = 0 then .after (.strong i) none none false else s.call k := by
  let s₁ := s.enter 0 (.remove_strong i m false)
  let s₂ := ((s₁.setMiddle m ⟨none, 0, 0⟩).put (.strong i) (.stale m)).enter 0
    (.after (.strong i) (some o) (some m) false)
  have hdrop : RefStep s (.drop 0 (.strong i) false) s₁ := .drop_strong hquiet hidle hi
  have hremove : (s₁.middle m).remove_strong = some (⟨none, 0, 0⟩, some o, true) := by
    show (s.middle m).remove_strong = _
    rw [hm]
    rfl
  have hlock : RefStep s₁ (.lock 0) s₂ := RefStep.remove_strong rfl hremove
  have hobject : RefStep s₂ (.delete_object 0) _ := RefStep.delete_object rfl
  refine ⟨_, _, (((System.Run.nil s).snoc hdrop).snoc hlock).snoc hobject, .delete_middle rfl, if_pos rfl, if_pos rfl,
    fun v => ⟨rfl, rfl⟩, fun n hn => if_neg hn, fun k => ?_⟩
  simp only [s₂, s₁, Refs.enter, Refs.put, Refs.setMiddle]
  split_ifs <;> rfl

/-- A variable is made as a copy of one that no call changes, by call 1, and ends again. -/
theorem copy_ends : ∃ s t, System.GuardedReachable refSystem Careful s ∧ System.GuardedReachable refSystem Careful t ∧
    s.middle 0 = ⟨some 0, 2, 0⟩ ∧ s.var (.strong 1) = .ref 0 ∧ t.middle 0 = ⟨some 0, 1, 0⟩ ∧
    t.var (.strong 0) = .ref 0 ∧ t.deleted 0 = 0 ∧ ∀ k, t.call k = .idle := by
  let s₁ := oneRef.enter 1 (.add_strong 1 (.strong 0) 0)
  let s₂ := ((s₁.setMiddle 0 ⟨some 0, 2, 0⟩).put (.strong 1) (.ref 0)).enter 1 .idle
  let s₃ := s₂.enter 1 (.remove_strong 1 0 true)
  let s₄ := ((s₃.setMiddle 0 ⟨some 0, 1, 0⟩).put (.strong 1) (.stale 0)).enter 1 (.after (.strong 1) none none true)
  let s₅ := (s₄.put (.strong 1) .none).enter 1 .idle
  have hidle : ∀ k, s₂.call k = .idle := by
    intro k
    simp only [s₂, s₁, Refs.enter, Refs.put, Refs.setMiddle]
    split_ifs <;> rfl
  have hcopy : RefStep oneRef (.strong_copy 1 1 (.strong 0)) s₁ :=
    .strong_copy ⟨rfl, noRefs_idle _⟩ rfl trivial (Or.inl rfl)
  have hadd : RefStep s₁ (.lock 1) s₂ := @RefStep.add_strong s₁ _ _ _ _ _ true rfl rfl
  have hdrop : RefStep s₂ (.drop 1 (.strong 1) true) s₃ :=
    .drop_strong (fun k hk => by rwa [hidle] at hk) (hidle 1) rfl
  have hremove : RefStep s₃ (.lock 1) s₄ :=
    @RefStep.remove_strong s₃ _ _ _ _ false _ none rfl rfl
  have hfinish : RefStep s₄ (.finish 1) s₅ := @RefStep.finish s₄ _ _ true rfl
  have hquiet : Careful oneRef (.strong_copy 1 1 (.strong 0)) := noRefs_idle _
  have hunread : Careful s₂ (.drop 1 (.strong 1) true) := fun k hk => by rwa [hidle] at hk
  have hs₂ := (oneRef_careful.step hquiet hcopy).step (by exact trivial) hadd
  have hs₄ := (hs₂.step hunread hdrop).step (by exact trivial) hremove
  refine ⟨s₂, s₅, hs₂, hs₄.step (by exact trivial) hfinish, rfl, rfl, rfl, rfl, rfl, fun k => ?_⟩
  simp only [s₅, s₄, s₃, Refs.enter, Refs.put, Refs.setMiddle]
  split_ifs <;> first | rfl | exact hidle k

/-- The only `StrongRef` is copied, and the two are released: the object is deleted by the second release. -/
theorem twoRefs_sound : ∃ s t u, (Sound s ∧ (s.middle 0).strong_count = 2) ∧
    (Sound t ∧ (t.middle 0).strong_count = 1 ∧ t.deleted 0 = 0) ∧ Sound u ∧ u.deleted 0 = 1 := by
  obtain ⟨s, t, hs, ht, hcount, -, hmiddle, hvar, hkept, hidle⟩ := copy_ends
  obtain ⟨u, -, hrun, -, hdeleted, -⟩ := drop_deletes (hidle 0) (fun k hk => by rwa [hidle] at hk) hvar hmiddle
  have hu := ht.run (hrun.guarded (fun a ha => by
    obtain rfl := Option.some.inj ha
    intro k hk
    rwa [hidle] at hk) (by simp [Careful]))
  refine ⟨s, t, u, ⟨(refs_sound hs).1, by rw [hcount]⟩, ⟨(refs_sound ht).1, by rw [hmiddle], hkept⟩,
    (refs_sound hu).1, ?_⟩
  rw [hdeleted, hkept]

/-- A variable is copied after the assignment of null has deleted the `Middle` and before it stores the null; and of two
`StrongRef`s made from one raw pointer, the first that ends deletes the object that the other has. -/
theorem refs_unsound : (∃ s, System.Reachable refSystem s ∧ (s.call 1).locks 0 ∧ s.freed 0 = 1) ∧
    ∃ s, System.Reachable refSystem s ∧ s.var (.strong 1) = .ref 1 ∧ (s.middle 1).ptr = some 0 ∧ s.deleted 0 = 1 := by
  constructor
  · obtain ⟨t, u, hrun, hdelete, -, hfreed, hvar, -, hcall⟩ :=
      drop_deletes (s := oneRef) (i := 0) (m := 0) (o := 0) rfl (noRefs_idle _) rfl rfl
    have hquiet : u.Quiet (.strong 1) := by
      intro k hk
      rw [hcall] at hk
      split_ifs at hk
      · cases hk
      · exact hk
    have hcopy : RefStep u (.strong_copy 1 1 (.strong 0)) (u.enter 1 (.add_strong 1 (.strong 0) 0)) :=
      .strong_copy ⟨(hvar _).2, hquiet⟩ (hcall 1) trivial (Or.inr (hvar _).2)
    exact ⟨_, ((oneRef_careful.reachable.run hrun).step hdelete).step hcopy, rfl, hfreed⟩
  · have htwo : RefStep oneRef (.strong_ptr 1 0) ((oneRef.give 0).make 1 0) := .strong_ptr ⟨rfl, noRefs_idle _⟩
    obtain ⟨t, u, hrun, -, hdeleted, -, hvar, hmiddle, -⟩ :=
      drop_deletes (s := (oneRef.give 0).make 1 0) (i := 0) (m := 0) (o := 0) rfl (noRefs_idle _) rfl rfl
    refine ⟨t, (oneRef_careful.reachable.step htwo).run hrun, ?_, ?_, hdeleted⟩
    · rw [(hvar _).1, (hvar _).2]
      rfl
    · rw [hmiddle 1 (by omega)]
      rfl

end Kernel
