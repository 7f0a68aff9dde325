import Kernel.Ref.Code

/-!
# References in every run

What the variables and the calls on them have to do with each other, and what
that makes of the counts.
-/

namespace Kernel

open Lib

section

variable {s t : Refs} {a : RefOp} {v : Ref} {x : RefVar} {k : Nat}

@[simp] theorem Refs.put_var (s : Refs) (v : Ref) (x : RefVar) (w : Ref) :
    (s.put v x).var w = if w = v then x else s.var w := rfl
@[simp] theorem Refs.enter_call (s : Refs) (k : Nat) (c : Call) (l : Nat) :
    (s.enter k c).call l = if l = k then c else s.call l := rfl
@[simp] theorem Refs.setMiddle_middle (s : Refs) (m : Nat) (x : Middle) (n : Nat) :
    (s.setMiddle m x).middle n = if n = m then x else s.middle n := rfl

theorem slotAfter_ne (ends : Bool) (m : Nat) : slotAfter ends ≠ .ref m ∧ slotAfter ends ≠ .stale m := by
  cases ends <;> simp [slotAfter]

/-! ## Variables and calls -/

/-- What a call knows of the variables it works on. -/
def CallOk (var : Ref → RefVar) : Call → Prop
  | .idle => True
  | .add_strong i other m => var (.strong i) = .none ∧ var other = .ref m ∧ other.shared
  | .add_weak i other m => var (.weak i) = .none ∧ var other = .ref m ∧ other.shared
  | .remove_strong i m _ => var (.strong i) = .ref m
  | .remove_weak i m _ => var (.weak i) = .ref m
  | .after v _ _ _ => ∀ m, var v ≠ .ref m

theorem CallOk.congr {var var' : Ref → RefVar} {c : Call} (h : CallOk var c)
    (hvar : ∀ v, c.writes v ∨ c.reads v → var' v = var v) : CallOk var' c := by
  cases c with
  | idle => trivial
  | add_strong i other m => exact ⟨(hvar _ (Or.inl rfl)).trans h.1, (hvar _ (Or.inr rfl)).trans h.2.1, h.2.2⟩
  | add_weak i other m => exact ⟨(hvar _ (Or.inl rfl)).trans h.1, (hvar _ (Or.inr rfl)).trans h.2.1, h.2.2⟩
  | remove_strong i m ends => exact (hvar _ (Or.inl rfl)).trans h
  | remove_weak i m ends => exact (hvar _ (Or.inl rfl)).trans h
  | after v del_ptr delete_m ends => exact fun m hm => h m ((hvar _ (Or.inl rfl)).symm.trans hm)

theorem CallOk.reads {var : Ref → RefVar} {c : Call} (h : CallOk var c) (hr : c.reads v) :
    v.shared ∧ ∃ m, var v = .ref m := by
  cases c with
  | add_strong i other m => obtain rfl := hr; exact ⟨h.2.2, m, h.2.1⟩
  | add_weak i other m => obtain rfl := hr; exact ⟨h.2.2, m, h.2.1⟩
  | _ => exact hr.elim

structure VarsOk (s : Refs) : Prop where
  calls : ∀ k, CallOk s.var (s.call k)
  stale : ∀ v m, s.var v = .stale m → ∃ k, (s.call k).writes v
  apart : ∀ k l v, (s.call k).writes v → (s.call l).writes v → k = l
  readers : ∀ k l v, (s.call k).reads v → ¬ (s.call l).writes v

theorem VarsOk.congr (h : VarsOk s) (hvar : t.var = s.var) (hcall : t.call = s.call) : VarsOk t := by
  obtain ⟨h1, h2, h3, h4⟩ := h
  rw [← hvar, ← hcall] at *
  exact ⟨h1, h2, h3, h4⟩

theorem VarsOk.room (h : VarsOk s) (hv : s.Room v) (k : Nat) : ¬ (s.call k).reads v := by
  intro hr
  obtain ⟨-, m, hm⟩ := (h.calls k).reads hr
  rw [hv.1] at hm
  cases hm

theorem VarsOk.counted (h : VarsOk s) {m : Nat} (hv : s.Quiet v) (hread : s.var v = .ref m ∨ s.var v = .stale m) :
    s.var v = .ref m := by
  refine hread.resolve_right fun hm => ?_
  obtain ⟨k, hk⟩ := h.stale v m hm
  exact hv k hk

theorem VarsOk.unique (h : VarsOk s) (j k : Nat) : ¬ (s.call k).reads (.unique j) :=
  fun hr => ((h.calls k).reads hr).1

theorem VarsOk.put (h : VarsOk s) (hw : s.Quiet v) (hr : ∀ k, ¬ (s.call k).reads v) (hx : ∀ m, x ≠ .stale m) :
    VarsOk (s.put v x) where
  calls k := (h.calls k).congr fun w hw' => by
    rw [Refs.put_var, if_neg]
    rintro rfl
    exact hw'.elim (hw k) (hr k)
  stale w m hm := by
    rw [Refs.put_var] at hm
    split_ifs at hm
    · exact absurd hm (hx m)
    · exact h.stale w m hm
  apart := h.apart
  readers := h.readers

theorem VarsOk.move (h : VarsOk s) (k : Nat) (W : Ref → Prop) (hcall : ∀ l, l ≠ k → t.call l = s.call l)
    (hvar : ∀ v, ¬ W v → t.var v = s.var v)
    (hW : ∀ v, W v → ∀ l, l ≠ k → ¬ (s.call l).writes v ∧ ¬ (s.call l).reads v) (hk : CallOk t.var (t.call k))
    (hwrites : ∀ v, (t.call k).writes v → ∀ l, l ≠ k → ¬ (s.call l).writes v ∧ ¬ (s.call l).reads v)
    (hreads : ∀ v, (t.call k).reads v → ¬ (t.call k).writes v ∧ ∀ l, l ≠ k → ¬ (s.call l).writes v)
    (hstale : ∀ v m, t.var v = .stale m → W v ∨ (s.call k).writes v → (t.call k).writes v) : VarsOk t where
  calls l := by
    by_cases hl : l = k
    · rw [hl]
      exact hk
    · rw [hcall l hl]
      refine (h.calls l).congr fun v hv => hvar v fun hWv => ?_
      exact hv.elim (hW v hWv l hl).1 (hW v hWv l hl).2
  stale v m hm := by
    by_cases hv : W v ∨ (s.call k).writes v
    · exact ⟨k, hstale v m hm hv⟩
    · rw [hvar v fun hWv => hv (Or.inl hWv)] at hm
      obtain ⟨l, hl⟩ := h.stale v m hm
      have hlk : l ≠ k := fun e => hv (Or.inr (e ▸ hl))
      exact ⟨l, by rw [hcall l hlk]; exact hl⟩
  apart l l' v hl hl' := by
    by_cases hlk : l = k
    · by_cases hlk' : l' = k
      · rw [hlk, hlk']
      · rw [hcall l' hlk'] at hl'
        rw [hlk] at hl
        exact absurd hl' (hwrites v hl l' hlk').1
    · rw [hcall l hlk] at hl
      by_cases hlk' : l' = k
      · rw [hlk'] at hl'
        exact absurd hl (hwrites v hl' l hlk).1
      · rw [hcall l' hlk'] at hl'
        exact h.apart l l' v hl hl'
  readers l l' v hl hl' := by
    by_cases hlk : l = k
    · rw [hlk] at hl
      by_cases hlk' : l' = k
      · rw [hlk'] at hl'
        exact (hreads v hl).1 hl'
      · rw [hcall l' hlk'] at hl'
        exact (hreads v hl).2 l' hlk' hl'
    · rw [hcall l hlk] at hl
      by_cases hlk' : l' = k
      · rw [hlk'] at hl'
        exact (hwrites v hl' l hlk).2 hl
      · rw [hcall l' hlk'] at hl'
        exact h.readers l l' v hl hl'

theorem VarsOk.own (h : VarsOk s) {c : Call} (hv : (s.call k).writes v) (honly : ∀ w, (s.call k).writes w → w = v)
    (hcall : t.call = (s.enter k c).call) (hvar : t.var = (s.put v x).var) (hc : CallOk t.var c)
    (hwrites : ∀ w, c.writes w → w = v) (hreads : ∀ w, ¬ c.reads w) (hx : ∀ m, x = .stale m → c.writes v) :
    VarsOk t := by
  have hother : ∀ w, w = v → ∀ l, l ≠ k → ¬ (s.call l).writes w ∧ ¬ (s.call l).reads w := by
    rintro w rfl l hl
    exact ⟨fun hw => hl (h.apart l k w hw hv), fun hr => h.readers l k w hr hv⟩
  have hk : t.call k = c := by rw [hcall, Refs.enter_call, if_pos rfl]
  refine h.move k (· = v) (fun l hl => ?_) (fun w hw => ?_) hother ?_ (fun w hw => ?_) (fun w hr => ?_)
    fun w m hm hw => ?_
  · rw [hcall, Refs.enter_call, if_neg hl]
  · rw [hvar, Refs.put_var, if_neg hw]
  · rw [hk]
    exact hc
  · rw [hk] at hw
    exact hother w (hwrites w hw)
  · rw [hk] at hr
    exact absurd hr (hreads w)
  · obtain rfl : w = v := hw.elim id (honly w)
    rw [hvar, Refs.put_var, if_pos rfl] at hm
    rw [hk]
    exact hx m hm

theorem VarsOk.start (h : VarsOk s) {c : Call} (hidle : s.call k = .idle) (hv : s.Quiet v)
    (hr : ∀ l, ¬ (s.call l).reads v) (hcall : t.call = (s.enter k c).call) (hvar : t.var = (s.put v x).var)
    (hc : CallOk t.var c) (hwrites : ∀ w, c.writes w ↔ w = v) (hreads : ∀ w, c.reads w → w ≠ v ∧ s.Quiet w) :
    VarsOk t := by
  have hother : ∀ w, w = v → ∀ l, l ≠ k → ¬ (s.call l).writes w ∧ ¬ (s.call l).reads w := by
    rintro w rfl l -
    exact ⟨hv l, hr l⟩
  have hk : t.call k = c := by rw [hcall, Refs.enter_call, if_pos rfl]
  refine h.move k (· = v) (fun l hl => ?_) (fun w hw => ?_) hother ?_ (fun w hw => ?_) (fun w hr => ?_)
    fun w m hm hw => ?_
  · rw [hcall, Refs.enter_call, if_neg hl]
  · rw [hvar, Refs.put_var, if_neg hw]
  · rw [hk]
    exact hc
  · rw [hk] at hw
    exact hother w ((hwrites w).mp hw)
  · rw [hk] at hr ⊢
    exact ⟨fun hw => (hreads w hr).1 ((hwrites w).mp hw), fun l _ => (hreads w hr).2 l⟩
  · rw [hidle] at hw
    rw [hk]
    exact (hwrites w).mpr (hw.elim id False.elim)

theorem Refs.put_self (s : Refs) (v : Ref) : (s.put v (s.var v)).var = s.var := by
  funext w
  rw [Refs.put_var]
  split_ifs with h
  · rw [h]
  · rfl

theorem VarsOk.step (h : VarsOk s) (hc : Careful s a) (hs : RefStep s a t) : VarsOk t := by
  cases hs with
  | null hv => exact h.put hv.2 (h.room hv) (by simp)
  | @strong_ptr i o hv => exact (h.put (x := .ref s.next) hv.2 (h.room hv) (by simp)).congr rfl rfl
  | @weak_ptr k i o hv hidle =>
    refine h.start hidle hv.2 (h.room hv) rfl (Refs.put_self s _).symm ?_ (fun w => Iff.rfl) fun w hw => hw.elim
    intro m hm
    have hnone : s.var (.weak i) = .ref m := hm
    rw [hv.1] at hnone
    cases hnone
  | @unique_ptr i o hv => exact (h.put (x := .ref o) hv.2 (h.room hv) (by simp)).congr rfl rfl
  | @strong_copy k i m other hv hidle hsh hread =>
    have hm := h.counted hc hread
    refine h.start hidle hv.2 (h.room hv) rfl (Refs.put_self s _).symm ⟨hv.1, hm, hsh⟩ (fun w => Iff.rfl) ?_
    rintro w rfl
    refine ⟨?_, hc⟩
    rintro rfl
    rw [hv.1] at hm
    cases hm
  | @weak_copy k i m other hv hidle hsh hread =>
    have hm := h.counted hc hread
    refine h.start hidle hv.2 (h.room hv) rfl (Refs.put_self s _).symm ⟨hv.1, hm, hsh⟩ (fun w => Iff.rfl) ?_
    rintro w rfl
    refine ⟨?_, hc⟩
    rintro rfl
    rw [hv.1] at hm
    cases hm
  | @strong_unique i j o hv hq hj =>
    have h₁ : VarsOk (s.make i o) := (h.put (x := .ref s.next) hv.2 (h.room hv) (by simp)).congr rfl rfl
    exact h₁.put hq (h₁.unique j) (by simp)
  | @weak_unique k i j o hv hidle hq hj =>
    have h₁ := h.put (x := .null) hv.2 (h.room hv) (by simp)
    refine h₁.start hidle hq (h₁.unique j) rfl rfl (fun m hm => ?_) (fun w => Iff.rfl) fun w hw => hw.elim
    simp [Refs.enter] at hm
  | @unique_unique i j o hv hq hj =>
    have h₁ := h.put (x := .ref o) hv.2 (h.room hv) (by simp)
    exact h₁.put hq (h₁.unique j) (by simp)
  | @drop_null k v ends hq hv => exact h.put hq hc fun m => (slotAfter_ne ends m).2
  | @drop_strong k i m ends hq hidle hv =>
    exact h.start hidle hq hc rfl (Refs.put_self s _).symm hv (fun w => Iff.rfl) fun w hw => hw.elim
  | @drop_weak k i m ends hq hidle hv =>
    exact h.start hidle hq hc rfl (Refs.put_self s _).symm hv (fun w => Iff.rfl) fun w hw => hw.elim
  | @drop_unique k i o ends hq hidle hv =>
    refine h.start hidle hq hc rfl rfl (fun m hm => ?_) (fun w => Iff.rfl) fun w hw => hw.elim
    simp [Refs.enter] at hm
  | @add_strong k i m other x ok hk hx =>
    refine h.own (v := .strong i) (by rw [hk]; rfl) (by rw [hk]; exact fun w hw => hw) rfl rfl trivial
      (fun w hw => hw.elim) (fun w hw => hw) fun n hn => ?_
    split_ifs at hn
  | @add_weak k i m other x ok hk hx =>
    refine h.own (v := .weak i) (by rw [hk]; rfl) (by rw [hk]; exact fun w hw => hw) rfl rfl trivial
      (fun w hw => hw.elim) (fun w hw => hw) fun n hn => ?_
    split_ifs at hn
  | @remove_strong k i m ends delete_m x del_ptr hk hx =>
    refine h.own (v := .strong i) (by rw [hk]; rfl) (by rw [hk]; exact fun w hw => hw) rfl rfl (fun n hn => ?_)
      (fun w hw => hw) (fun w hw => hw) fun n hn => rfl
    simp [Refs.enter] at hn
  | @remove_weak k i m ends delete_m x hk hx =>
    refine h.own (v := .weak i) (by rw [hk]; rfl) (by rw [hk]; exact fun w hw => hw) rfl rfl (fun n hn => ?_)
      (fun w hw => hw) (fun w hw => hw) fun n hn => rfl
    simp [Refs.enter] at hn
  | @delete_object k o v delete_m ends hk =>
    have hv := h.calls k
    rw [hk] at hv
    exact h.own (v := v) (by rw [hk]; rfl) (by rw [hk]; exact fun w hw => hw) rfl (Refs.put_self s _).symm hv
      (fun w hw => hw) (fun w hw => hw) fun n hn => rfl
  | @delete_middle k m v ends hk =>
    have hv := h.calls k
    rw [hk] at hv
    exact h.own (v := v) (by rw [hk]; rfl) (by rw [hk]; exact fun w hw => hw) rfl (Refs.put_self s _).symm hv
      (fun w hw => hw) (fun w hw => hw) fun n hn => rfl
  | @finish k v ends hk =>
    exact h.own (v := v) (by rw [hk]; rfl) (by rw [hk]; exact fun w hw => hw) rfl rfl trivial
      (fun w hw => hw.elim) (fun w hw => hw) fun n hn => absurd hn (slotAfter_ne ends n).2

/-! ## Counts -/

/-- `count` says how many variables of a kind hold a `Middle`. -/
def Counted (s : Refs) (kind : Nat → Ref) (count : Middle → Nat) : Prop :=
  ∀ m, Tally (count (s.middle m)) fun i => s.var (kind i) = .ref m

variable {kind : Nat → Ref} {count : Middle → Nat} {i m : Nat}

theorem Counted.same (h : Counted s kind count) (hcount : ∀ n, count (t.middle n) = count (s.middle n))
    (hvar : ∀ j n, t.var (kind j) = .ref n ↔ s.var (kind j) = .ref n) : Counted t kind count := by
  intro n
  rw [hcount]
  exact (h n).congr fun j => hvar j n

theorem Counted.gain (h : Counted s kind count) (hnot : ∀ n, s.var (kind i) ≠ .ref n)
    (hcount : count (t.middle m) = count (s.middle m) + 1)
    (hother : ∀ n, n ≠ m → count (t.middle n) = count (s.middle n)) (hi : t.var (kind i) = .ref m)
    (hvar : ∀ j, j ≠ i → t.var (kind j) = s.var (kind j)) : Counted t kind count := by
  intro n
  by_cases hn : n = m
  · rw [hn, hcount]
    refine (h m).add (hnot m) fun j => ?_
    by_cases hj : j = i
    · rw [hj]
      exact iff_of_true hi (Or.inl rfl)
    · rw [hvar j hj]
      exact ⟨Or.inr, fun h => h.resolve_left hj⟩
  · rw [hother n hn]
    refine (h n).congr fun j => ?_
    by_cases hj : j = i
    · rw [hj, hi]
      exact iff_of_false (fun e => hn (RefVar.ref.inj e).symm) (hnot n)
    · rw [hvar j hj]

theorem Counted.lose (h : Counted s kind count) (hi : s.var (kind i) = .ref m)
    (hcount : count (t.middle m) = count (s.middle m) - 1)
    (hother : ∀ n, n ≠ m → count (t.middle n) = count (s.middle n)) (hnot : ∀ n, t.var (kind i) ≠ .ref n)
    (hvar : ∀ j, j ≠ i → t.var (kind j) = s.var (kind j)) : Counted t kind count := by
  intro n
  by_cases hn : n = m
  · rw [hn, hcount]
    refine (h m).sub hi fun j => ?_
    by_cases hj : j = i
    · rw [hj]
      exact iff_of_false (hnot m) fun h => h.1 rfl
    · rw [hvar j hj]
      exact ⟨fun h => ⟨hj, h⟩, And.right⟩
  · rw [hother n hn]
    refine (h n).congr fun j => ?_
    by_cases hj : j = i
    · rw [hj, hi]
      exact iff_of_false (hnot n) fun e => hn (RefVar.ref.inj e).symm
    · rw [hvar j hj]

theorem Counted.pos (h : Counted s kind count) (hi : s.var (kind i) = .ref m) : 0 < count (s.middle m) :=
  (h m).pos_iff.mpr ⟨i, hi⟩

/-! ## Objects and `Middle`s -/

/-- Who will delete an object. -/
inductive Owner where
  | nobody
  | unique (j : Nat)
  | middle (m : Nat)
  | call (k : Nat)
  | gone
deriving DecidableEq

structure ObjectsOk (s : Refs) (owner : Nat → Owner) : Prop where
  ptr : ∀ m o, (s.middle m).ptr = some o ↔ owner o = .middle m
  object : ∀ m o, (s.middle m).ptr = some o → s.object m = o
  count : ∀ m, (s.middle m).ptr = none ↔ (s.middle m).strong_count = 0
  unique : ∀ j o, s.var (.unique j) = .ref o ↔ owner o = .unique j
  call : ∀ k o, (s.call k).deletes o ↔ owner o = .call k
  deleted : ∀ o, s.deleted o = if owner o = .gone then 1 else 0
  given : ∀ o, owner o = .nobody ↔ s.given o = false
  past : ∀ m, m < s.next → (s.middle m).strong_count = 0 →
    (∃ k, owner (s.object m) = .call k) ∨ owner (s.object m) = .gone

/-- Where a `Middle` is. -/
inductive Fate where
  | unmade
  | live
  | call (k : Nat)
  | gone
deriving DecidableEq

structure MiddlesOk (s : Refs) (fate : Nat → Fate) : Prop where
  live : ∀ m, fate m = .live ↔ 0 < (s.middle m).strong_count ∨ 0 < (s.middle m).weak_count
  call : ∀ k m, (s.call k).frees m ↔ fate m = .call k
  freed : ∀ m, s.freed m = if fate m = .gone then 1 else 0
  unmade : ∀ m, fate m = .unmade ↔ s.next ≤ m

structure RefInv (s : Refs) (owner : Nat → Owner) (fate : Nat → Fate) : Prop where
  vars : VarsOk s
  strong : Counted s .strong Middle.strong_count
  weak : Counted s .weak Middle.weak_count
  objects : ObjectsOk s owner
  middles : MiddlesOk s fate

variable {owner : Nat → Owner} {fate : Nat → Fate}

theorem ObjectsOk.same (h : ObjectsOk s owner) (hptr : ∀ m, (t.middle m).ptr = (s.middle m).ptr)
    (hcount : ∀ m, (t.middle m).strong_count = 0 ↔ (s.middle m).strong_count = 0)
    (hvar : ∀ j o, t.var (.unique j) = .ref o ↔ s.var (.unique j) = .ref o)
    (hcall : ∀ k o, (t.call k).deletes o ↔ (s.call k).deletes o) (hdeleted : t.deleted = s.deleted)
    (hgiven : t.given = s.given) (hobject : t.object = s.object) (hnext : t.next = s.next) : ObjectsOk t owner := by
  obtain ⟨h1, h2, h3, h4, h5, h6, h7, h8⟩ := h
  constructor
  · simpa only [hptr] using h1
  · simpa only [hptr, hobject] using h2
  · simpa only [hptr, hcount] using h3
  · simpa only [hvar] using h4
  · simpa only [hcall] using h5
  · simpa only [hdeleted] using h6
  · simpa only [hgiven] using h7
  · simpa only [hcount, hobject, hnext] using h8

theorem MiddlesOk.same (h : MiddlesOk s fate)
    (hcount : ∀ m, 0 < (t.middle m).strong_count ∨ 0 < (t.middle m).weak_count ↔
      0 < (s.middle m).strong_count ∨ 0 < (s.middle m).weak_count)
    (hcall : ∀ k m, (t.call k).frees m ↔ (s.call k).frees m) (hfreed : t.freed = s.freed) (hnext : t.next = s.next) :
    MiddlesOk t fate := by
  obtain ⟨h1, h2, h3, h4⟩ := h
  constructor
  · simpa only [hcount] using h1
  · simpa only [hcall] using h2
  · simpa only [hfreed] using h3
  · simpa only [hnext] using h4

/-! ## Steps -/

theorem RefInv.same (h : RefInv s owner fate) (hvars : VarsOk t) (hmiddle : t.middle = s.middle)
    (hvar : ∀ v n, t.var v = .ref n ↔ s.var v = .ref n)
    (hcall : ∀ k n, ((t.call k).deletes n ↔ (s.call k).deletes n) ∧ ((t.call k).frees n ↔ (s.call k).frees n))
    (hghost : t.deleted = s.deleted ∧ t.freed = s.freed ∧ t.given = s.given ∧ t.object = s.object ∧ t.next = s.next) :
    RefInv t owner fate := by
  obtain ⟨hd, hf, hg, ho, hn⟩ := hghost
  refine ⟨hvars, ?_, ?_, ?_, ?_⟩
  · exact h.strong.same (fun n => by rw [hmiddle]) fun j => hvar _
  · exact h.weak.same (fun n => by rw [hmiddle]) fun j => hvar _
  · exact h.objects.same (fun m => by rw [hmiddle]) (fun m => by rw [hmiddle]) (fun j => hvar _)
      (fun k o => (hcall k o).1) hd hg ho hn
  · exact h.middles.same (fun m => by rw [hmiddle]) (fun k m => (hcall k m).2) hf hn

theorem Refs.put_ref (s : Refs) (hv : ∀ n, s.var v ≠ .ref n) (hx : ∀ n, x ≠ .ref n) (w : Ref) (n : Nat) :
    (s.put v x).var w = .ref n ↔ s.var w = .ref n := by
  rw [put_var]
  split_ifs with hw
  · rw [hw]
    exact iff_of_false (hx n) (hv n)
  · rfl

theorem RefInv.begin (h : RefInv s owner fate) {c : Call} (hvars : VarsOk (s.enter k c)) (hidle : s.call k = .idle)
    (hc : ∀ n, ¬ c.deletes n ∧ ¬ c.frees n) : RefInv (s.enter k c) owner fate := by
  refine h.same hvars rfl (fun _ _ => Iff.rfl) (fun l n => ?_) ⟨rfl, rfl, rfl, rfl, rfl⟩
  rw [Refs.enter_call]
  split_ifs with hl
  · rw [hl, hidle]
    exact ⟨iff_of_false (hc n).1 id, iff_of_false (hc n).2 id⟩
  · exact ⟨Iff.rfl, Iff.rfl⟩

theorem RefInv.fresh (h : RefInv s owner fate) {m : Nat} (hm : s.next ≤ m) : s.middle m = ⟨none, 0, 0⟩ := by
  have hlive := h.middles.live m
  have hcount := h.objects.count m
  rw [(h.middles.unmade m).mpr hm] at hlive
  have hzero : (s.middle m).strong_count = 0 ∧ (s.middle m).weak_count = 0 := by
    have hnot : ¬ (0 < (s.middle m).strong_count ∨ 0 < (s.middle m).weak_count) := fun hpos => by
      cases hlive.mpr hpos
    omega
  have hptr := hcount.mpr hzero.1
  generalize s.middle m = x at *
  cases x
  simp_all

theorem ObjectsOk.idle (h : ObjectsOk s owner) (hidle : s.call k = .idle) (o : Nat) : owner o ≠ .call k := by
  intro ho
  have hdel := (h.call k o).mpr ho
  rw [hidle] at hdel
  exact hdel

/-- The state when call `k` leaves a section: `m` and variable `v` are other, and `c` is left of the call. -/
def Refs.unlock (s : Refs) (m : Nat) (x : Middle) (v : Ref) (y : RefVar) (k : Nat) (c : Call) : Refs :=
  ((s.setMiddle m x).put v y).enter k c

theorem Refs.unlock_middle (s : Refs) (m : Nat) (x : Middle) (v : Ref) (y : RefVar) (k : Nat) (c : Call) (n : Nat) :
    (s.unlock m x v y k c).middle n = if n = m then x else s.middle n := rfl

theorem Refs.unlock_var (s : Refs) (m : Nat) (x : Middle) (v : Ref) (y : RefVar) (k : Nat) (c : Call) (w : Ref) :
    (s.unlock m x v y k c).var w = if w = v then y else s.var w := rfl

theorem Counted.unlock (h : Counted s kind count) {x : Middle} {y : RefVar} {c : Call}
    (hv : ∀ j n, kind j = v → s.var v ≠ .ref n ∧ y ≠ .ref n) (hx : count x = count (s.middle m)) :
    Counted (s.unlock m x v y k c) kind count := by
  refine h.same (fun n => ?_) fun j n => ?_
  · rw [Refs.unlock_middle]
    split_ifs with hn
    · rw [hx, hn]
    · rfl
  · rw [Refs.unlock_var]
    split_ifs with hj
    · rw [hj]
      exact iff_of_false (hv j n hj).2 (hv j n hj).1
    · rfl

theorem Counted.unlock_gain (h : Counted s kind count) {x : Middle} {c : Call} (hinj : ∀ i j, kind i = kind j → i = j)
    (hi : s.var (kind i) = .none) (hx : count x = count (s.middle m) + 1) :
    Counted (s.unlock m x (kind i) (.ref m) k c) kind count := by
  refine h.gain (i := i) (m := m) (fun n hn => ?_) ?_ (fun n hn => ?_) ?_ fun j hj => ?_
  · rw [hi] at hn
    cases hn
  · rw [Refs.unlock_middle, if_pos rfl, hx]
  · rw [Refs.unlock_middle, if_neg hn]
  · rw [Refs.unlock_var, if_pos rfl]
  · rw [Refs.unlock_var, if_neg fun e => hj (hinj _ _ e)]

theorem Counted.unlock_lose (h : Counted s kind count) {x : Middle} {c : Call} (hinj : ∀ i j, kind i = kind j → i = j)
    (hi : s.var (kind i) = .ref m) (hx : count x = count (s.middle m) - 1) :
    Counted (s.unlock m x (kind i) (.stale m) k c) kind count := by
  refine h.lose (i := i) (m := m) hi ?_ (fun n hn => ?_) (fun n hn => ?_) fun j hj => ?_
  · rw [Refs.unlock_middle, if_pos rfl, hx]
  · rw [Refs.unlock_middle, if_neg hn]
  · rw [Refs.unlock_var, if_pos rfl] at hn
    cases hn
  · rw [Refs.unlock_var, if_neg fun e => hj (hinj _ _ e)]

theorem ObjectsOk.unlock (h : ObjectsOk s owner) {x : Middle} {y : RefVar} {c : Call} (hv : v.shared)
    (hk : ∀ o, ¬ (s.call k).deletes o) (hc : ∀ o, ¬ c.deletes o) (hptr : x.ptr = (s.middle m).ptr)
    (hcount : x.strong_count = 0 ↔ (s.middle m).strong_count = 0) : ObjectsOk (s.unlock m x v y k c) owner := by
  refine h.same (fun n => ?_) (fun n => ?_) (fun j o => ?_) (fun l o => ?_) rfl rfl rfl rfl
  · rw [Refs.unlock_middle]
    split_ifs with hn
    · rw [hptr, hn]
    · rfl
  · rw [Refs.unlock_middle]
    split_ifs with hn
    · rw [hcount, hn]
    · rfl
  · rw [Refs.unlock_var, if_neg]
    rintro rfl
    exact hv
  · rw [Refs.unlock, Refs.enter_call]
    split_ifs with hl
    · rw [hl]
      exact iff_of_false (hc o) (hk o)
    · rfl

theorem MiddlesOk.unlock (h : MiddlesOk s fate) {x : Middle} {y : RefVar} {c : Call}
    (hk : ∀ n, ¬ (s.call k).frees n) (hc : ∀ n, ¬ c.frees n)
    (hcount : 0 < x.strong_count ∨ 0 < x.weak_count ↔ 0 < (s.middle m).strong_count ∨ 0 < (s.middle m).weak_count) :
    MiddlesOk (s.unlock m x v y k c) fate := by
  refine h.same (fun n => ?_) (fun l n => ?_) rfl rfl
  · rw [Refs.unlock_middle]
    split_ifs with hn
    · rw [hcount, hn]
    · rfl
  · rw [Refs.unlock, Refs.enter_call]
    split_ifs with hl
    · rw [hl]
      exact iff_of_false (hc n) (hk n)
    · rfl

theorem ObjectsOk.unlock_last (h : ObjectsOk s owner) {x : Middle} {y : RefVar} {c : Call} {o : Nat} (hv : v.shared)
    (hk : ∀ p, ¬ (s.call k).deletes p) (ho : (s.middle m).ptr = some o) (hc : ∀ p, c.deletes p ↔ p = o)
    (hptr : x.ptr = none) (hcount : x.strong_count = 0) :
    ObjectsOk (s.unlock m x v y k c) fun p => if p = o then .call k else owner p := by
  have huniq : ∀ j, (Ref.unique j) ≠ v := by
    rintro j rfl
    exact hv
  have hno : ∀ p, owner p ≠ .call k := fun p hp => hk p ((h.call k p).mpr hp)
  obtain ⟨h1, h2, h3, h4, h5, h6, h7, h8⟩ := h
  constructor <;> simp only [Refs.unlock, Refs.enter, Refs.put, Refs.setMiddle] <;> grind

theorem MiddlesOk.unlock_last (h : MiddlesOk s fate) {x : Middle} {y : RefVar} {c : Call}
    (hk : ∀ n, ¬ (s.call k).frees n) (hm : fate m = .live) (hc : ∀ n, c.frees n ↔ n = m)
    (hcount : x.strong_count = 0 ∧ x.weak_count = 0) :
    MiddlesOk (s.unlock m x v y k c) fun n => if n = m then .call k else fate n := by
  have hno : ∀ n, fate n ≠ .call k := fun n hn => hk n ((h.call k n).mpr hn)
  obtain ⟨h1, h2, h3, h4⟩ := h
  constructor <;> simp only [Refs.unlock, Refs.enter, Refs.put, Refs.setMiddle] <;> grind

theorem RefInv.add_strong (h : RefInv s owner fate) {i m : Nat} {other : Ref} {x : Middle} {ok : Bool}
    (hk : s.call k = .add_strong i other m) (hx : (s.middle m).add_strong = (x, ok))
    (hvars : VarsOk (s.unlock m x (.strong i) (if ok then .ref m else .null) k .idle)) : ∃ owner' fate',
      RefInv (s.unlock m x (.strong i) (if ok then .ref m else .null) k .idle) owner' fate' := by
  have hi := h.vars.calls k
  rw [hk] at hi
  have hdel : ∀ n, ¬ (s.call k).deletes n := by rw [hk]; exact fun n hn => hn
  have hfree : ∀ n, ¬ (s.call k).frees n := by rw [hk]; exact fun n hn => hn
  unfold Middle.add_strong at hx
  split_ifs at hx with hpos <;> obtain ⟨rfl, rfl⟩ := Prod.mk.inj hx
  · refine ⟨owner, fate, hvars, h.strong.unlock_gain (fun _ _ => Ref.strong.inj) hi.1 rfl,
      h.weak.unlock (by simp) rfl, h.objects.unlock trivial hdel (fun _ hn => hn) rfl ?_,
      h.middles.unlock hfree (fun _ hn => hn) ?_⟩
    · exact iff_of_false (Nat.succ_ne_zero _) (by omega)
    · exact iff_of_true (Or.inl (Nat.succ_pos _)) (Or.inl hpos)
  · exact ⟨owner, fate, hvars, h.strong.unlock (by simp [hi.1]) rfl, h.weak.unlock (by simp) rfl,
      h.objects.unlock trivial hdel (fun _ hn => hn) rfl Iff.rfl, h.middles.unlock hfree (fun _ hn => hn) Iff.rfl⟩

theorem RefInv.add_weak (h : RefInv s owner fate) {i m : Nat} {other : Ref} {x : Middle} {ok : Bool}
    (hk : s.call k = .add_weak i other m) (hx : (s.middle m).add_weak = (x, ok))
    (hvars : VarsOk (s.unlock m x (.weak i) (if ok then .ref m else .null) k .idle)) : ∃ owner' fate',
      RefInv (s.unlock m x (.weak i) (if ok then .ref m else .null) k .idle) owner' fate' := by
  have hi := h.vars.calls k
  rw [hk] at hi
  have hdel : ∀ n, ¬ (s.call k).deletes n := by rw [hk]; exact fun n hn => hn
  have hfree : ∀ n, ¬ (s.call k).frees n := by rw [hk]; exact fun n hn => hn
  unfold Middle.add_weak at hx
  split_ifs at hx with hnull <;> obtain ⟨rfl, rfl⟩ := Prod.mk.inj hx
  · exact ⟨owner, fate, hvars, h.strong.unlock (by simp) rfl, h.weak.unlock (by simp [hi.1]) rfl,
      h.objects.unlock trivial hdel (fun _ hn => hn) rfl Iff.rfl, h.middles.unlock hfree (fun _ hn => hn) Iff.rfl⟩
  · have hpos := mt (h.objects.count m).mpr hnull
    refine ⟨owner, fate, hvars, h.strong.unlock (by simp) rfl, h.weak.unlock_gain (fun _ _ => Ref.weak.inj) hi.1 rfl,
      h.objects.unlock trivial hdel (fun _ hn => hn) rfl Iff.rfl, h.middles.unlock hfree (fun _ hn => hn) ?_⟩
    exact iff_of_true (Or.inr (Nat.succ_pos _)) (Or.inl (Nat.pos_of_ne_zero hpos))

/-- `remove_strong` hands the object to the call when the last reference goes, and the `Middle` too when no weak one is
left. -/
theorem RefInv.remove_strong (h : RefInv s owner fate) {i m : Nat} {ends delete_m : Bool} {x : Middle}
    {del_ptr : Option Nat} (hk : s.call k = .remove_strong i m ends)
    (hx : (s.middle m).remove_strong = some (x, del_ptr, delete_m))
    (hvars : VarsOk (s.unlock m x (.strong i) (.stale m) k
      (.after (.strong i) del_ptr (if delete_m then some m else none) ends))) : ∃ owner' fate',
      RefInv (s.unlock m x (.strong i) (.stale m) k
        (.after (.strong i) del_ptr (if delete_m then some m else none) ends)) owner' fate' := by
  have hi := h.vars.calls k
  rw [hk] at hi
  have hdel : ∀ n, ¬ (s.call k).deletes n := by rw [hk]; exact fun n hn => hn
  have hfree : ∀ n, ¬ (s.call k).frees n := by rw [hk]; exact fun n hn => hn
  have hpos := h.strong.pos hi
  have hinj : ∀ i j, Ref.strong i = Ref.strong j → i = j := fun _ _ => Ref.strong.inj
  unfold Middle.remove_strong at hx
  rw [if_pos hpos] at hx
  dsimp only at hx
  split_ifs at hx with hzero <;> obtain ⟨rfl, rfl, rfl⟩ : _ ∧ _ ∧ _ := by simpa using hx
  · obtain ⟨o, ho⟩ := Option.ne_none_iff_exists'.mp (mt (h.objects.count m).mp (by omega))
    have hlive := (h.middles.live m).mpr (Or.inl hpos)
    have hobjects := h.objects.unlock_last (k := k) (x := ⟨none, (s.middle m).strong_count - 1,
      (s.middle m).weak_count⟩) (y := .stale m) (v := .strong i) (c := .after (.strong i) (s.middle m).ptr
        (if decide ((s.middle m).weak_count = 0) = true then some m else none) ends) trivial hdel ho
      (fun p => by simp [Call.deletes, ho, eq_comm]) rfl hzero
    by_cases hw : (s.middle m).weak_count = 0
    · refine ⟨_, _, hvars, h.strong.unlock_lose hinj hi rfl, h.weak.unlock (by simp) rfl, hobjects,
        h.middles.unlock_last hfree hlive (fun n => ?_) ⟨hzero, hw⟩⟩
      simp [Call.frees, hw, eq_comm]
    · refine ⟨_, _, hvars, h.strong.unlock_lose hinj hi rfl, h.weak.unlock (by simp) rfl, hobjects,
        h.middles.unlock hfree (fun n => ?_) (iff_of_true (Or.inr (Nat.pos_of_ne_zero hw)) (Or.inl hpos))⟩
      simp [Call.frees, hw]
  · refine ⟨owner, fate, hvars, h.strong.unlock_lose hinj hi rfl, h.weak.unlock (by simp) rfl,
      h.objects.unlock trivial hdel (by simp [Call.deletes]) rfl ?_, h.middles.unlock hfree (by simp [Call.frees]) ?_⟩
    · exact iff_of_false hzero (by omega)
    · exact iff_of_true (Or.inl (Nat.pos_of_ne_zero hzero)) (Or.inl hpos)

/-- `remove_weak` hands the `Middle` to the call when it was the last reference of either kind. -/
theorem RefInv.remove_weak (h : RefInv s owner fate) {i m : Nat} {ends delete_m : Bool} {x : Middle}
    (hk : s.call k = .remove_weak i m ends) (hx : (s.middle m).remove_weak = some (x, delete_m))
    (hvars : VarsOk (s.unlock m x (.weak i) (.stale m) k
      (.after (.weak i) none (if delete_m then some m else none) ends))) : ∃ owner' fate',
      RefInv (s.unlock m x (.weak i) (.stale m) k
        (.after (.weak i) none (if delete_m then some m else none) ends)) owner' fate' := by
  have hi := h.vars.calls k
  rw [hk] at hi
  have hdel : ∀ n, ¬ (s.call k).deletes n := by rw [hk]; exact fun n hn => hn
  have hfree : ∀ n, ¬ (s.call k).frees n := by rw [hk]; exact fun n hn => hn
  have hpos := h.weak.pos hi
  have hinj : ∀ i j, Ref.weak i = Ref.weak j → i = j := fun _ _ => Ref.weak.inj
  unfold Middle.remove_weak at hx
  rw [if_pos hpos] at hx
  dsimp only at hx
  obtain ⟨rfl, rfl⟩ : _ ∧ _ := by simpa using hx
  by_cases hzero : (s.middle m).weak_count - 1 = 0 ∧ (s.middle m).strong_count = 0
  · refine ⟨_, _, hvars, h.strong.unlock (by simp) rfl, h.weak.unlock_lose hinj hi rfl,
      h.objects.unlock trivial hdel (by simp [Call.deletes]) rfl Iff.rfl,
      h.middles.unlock_last hfree ((h.middles.live m).mpr (Or.inr hpos)) (fun n => ?_) hzero.symm⟩
    simp [Call.frees, hzero, eq_comm]
  · refine ⟨owner, fate, hvars, h.strong.unlock (by simp) rfl, h.weak.unlock_lose hinj hi rfl,
      h.objects.unlock trivial hdel (by simp [Call.deletes]) rfl Iff.rfl, h.middles.unlock hfree (fun n => ?_) ?_⟩
    · simp [Call.frees, hzero]
    · refine iff_of_true ?_ (Or.inr hpos)
      show 0 < (s.middle m).strong_count ∨ 0 < (s.middle m).weak_count - 1
      omega

theorem RefInv.to_call (h : RefInv s owner fate) {o : Nat} {c : Call} (hvars : VarsOk t) (hidle : s.call k = .idle)
    (hfrom : owner o = .nobody ∨ ∃ j, owner o = .unique j) (hcall : t.call = (s.enter k c).call)
    (hdel : ∀ p, c.deletes p ↔ p = o) (hfrees : ∀ m, ¬ c.frees m) (hmiddle : t.middle = s.middle)
    (hshared : ∀ w n, w.shared → (t.var w = .ref n ↔ s.var w = .ref n))
    (hunique : ∀ j p, t.var (.unique j) = .ref p ↔ p ≠ o ∧ s.var (.unique j) = .ref p)
    (hgiven : ∀ p, t.given p = if p = o then true else s.given p)
    (hghost : t.deleted = s.deleted ∧ t.freed = s.freed ∧ t.object = s.object ∧ t.next = s.next) :
    RefInv t (fun p => if p = o then .call k else owner p) fate := by
  obtain ⟨hd, hf, ho, hn⟩ := hghost
  refine ⟨hvars, ?_, ?_, ?_, ?_⟩
  · exact h.strong.same (fun m => by rw [hmiddle]) fun j n => hshared _ n trivial
  · exact h.weak.same (fun m => by rw [hmiddle]) fun j n => hshared _ n trivial
  · have hno := h.objects.idle hidle
    have hc : ∀ l p, (t.call l).deletes p ↔ if l = k then p = o else (s.call l).deletes p := by
      intro l p
      rw [hcall, Refs.enter_call]
      split_ifs
      · exact hdel p
      · rfl
    obtain ⟨h1, h2, h3, h4, h5, h6, h7, h8⟩ := h.objects
    rw [← hmiddle] at h1 h2 h3 h8
    rw [← ho] at h2 h8
    rw [← hn] at h8
    rw [← hd] at h6
    constructor <;> grind
  · refine h.middles.same (fun m => by rw [hmiddle]) (fun l m => ?_) hf hn
    rw [hcall, Refs.enter_call]
    split_ifs with hl
    · rw [hl, hidle]
      exact iff_of_false (hfrees m) id
    · rfl

theorem RefInv.to_unique (h : RefInv s owner fate) {o : Nat} (hvars : VarsOk t)
    (hfrom : owner o = .nobody ∨ ∃ j, owner o = .unique j) (hcall : t.call = s.call) (hmiddle : t.middle = s.middle)
    (hshared : ∀ w n, w.shared → (t.var w = .ref n ↔ s.var w = .ref n))
    (hunique : ∀ j p, t.var (.unique j) = .ref p ↔ if p = o then j = i else s.var (.unique j) = .ref p)
    (hgiven : ∀ p, t.given p = if p = o then true else s.given p)
    (hghost : t.deleted = s.deleted ∧ t.freed = s.freed ∧ t.object = s.object ∧ t.next = s.next) :
    RefInv t (fun p => if p = o then .unique i else owner p) fate := by
  obtain ⟨hd, hf, ho, hn⟩ := hghost
  refine ⟨hvars, ?_, ?_, ?_, ?_⟩
  · exact h.strong.same (fun m => by rw [hmiddle]) fun j n => hshared _ n trivial
  · exact h.weak.same (fun m => by rw [hmiddle]) fun j n => hshared _ n trivial
  · obtain ⟨h1, h2, h3, h4, h5, h6, h7, h8⟩ := h.objects
    rw [← hmiddle] at h1 h2 h3 h8
    rw [← ho] at h2 h8
    rw [← hn] at h8
    rw [← hcall] at h5
    rw [← hd] at h6
    constructor <;> grind
  · exact h.middles.same (fun m => by rw [hmiddle]) (fun l m => by rw [hcall]) hf hn

theorem RefInv.to_middle (h : RefInv s owner fate) {o : Nat} (hvars : VarsOk t) (hv : s.var (.strong i) = .none)
    (hfrom : owner o = .nobody ∨ ∃ j, owner o = .unique j) (hcall : t.call = s.call)
    (hmiddle : t.middle = (s.make i o).middle)
    (hshared : ∀ w : Ref, w.shared → t.var w = if w = .strong i then .ref s.next else s.var w)
    (hunique : ∀ j p, t.var (.unique j) = .ref p ↔ p ≠ o ∧ s.var (.unique j) = .ref p)
    (hgiven : ∀ p, t.given p = if p = o then true else s.given p)
    (hghost : t.deleted = s.deleted ∧ t.freed = s.freed ∧ t.object = (s.make i o).object ∧ t.next = s.next + 1) :
    RefInv t (fun p => if p = o then .middle s.next else owner p) fun m => if m = s.next then .live else fate m := by
  obtain ⟨hd, hf, ho, hn⟩ := hghost
  have hfresh := h.fresh (Nat.le_refl s.next)
  have hmid : ∀ n, t.middle n = if n = s.next then ⟨some o, 1, 0⟩ else s.middle n := fun n => by rw [hmiddle]; rfl
  have hnew : t.middle s.next = ⟨some o, 1, 0⟩ := (hmid s.next).trans (if_pos rfl)
  have hold : ∀ n, n ≠ s.next → t.middle n = s.middle n := fun n hne => (hmid n).trans (if_neg hne)
  refine ⟨hvars, ?_, ?_, ?_, ?_⟩
  · refine h.strong.gain (i := i) (m := s.next) (fun n hn => ?_) ?_ (fun n hn => ?_) ?_ fun j hj => ?_
    · rw [hv] at hn
      cases hn
    · rw [hnew, hfresh]
    · rw [hold n hn]
    · rw [hshared (.strong i) trivial, if_pos rfl]
    · rw [hshared (.strong j) trivial, if_neg fun e => hj (Ref.strong.inj e)]
  · refine h.weak.same (fun n => ?_) fun j n => by rw [hshared (.weak j) trivial, if_neg (by simp)]
    by_cases hn : n = s.next
    · rw [hn, hnew, hfresh]
    · rw [hold n hn]
  · have hobject : ∀ n, t.object n = if n = s.next then o else s.object n := fun n => by rw [ho]; rfl
    obtain ⟨h1, h2, h3, h4, h5, h6, h7, h8⟩ := h.objects
    rw [← hcall] at h5
    rw [← hd] at h6
    constructor <;> grind
  · obtain ⟨h1, h2, h3, h4⟩ := h.middles
    rw [← hcall] at h2
    rw [← hf] at h3
    constructor <;> grind

theorem ObjectsOk.free (h : ObjectsOk s owner) {o : Nat} (hg : s.given o = false) :
    owner o = .nobody ∧ ∀ j, s.var (.unique j) ≠ .ref o := by
  have hfree := (h.given o).mpr hg
  refine ⟨hfree, fun j hj => ?_⟩
  rw [(h.unique j o).mp hj] at hfree
  cases hfree

theorem ObjectsOk.held (h : ObjectsOk s owner) {j o : Nat} (hj : s.var (.unique j) = .ref o) :
    owner o = .unique j ∧ s.given o = true ∧ ∀ l, s.var (.unique l) = .ref o → l = j := by
  have hown := (h.unique j o).mp hj
  refine ⟨hown, ?_, fun l hl => ?_⟩
  · by_contra hg
    rw [(h.given o).mpr (by simpa using hg)] at hown
    cases hown
  · rw [(h.unique l o).mp hl] at hown
    exact Owner.unique.inj hown

theorem RefInv.step (h : RefInv s owner fate) (hc : Careful s a) (hs : RefStep s a t) :
    ∃ owner' fate', RefInv t owner' fate' := by
  have hvars := h.vars.step hc hs
  cases hs with
  | null hv =>
    exact ⟨owner, fate, h.same hvars rfl (s.put_ref (by simp [hv.1]) (by simp)) (fun _ _ => ⟨Iff.rfl, Iff.rfl⟩)
      ⟨rfl, rfl, rfl, rfl, rfl⟩⟩
  | strong_copy _ hidle => exact ⟨owner, fate, h.begin hvars hidle fun _ => ⟨id, id⟩⟩
  | weak_copy _ hidle => exact ⟨owner, fate, h.begin hvars hidle fun _ => ⟨id, id⟩⟩
  | drop_strong _ hidle => exact ⟨owner, fate, h.begin hvars hidle fun _ => ⟨id, id⟩⟩
  | drop_weak _ hidle => exact ⟨owner, fate, h.begin hvars hidle fun _ => ⟨id, id⟩⟩
  | @drop_null k v ends hq hv =>
    exact ⟨owner, fate, h.same hvars rfl (s.put_ref (by simp [hv]) fun n => (slotAfter_ne ends n).1)
      (fun _ _ => ⟨Iff.rfl, Iff.rfl⟩) ⟨rfl, rfl, rfl, rfl, rfl⟩⟩
  | @finish k v ends hk =>
    have hv := h.vars.calls k
    rw [hk] at hv
    refine ⟨owner, fate, h.same hvars rfl (s.put_ref hv fun n => (slotAfter_ne ends n).1) (fun l n => ?_)
      ⟨rfl, rfl, rfl, rfl, rfl⟩⟩
    rw [Refs.enter_call]
    split_ifs with hl
    · rw [hl, hk]
      simp [Call.deletes, Call.frees]
    · exact ⟨Iff.rfl, Iff.rfl⟩
  | @weak_ptr k i o hv hidle =>
    obtain ⟨hfree, hnot⟩ := h.objects.free hc
    refine ⟨_, fate, h.to_call hvars hidle (Or.inl hfree) rfl (by simp [Call.deletes, eq_comm]) (by simp [Call.frees])
      rfl (fun _ _ _ => Iff.rfl) (fun l p => ?_) (fun _ => rfl) ⟨rfl, rfl, rfl, rfl⟩⟩
    show s.var (.unique l) = .ref p ↔ p ≠ o ∧ s.var (.unique l) = .ref p
    grind
  | @unique_ptr i o hv =>
    obtain ⟨hfree, hnot⟩ := h.objects.free hc
    have hvn := hv.1
    refine ⟨_, fate, h.to_unique (i := i) hvars (Or.inl hfree) rfl rfl (fun w n hw => ?_) (fun l p => ?_) (fun _ => rfl)
      ⟨rfl, rfl, rfl, rfl⟩⟩ <;> simp only [Refs.give, Refs.put] <;> grind [Ref.shared]
  | @weak_unique k i j o hv hidle hq hj =>
    obtain ⟨hown, hgiven, honly⟩ := h.objects.held hj
    have hvn := hv.1
    refine ⟨_, fate, h.to_call hvars hidle (Or.inr ⟨j, hown⟩) rfl (by simp [Call.deletes, eq_comm])
      (by simp [Call.frees]) rfl (fun w n hw => ?_) (fun l p => ?_) (fun p => ?_) ⟨rfl, rfl, rfl, rfl⟩⟩ <;>
      simp only [Refs.enter, Refs.put] <;> grind [Ref.shared]
  | @unique_unique i j o hv hq hj =>
    obtain ⟨hown, hgiven, honly⟩ := h.objects.held hj
    have hvn := hv.1
    refine ⟨_, fate, h.to_unique (i := i) hvars (Or.inr ⟨j, hown⟩) rfl rfl (fun w n hw => ?_) (fun l p => ?_)
      (fun p => ?_) ⟨rfl, rfl, rfl, rfl⟩⟩ <;> simp only [Refs.put] <;> grind [Ref.shared]
  | @drop_unique k i o ends hq hidle hj =>
    obtain ⟨hown, hgiven, honly⟩ := h.objects.held hj
    refine ⟨_, fate, h.to_call hvars hidle (Or.inr ⟨i, hown⟩) rfl (by simp [Call.deletes, eq_comm])
      (by simp [Call.frees]) rfl (fun w n hw => ?_) (fun l p => ?_) (fun p => ?_) ⟨rfl, rfl, rfl, rfl⟩⟩ <;>
      simp only [Refs.enter, Refs.put] <;> grind [Ref.shared]
  | @strong_ptr i o hv =>
    obtain ⟨hfree, hnot⟩ := h.objects.free hc
    refine ⟨_, _, h.to_middle (i := i) (o := o) hvars hv.1 (Or.inl hfree) rfl rfl (fun w hw => rfl) (fun l p => ?_)
      (fun _ => rfl) ⟨rfl, rfl, rfl, rfl⟩⟩
    show s.var (.unique l) = .ref p ↔ p ≠ o ∧ s.var (.unique l) = .ref p
    grind
  | @strong_unique i j o hv hq hj =>
    obtain ⟨hown, hgiven, honly⟩ := h.objects.held hj
    refine ⟨_, _, h.to_middle (i := i) (o := o) hvars hv.1 (Or.inr ⟨j, hown⟩) rfl rfl (fun w hw => ?_) (fun l p => ?_)
      (fun p => ?_) ⟨rfl, rfl, rfl, rfl⟩⟩ <;> simp only [Refs.make, Refs.put, Refs.setMiddle] <;> grind [Ref.shared]
  | add_strong hk hx => exact h.add_strong hk hx hvars
  | add_weak hk hx => exact h.add_weak hk hx hvars
  | remove_strong hk hx => exact h.remove_strong hk hx hvars
  | remove_weak hk hx => exact h.remove_weak hk hx hvars
  | @delete_object k o v delete_m ends hk =>
    refine ⟨fun p => if p = o then .gone else owner p, fate, hvars,
      h.strong.same (fun _ => rfl) (fun _ _ => Iff.rfl), h.weak.same (fun _ => rfl) (fun _ _ => Iff.rfl), ?_, ?_⟩
    · have hown : owner o = .call k := (h.objects.call k o).mp (by rw [hk]; rfl)
      have hone : ∀ p, owner p = .call k → p = o := fun p hp => by
        have hdel := (h.objects.call k p).mpr hp
        rw [hk] at hdel
        exact (Option.some.inj hdel).symm
      obtain ⟨h1, h2, h3, h4, h5, h6, h7, h8⟩ := h.objects
      constructor <;> simp only [Refs.enter] <;> grind [Call.deletes]
    · refine h.middles.same (fun _ => Iff.rfl) (fun l m => ?_) rfl rfl
      simp only [Refs.enter]
      grind [Call.frees]
  | @delete_middle k m v ends hk =>
    refine ⟨owner, fun n => if n = m then .gone else fate n, hvars,
      h.strong.same (fun _ => rfl) (fun _ _ => Iff.rfl), h.weak.same (fun _ => rfl) (fun _ _ => Iff.rfl), ?_, ?_⟩
    · refine h.objects.same (fun _ => rfl) (fun _ => Iff.rfl) (fun _ _ => Iff.rfl) (fun l o => ?_) rfl rfl rfl rfl
      simp only [Refs.enter]
      grind [Call.deletes]
    · have hown : fate m = .call k := (h.middles.call k m).mp (by rw [hk]; rfl)
      have hone : ∀ p, fate p = .call k → p = m := fun p hp => by
        have hdel := (h.middles.call k p).mpr hp
        rw [hk] at hdel
        exact (Option.some.inj hdel).symm
      obtain ⟨h1, h2, h3, h4⟩ := h.middles
      constructor <;> simp only [Refs.enter] <;> grind [Call.frees]

end

end Kernel
