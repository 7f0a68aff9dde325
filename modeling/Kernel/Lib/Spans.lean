import Mathlib.Tactic.Common
import Mathlib.Data.List.Pairwise

/-!
# Lists of spans

Each item takes the addresses from `lo` up to `hi`, and a list has them in order.
A new item goes to the first gap with room. A range is cut out item by item.
-/

namespace Kernel.Lib

structure Span (α : Type) where
  lo : α → Nat
  hi : α → Nat

namespace Span

variable {α : Type} (S : Span α)

def Holds (a : α) (n : Nat) : Prop := S.lo a ≤ n ∧ n < S.hi a

def Covers (l : List α) (n : Nat) : Prop := ∃ a ∈ l, S.Holds a n

def Ordered (l : List α) : Prop := l.Pairwise fun a b => S.hi a ≤ S.lo b

/-- No item has an address of the range. -/
def Free (l : List α) (i j : Nat) : Prop := ∀ n, i ≤ n → n < j → ¬ S.Covers l n

/-- The items before the first gap of `size` addresses from `n` on, the gap, and the items after it. -/
def firstFit (size : Nat) : Nat → List α → List α × Nat × List α
  | n, [] => ([], n, [])
  | n, a :: l =>
    if n + size ≤ S.lo a then ([], n, a :: l)
    else
      let (passed, gap, rest) := firstFit size (S.hi a) l
      (a :: passed, gap, rest)

variable {S}

@[simp] theorem firstFit_nil {size n : Nat} : S.firstFit size n [] = ([], n, []) := rfl

theorem firstFit_here {size n : Nat} {a : α} {l : List α} (h : n + size ≤ S.lo a) :
    S.firstFit size n (a :: l) = ([], n, a :: l) := by
  unfold firstFit
  rw [if_pos h]

theorem firstFit_past {size n : Nat} {a : α} {l : List α} (h : ¬ n + size ≤ S.lo a) :
    S.firstFit size n (a :: l) = (a :: (S.firstFit size (S.hi a) l).1, (S.firstFit size (S.hi a) l).2) := by
  rw [firstFit, if_neg h]

theorem firstFit_fits (size : Nat) {n : Nat} {l : List α} (ho : S.Ordered l) (hf : ∀ a ∈ l, S.lo a ≤ S.hi a)
    (hn : ∀ a ∈ l, n ≤ S.lo a) : n ≤ (S.firstFit size n l).2.1 ∧
      (∀ a ∈ (S.firstFit size n l).1, S.hi a ≤ (S.firstFit size n l).2.1) ∧
      ∀ a ∈ (S.firstFit size n l).2.2, (S.firstFit size n l).2.1 + size ≤ S.lo a := by
  induction l generalizing n with
  | nil => simp
  | cons a l ih =>
    have hpair := List.pairwise_cons.mp ho
    have hna := hn a (by simp)
    have hfa := hf a (by simp)
    by_cases h : n + size ≤ S.lo a
    · rw [firstFit_here h]
      refine ⟨Nat.le_refl _, by simp, fun b hb => ?_⟩
      rcases List.mem_cons.mp hb with rfl | hb
      · exact h
      · have := hpair.1 b hb
        simp only []
        omega
    · rw [firstFit_past h]
      obtain ⟨hle, hpassed, hrest⟩ := ih hpair.2 (fun b hb => hf b (by simp [hb])) hpair.1
      refine ⟨by simp only []; omega, fun b hb => ?_, hrest⟩
      rcases List.mem_cons.mp hb with rfl | hb
      · exact hle
      · exact hpassed b hb

theorem firstFit_least {size n i : Nat} {l : List α} (hi : n ≤ i) (hsize : 0 < size)
    (hl : ∀ a ∈ l, S.lo a < S.hi a) (hfree : S.Free l i (i + size)) : (S.firstFit size n l).2.1 ≤ i := by
  induction l generalizing n with
  | nil => exact hi
  | cons a l ih =>
    by_cases h : n + size ≤ S.lo a
    · rw [firstFit_here h]
      exact hi
    · rw [firstFit_past h]
      have ha : S.hi a ≤ i := by
        by_contra hlt
        have hne := hl a (by simp)
        exact hfree (max i (S.lo a)) (by omega) (by omega) ⟨a, by simp, by unfold Holds; omega⟩
      exact ih ha (fun b hb => hl b (by simp [hb])) fun m hm hm' ⟨b, hb, hbm⟩ => hfree m hm hm' ⟨b, by simp [hb], hbm⟩

theorem Ordered.insert {l r : List α} {a : α} (ho : S.Ordered (l ++ r)) (hl : ∀ b ∈ l, S.hi b ≤ S.lo a)
    (hr : ∀ b ∈ r, S.hi a ≤ S.lo b) : S.Ordered (l ++ a :: r) := by
  unfold Ordered at *
  rw [List.pairwise_append] at ho ⊢
  obtain ⟨hol, hor, hlr⟩ := ho
  refine ⟨hol, List.pairwise_cons.mpr ⟨hr, hor⟩, fun b hb c hc => ?_⟩
  rcases List.mem_cons.mp hc with rfl | hc
  · exact hl b hb
  · exact hlr b hb c hc

theorem Ordered.around {l r : List α} {a : α} (ho : S.Ordered (l ++ a :: r)) : S.Free (l ++ r) (S.lo a) (S.hi a) := by
  unfold Ordered at ho
  rw [List.pairwise_append, List.pairwise_cons] at ho
  obtain ⟨-, ⟨har, -⟩, hlr⟩ := ho
  rintro n hi hj ⟨b, hb, hlo, hhi⟩
  rcases List.mem_append.mp hb with hb | hb
  · have := hlr b hb a (by simp)
    omega
  · have := har b hb
    omega

/-! ## A range less -/

/-- `ps` is what is left of `a` outside the range. Its items stand to `a` as `R` says. -/
structure Left (S : Span α) (R : α → α → Prop) (i j : Nat) (a : α) (ps : List α) : Prop where
  ordered : S.Ordered ps
  forward : ∀ p ∈ ps, S.lo p ≤ S.hi p
  inside : ∀ p ∈ ps, S.lo a ≤ S.lo p ∧ S.hi p ≤ S.hi a
  outside : ∀ p ∈ ps, ∀ n, S.Holds p n → n < i ∨ j ≤ n
  related : ∀ p ∈ ps, R a p
  all : ∀ n, S.Holds a n → n < i ∨ j ≤ n → S.Covers ps n

/-- The range is cut out of every item. -/
inductive CutOut (S : Span α) (R : α → α → Prop) (i j : Nat) : List α → List α → Prop where
  | nil : CutOut S R i j [] []
  | cons {a : α} {ps l l' : List α} : S.Left R i j a ps → CutOut S R i j l l' → CutOut S R i j (a :: l) (ps ++ l')

variable {R : α → α → Prop} {i j : Nat} {l l' : List α}

theorem Left.whole {a : α} (hf : S.lo a ≤ S.hi a) (hout : ∀ n, S.Holds a n → n < i ∨ j ≤ n) (hR : R a a) :
    S.Left R i j a [a] where
  ordered := List.pairwise_singleton _ _
  forward := by simpa using hf
  inside := by simp
  outside := by simpa using hout
  related := by simpa using hR
  all n hn _ := ⟨a, by simp, hn⟩

theorem CutOut.whole (hf : ∀ a ∈ l, S.lo a ≤ S.hi a) (hout : ∀ a ∈ l, ∀ n, S.Holds a n → n < i ∨ j ≤ n)
    (hR : ∀ a, R a a) : S.CutOut R i j l l := by
  induction l with
  | nil => exact CutOut.nil
  | cons a l ih =>
    have hrest := ih (fun b hb => hf b (by simp [hb])) fun b hb => hout b (by simp [hb])
    exact CutOut.cons (Left.whole (hf a (by simp)) (hout a (by simp)) (hR a)) hrest

theorem CutOut.part (h : S.CutOut R i j l l') {p : α} (hp : p ∈ l') :
    ∃ a ∈ l, R a p ∧ S.lo a ≤ S.lo p ∧ S.lo p ≤ S.hi p ∧ S.hi p ≤ S.hi a ∧ ∀ n, S.Holds p n → n < i ∨ j ≤ n := by
  induction h with
  | nil => cases hp
  | @cons a ps l l' hleft _ ih =>
    rcases List.mem_append.mp hp with hp | hp
    · obtain ⟨hlo, hhi⟩ := hleft.inside p hp
      exact ⟨a, by simp, hleft.related p hp, hlo, hleft.forward p hp, hhi, hleft.outside p hp⟩
    · obtain ⟨b, hb, hpart⟩ := ih hp
      exact ⟨b, by simp [hb], hpart⟩

theorem CutOut.free (h : S.CutOut R i j l l') : S.Free l' i j := by
  rintro n hi hj ⟨p, hp, hpn⟩
  obtain ⟨-, -, -, -, -, -, hout⟩ := h.part hp
  have := hout n hpn
  omega

theorem CutOut.kept (h : S.CutOut R i j l l') {a : α} {n : Nat} (ha : a ∈ l) (hn : S.Holds a n) (hout : n < i ∨ j ≤ n) :
    ∃ p ∈ l', R a p ∧ S.Holds p n := by
  induction h with
  | nil => cases ha
  | @cons b ps l l' hleft _ ih =>
    rcases List.mem_cons.mp ha with rfl | ha
    · obtain ⟨p, hp, hpn⟩ := hleft.all n hn hout
      exact ⟨p, by simp [hp], hleft.related p hp, hpn⟩
    · obtain ⟨p, hp, hpart⟩ := ih ha
      exact ⟨p, by simp [hp], hpart⟩

theorem CutOut.ordered (h : S.CutOut R i j l l') (ho : S.Ordered l) : S.Ordered l' := by
  induction h with
  | nil => exact ho
  | @cons a ps l l' hleft hrest ih =>
    have hpair := List.pairwise_cons.mp ho
    refine List.pairwise_append.mpr ⟨hleft.ordered, ih hpair.2, fun p hp q hq => ?_⟩
    obtain ⟨b, hb, -, hlo, -⟩ := hrest.part hq
    have := hpair.1 b hb
    have := (hleft.inside p hp).2
    omega

end Span

end Kernel.Lib
