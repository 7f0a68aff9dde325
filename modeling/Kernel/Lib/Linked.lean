import Mathlib.Data.List.Basic
import Mathlib.Tactic.Common

/-!
# Doubly linked lists

Two functions link the nodes of a list, and a null node ends it on both sides.
-/

namespace Kernel.Lib

section

variable {α : Type*} {next prev next' prev' : α → α} {x b : α} {l r : List α}

theorem mem_around : x ∈ l ++ b :: r ↔ x = b ∨ x ∈ l ++ r := List.perm_middle.mem_iff.trans List.mem_cons

theorem mem_without (hb : b ∉ l ++ r) : x ∈ l ++ r ↔ x ∈ l ++ b :: r ∧ x ≠ b := by
  rw [mem_around]
  constructor
  · exact fun hx => ⟨Or.inr hx, fun e => hb (e ▸ hx)⟩
  · exact fun hx => hx.1.resolve_left hx.2

/-- From node `p`, with `q` before it, through `l` to the last node `q'`, with `p'` after it. -/
def Seg (next prev : α → α) : α → α → List α → α → α → Prop
  | q, p, [], q', p' => q = q' ∧ p = p'
  | q, p, x :: l, q', p' => p = x ∧ prev x = q ∧ Seg next prev x (next x) l q' p'

theorem Seg.append {q p q' p' : α} {l₁ l₂ : List α} :
    Seg next prev q p (l₁ ++ l₂) q' p' ↔ ∃ a b, Seg next prev q p l₁ a b ∧ Seg next prev a b l₂ q' p' := by
  induction l₁ generalizing q p with
  | nil =>
    constructor
    · exact fun h => ⟨q, p, ⟨rfl, rfl⟩, h⟩
    · rintro ⟨a, b, ⟨rfl, rfl⟩, h⟩
      exact h
  | cons x l₁ ih =>
    simp only [List.cons_append, Seg, ih]
    constructor
    · rintro ⟨hp, hq, a, b, h₁, h₂⟩
      exact ⟨a, b, ⟨hp, hq, h₁⟩, h₂⟩
    · rintro ⟨a, b, ⟨hp, hq, h₁⟩, h₂⟩
      exact ⟨hp, hq, a, b, h₁, h₂⟩

theorem Seg.congr {q p q' p' : α} {l : List α} (h : Seg next prev q p l q' p') (hn : ∀ x ∈ l, next' x = next x)
    (hp : ∀ x ∈ l, prev' x = prev x) : Seg next' prev' q p l q' p' := by
  induction l generalizing q p with
  | nil => exact h
  | cons x l ih =>
    obtain ⟨rfl, hq, hrest⟩ := h
    refine ⟨rfl, (hp p List.mem_cons_self).trans hq, ?_⟩
    rw [hn p List.mem_cons_self]
    exact ih hrest (fun y hy => hn y (List.mem_cons_of_mem _ hy)) fun y hy => hp y (List.mem_cons_of_mem _ hy)

theorem Seg.start_mem {q p q' p' : α} {l : List α} (h : Seg next prev q p l q' p') : p ∈ l ∨ p = p' := by
  cases l with
  | nil => exact Or.inr h.2
  | cons x l => exact Or.inl (h.1 ▸ List.mem_cons_self)

theorem Seg.stop_mem {q p q' p' : α} {l : List α} (h : Seg next prev q p l q' p') : q' ∈ l ∨ q' = q ∧ l = [] := by
  induction l generalizing q p with
  | nil => exact Or.inr ⟨h.1.symm, rfl⟩
  | cons x l ih =>
    left
    rcases ih h.2.2 with hmem | ⟨rfl, rfl⟩
    · exact List.mem_cons_of_mem _ hmem
    · exact List.mem_cons_self

variable [DecidableEq α]

theorem Seg.set_first {a a' b q p' : α} {l : List α} (h : Seg next prev a b l q p') (hnd : l.Nodup)
    (hn : ∀ y ∈ l, next' y = next y) (hp : ∀ y ∈ l, prev' y = if y = b then a' else prev y) :
    ∃ q', Seg next' prev' a' b l q' p' := by
  cases l with
  | nil => exact ⟨a', rfl, h.2⟩
  | cons y l =>
    obtain ⟨rfl, -, hrest⟩ := h
    have hb := (List.nodup_cons.mp hnd).1
    refine ⟨q, rfl, ?_, ?_⟩
    · rw [hp b List.mem_cons_self, if_pos rfl]
    · rw [hn b List.mem_cons_self]
      refine hrest.congr (fun z hz => hn z (List.mem_cons_of_mem _ hz)) fun z hz => ?_
      rw [hp z (List.mem_cons_of_mem _ hz), if_neg]
      rintro rfl
      exact hb hz

theorem Seg.set_last {q p a b b' : α} {l : List α} (h : Seg next prev q p l a b) (hnd : l.Nodup) (hne : l ≠ [])
    (hn : ∀ y ∈ l, next' y = if y = a then b' else next y) (hp : ∀ y ∈ l, prev' y = prev y) :
    Seg next' prev' q p l a b' := by
  induction l generalizing q p with
  | nil => exact absurd rfl hne
  | cons x l ih =>
    obtain ⟨rfl, hq, hrest⟩ := h
    obtain ⟨hpl, hnd⟩ := List.nodup_cons.mp hnd
    refine ⟨rfl, (hp p List.mem_cons_self).trans hq, ?_⟩
    rw [hn p List.mem_cons_self]
    cases l with
    | nil =>
      obtain ⟨rfl, -⟩ := hrest
      exact ⟨rfl, if_pos rfl⟩
    | cons y l =>
      have hpa : p ≠ a := by
        rintro rfl
        rcases hrest.stop_mem with hmem | ⟨-, hnil⟩
        · exact hpl hmem
        · cases hnil
      rw [if_neg hpa]
      exact ih hrest hnd (by simp) (fun z hz => hn z (List.mem_cons_of_mem _ hz)) fun z hz =>
        hp z (List.mem_cons_of_mem _ hz)

/-- The list from `head` goes through the nodes of `l`, each once. -/
structure Linked (next prev : α → α) (null head : α) (l : List α) : Prop where
  nodup : l.Nodup
  null_not_mem : null ∉ l
  seg : ∃ q, Seg next prev null head l q null

omit [DecidableEq α] in
theorem Linked.congr {null head : α} {l : List α} (h : Linked next prev null head l)
    (hn : ∀ x ∈ l, next' x = next x) (hp : ∀ x ∈ l, prev' x = prev x) : Linked next' prev' null head l := by
  obtain ⟨q, hq⟩ := h.seg
  exact ⟨h.nodup, h.null_not_mem, q, hq.congr hn hp⟩

omit [DecidableEq α] in
theorem Linked.head_mem {null head : α} {l : List α} (h : Linked next prev null head l) (hne : head ≠ null) :
    head ∈ l := by
  obtain ⟨q, hq⟩ := h.seg
  exact hq.start_mem.resolve_right hne

omit [DecidableEq α] in
theorem Linked.head_ne {null head x : α} {l : List α} (h : Linked next prev null head l) (hx : x ∈ l) :
    head ≠ null := by
  obtain ⟨q, hq⟩ := h.seg
  cases l with
  | nil => cases hx
  | cons y l =>
    rintro rfl
    exact h.null_not_mem (by simp [hq.1])

theorem Linked.push {null head x : α} {l : List α} (h : Linked next prev null head l) (hx : x ∉ l) (hnull : x ≠ null)
    (hnx : next' x = head) (hpx : prev' x = null) (hn : ∀ y ∈ l, next' y = next y)
    (hp : ∀ y ∈ l, prev' y = if y = head then x else prev y) : Linked next' prev' null x (x :: l) := by
  obtain ⟨q, hq⟩ := h.seg
  obtain ⟨q', hq'⟩ := hq.set_first h.nodup hn hp
  refine ⟨List.nodup_cons.mpr ⟨hx, h.nodup⟩, ?_, q', rfl, hpx, by rw [hnx]; exact hq'⟩
  rw [List.mem_cons, not_or]
  exact ⟨hnull.symm, h.null_not_mem⟩

omit [DecidableEq α] in
theorem Linked.neighbours {null head x : α} {l₁ l₂ : List α} (h : Linked next prev null head (l₁ ++ x :: l₂)) :
    (prev x = null ∧ l₁ = [] ∨ prev x ∈ l₁) ∧ (next x = null ∨ next x ∈ l₂) := by
  obtain ⟨q, hq⟩ := h.seg
  obtain ⟨a, b, h₁, rfl, rfl, h₂⟩ := Seg.append.mp hq
  exact ⟨h₁.stop_mem.symm, h₂.start_mem.symm⟩

omit [DecidableEq α] in
theorem Linked.parts {null head x : α} {l₁ l₂ : List α} (h : Linked next prev null head (l₁ ++ x :: l₂)) :
    l₁.Nodup ∧ l₂.Nodup ∧ (∀ y ∈ l₁, y ∉ l₂) ∧ null ∉ l₁ ∧ null ∉ l₂ := by
  have hnull := h.null_not_mem
  have hnd := List.nodup_append.mp h.nodup
  refine ⟨hnd.1, (List.nodup_cons.mp hnd.2.1).2, fun y hy hy' => ?_, fun hmem => ?_, fun hmem => ?_⟩
  · exact hnd.2.2 y hy y (List.mem_cons_of_mem _ hy') rfl
  · exact hnull (List.mem_append_left _ hmem)
  · exact hnull (List.mem_append_right _ (List.mem_cons_of_mem _ hmem))

theorem Linked.remove {null head head' x : α} {l₁ l₂ : List α} (h : Linked next prev null head (l₁ ++ x :: l₂))
    (hhead : head' = if prev x = null then next x else head)
    (hn : ∀ y ∈ l₁ ++ l₂, next' y = if y = prev x then next x else next y)
    (hp : ∀ y ∈ l₁ ++ l₂, prev' y = if y = next x then prev x else prev y) :
    Linked next' prev' null head' (l₁ ++ l₂) := by
  obtain ⟨hnd₁, hnd₂, hdisj, hn₁, hn₂⟩ := h.parts
  obtain ⟨hbefore, hafter⟩ := h.neighbours
  obtain ⟨q, hq⟩ := h.seg
  obtain ⟨a, b, h₁, rfl, rfl, h₂⟩ := Seg.append.mp hq
  have hprev : ∀ y ∈ l₂, y ≠ prev b := by
    rintro y hy rfl
    rcases hbefore with ⟨hnil, -⟩ | hmem
    · exact hn₂ (hnil ▸ hy)
    · exact hdisj _ hmem hy
  have hnext : ∀ y ∈ l₁, y ≠ next b := by
    rintro y hy rfl
    rcases hafter with hnil | hmem
    · exact hn₁ (hnil ▸ hy)
    · exact hdisj _ hy hmem
  have hfirst : Seg next' prev' null head' l₁ (prev b) (next b) := by
    rcases hbefore with ⟨hnil, rfl⟩ | hmem
    · rw [hhead, if_pos hnil]
      exact ⟨h₁.1, rfl⟩
    · have hne : prev b ≠ null := fun e => hn₁ (e ▸ hmem)
      rw [hhead, if_neg hne]
      refine h₁.set_last hnd₁ (List.ne_nil_of_mem hmem) (fun y hy => hn y (List.mem_append_left _ hy)) fun y hy => ?_
      rw [hp y (List.mem_append_left _ hy), if_neg (hnext y hy)]
  have hkeep : ∀ y ∈ l₂, next' y = next y := by
    intro y hy
    rw [hn y (List.mem_append_right _ hy), if_neg (hprev y hy)]
  obtain ⟨q', hsecond⟩ := h₂.set_first hnd₂ hkeep fun y hy => hp y (List.mem_append_right _ hy)
  refine ⟨List.nodup_append.mpr ⟨hnd₁, hnd₂, fun y hy z hz e => hdisj y hy (e ▸ hz)⟩, ?_, q',
    Seg.append.mpr ⟨_, _, hfirst, hsecond⟩⟩
  rw [List.mem_append, not_or]
  exact ⟨hn₁, hn₂⟩

end

end Kernel.Lib
