import Kernel.Heap.Layout

/-!
# What the helpers of the heap do

One spec for each helper that writes. The words a helper writes are those of its
block and the links of the available blocks.
-/

namespace Kernel

open Lib

namespace Heap

/-! ## Reads -/

section

variable {h : Heap} {i j w : Nat}

@[simp] theorem set_array : (h.set i w).array j = if j = i then w else h.array j := rfl
@[simp] theorem set_avail : (h.set i w).avail = h.avail := rfl
@[simp] theorem set_len : (h.set i w).len = h.len := rfl
@[simp] theorem set_base : (h.set i w).base = h.base := rfl

theorem set_same : (h.set i w).array i = w := if_pos rfl

theorem set_other (hj : j ≠ i) : (h.set i w).array j = h.array j := if_neg hj

theorem set_if_array {c : Prop} [Decidable c] :
    (if c then h.set i w else h).array j = if c ∧ j = i then w else h.array j := by
  by_cases hc : c
  · rw [if_pos hc, set_array]
    simp only [hc, true_and]
  · rw [if_neg hc, if_neg fun hj => hc hj.1]

theorem add64_eq (hi : i + j < 2 ^ 64) : add64 i j = i + j := Nat.mod_eq_of_lt hi

theorem sub64_eq (hi : i < 2 ^ 64) (hj : j ≤ i) : sub64 i j = i - j := by
  simp only [sub64]
  omega

theorem sanity_eq : sanity i = pure i := if_neg (by decide)

theorem next_run (hi : i + 1 < 2 ^ 64) : (next i).run h = some (h.array (i + 1), h) := by
  rw [next, Prog.get_bind_run, sanity_eq, add64_eq hi]
  rfl

theorem prev_run (hi : i + 2 < 2 ^ 64) : (prev i).run h = some (h.array (i + 2), h) := by
  rw [prev, Prog.get_bind_run, sanity_eq, add64_eq hi]
  rfl

theorem setNext_run (hi : i + 1 < 2 ^ 64) : (setNext i w).run h = some ((), h.set (i + 1) w) := by
  rw [setNext, Prog.modify_run, add64_eq hi]

theorem setPrev_run (hi : i + 2 < 2 ^ 64) : (setPrev i w).run h = some ((), h.set (i + 2) w) := by
  rw [setPrev, Prog.modify_run, add64_eq hi]

theorem setPrev_if_run {β : Type} (hi : i ≠ 0 → i + 2 < 2 ^ 64) (f : H β) :
    (if i ≠ 0 then do
      setPrev i w
      f
    else f : H β).run h = f.run (if i ≠ 0 then h.set (i + 2) w else h) := by
  by_cases h0 : i ≠ 0
  · rw [if_pos h0, if_pos h0, Prog.bind_run (setPrev_run (hi h0))]
  · rw [if_neg h0, if_neg h0]

end

/-! ## Nodes -/

/-- Nodes are four words apart, and their four words are in the array. -/
structure Spread (len : Nat) (A : List Nat) : Prop where
  inside : ∀ k ∈ A, k + 4 ≤ len
  apart : ∀ k ∈ A, ∀ m ∈ A, k = m ∨ k + 4 ≤ m ∨ m + 4 ≤ k

/-- Outside the links of `A` and the words that `P` allows, `t` is `h`. -/
structure Wrote (h t : Heap) (A : List Nat) (P : Nat → Prop) : Prop where
  same : ∀ w, (∀ k ∈ A, w ≠ k + 1 ∧ w ≠ k + 2) → ¬ P w → t.array w = h.array w
  len : t.len = h.len
  base : t.base = h.base

theorem Wrote.fixed {h t : Heap} {A : List Nat} {P : Nat → Prop} (hw : Wrote h t A P) : t.fixed = h.fixed :=
  Prod.ext hw.base hw.len

section

variable {h : Heap} {i n : Nat} {A A₁ A₂ : List Nat}

theorem remove_spec (hl : h.Listed (A₁ ++ i :: A₂)) (hlen : h.len < 2 ^ 62) (hs : Spread h.len (A₁ ++ i :: A₂)) :
    ∃ t, (remove i).run h = some ((), t) ∧ t.Listed (A₁ ++ A₂) ∧ Wrote h t (A₁ ++ A₂) fun _ => False := by
  have hi : i ∈ A₁ ++ i :: A₂ := by simp
  have hiin := hs.inside i hi
  obtain ⟨hbefore, hafter⟩ := Linked.neighbours hl
  have hnull := hl.null_not_mem
  have hp : h.array (i + 2) = 0 ∨ h.array (i + 2) ∈ A₁ ++ A₂ := by
    rcases hbefore with ⟨h0, -⟩ | hmem
    · exact Or.inl h0
    · exact Or.inr (List.mem_append_left _ hmem)
  have hn : h.array (i + 1) = 0 ∨ h.array (i + 1) ∈ A₁ ++ A₂ := by
    rcases hafter with h0 | hmem
    · exact Or.inl h0
    · exact Or.inr (List.mem_append_right _ hmem)
  have hsub : ∀ k ∈ A₁ ++ A₂, k ∈ A₁ ++ i :: A₂ := fun k hk => mem_around.mpr (Or.inr hk)
  generalize hpv : h.array (i + 2) = p at hp
  generalize hnv : h.array (i + 1) = m at hn
  have hpin : p + 4 ≤ h.len ∨ p = 0 := hp.elim Or.inr fun hk => Or.inl (hs.inside p (hsub p hk))
  have hmin : m + 4 ≤ h.len ∨ m = 0 := hn.elim Or.inr fun hk => Or.inl (hs.inside m (hsub m hk))
  let u : Heap := if p = 0 then { h with avail := m } else h.set (p + 1) m
  let t : Heap := if m ≠ 0 then u.set (m + 2) p else u
  have huword : ∀ w, u.array w = if p ≠ 0 ∧ w = p + 1 then m else h.array w := by
    intro w
    by_cases h0 : p = 0
    · simp only [u, if_pos h0, h0, ne_eq, not_true_eq_false, false_and, if_false]
    · simp only [u, if_neg h0, set_array, ne_eq, h0, not_false_eq_true, true_and]
  have hword : ∀ w, t.array w = if m ≠ 0 ∧ w = m + 2 then p else if p ≠ 0 ∧ w = p + 1 then m else h.array w :=
    fun w => by rw [set_if_array, huword]
  have hrun : (remove i).run h = some ((), t) := by
    rw [remove, Prog.bind_run (prev_run (by omega)), Prog.bind_run (next_run (by omega)), hpv, hnv]
    have hlast : (if m ≠ 0 then setPrev m p else pure () : H Unit).run u = some ((), t) := by
      have hset := setPrev_if_run (h := u) (i := m) (w := p) (fun h0 => by omega) (pure ())
      rwa [bind_pure_unit] at hset
    by_cases h0 : p = 0
    · have hu : u = { h with avail := m } := if_pos h0
      rw [if_pos h0, Prog.modify_bind_run, ← hu]
      exact hlast
    · have hu : u = h.set (p + 1) m := if_neg h0
      rw [if_neg h0, Prog.bind_run (setNext_run (by omega)), ← hu]
      exact hlast
  refine ⟨t, hrun, Linked.remove hl ?_ (fun y hy => ?_) (fun y hy => ?_), fun w hw _ => ?_, ?_, ?_⟩
  · simp only [t, u, hpv, hnv]
    split_ifs <;> rfl
  · have hyn : m ≠ 0 → y = m ∨ y + 4 ≤ m ∨ m + 4 ≤ y := fun h0 =>
      hs.apart y (hsub y hy) m (hsub m (hn.resolve_left h0))
    have hyp : y ≠ 0 := by
      rintro rfl
      exact hnull (hsub 0 hy)
    rw [hword, hpv, hnv]
    split_ifs <;> omega
  · have hyp : p ≠ 0 → y = p ∨ y + 4 ≤ p ∨ p + 4 ≤ y := fun h0 =>
      hs.apart y (hsub y hy) p (hsub p (hp.resolve_left h0))
    have hyn : y ≠ 0 := by
      rintro rfl
      exact hnull (hsub 0 hy)
    rw [hword, hpv, hnv]
    split_ifs <;> omega
  · rw [hword, if_neg, if_neg]
    · rintro ⟨h0, rfl⟩
      exact (hw p (hp.resolve_left h0)).1 rfl
    · rintro ⟨h0, rfl⟩
      exact (hw m (hn.resolve_left h0)).2 rfl
  · simp only [t, u]
    split_ifs <;> rfl
  · simp only [t, u]
    split_ifs <;> rfl

theorem footer_set (he : n % 2 = 0) (h2 : 2 ≤ n) (hi : i + n < 2 ^ 64) {w : Nat} (hw : w = n ∨ w = n + 1) :
    (h.set i w).footerFromHeader i = i + n - 1 := by
  have hsize : (h.set i w).size i = n := by
    rw [size, set_array, if_pos rfl]
    omega
  rw [footerFromHeader, hsize, add64_eq hi, sub64_eq (by omega) (by omega)]

theorem makeTaken_spec (he : n % 2 = 0) (h2 : 2 ≤ n) (hi : i + n < 2 ^ 64) :
    ∃ t, (makeTaken i n).run h = some ((), t) ∧ t.Marked ⟨i, n, true⟩ ∧ t.avail = h.avail ∧
      Wrote h t [] fun w => w = i ∨ w = i + n - 1 := by
  have hn : add64 n 1 = n + 1 := add64_eq (by omega)
  refine ⟨(h.set i (n + 1)).set (i + n - 1) (n + 1), ?_, ⟨?_, ?_⟩, rfl, fun w _ hw => ?_, rfl, rfl⟩
  · rw [makeTaken, Prog.assert_bind_run he, hn, Prog.modify_bind_run, Prog.modify_run,
      footer_set he h2 hi (Or.inr rfl)]
  · simp only [set_array, Block.word, if_true]
    split_ifs <;> rfl
  · exact if_pos rfl
  · rw [not_or] at hw
    rw [set_array, if_neg hw.2, set_array, if_neg hw.1]

theorem makeAvail_spec (hl : h.Listed A) (hlen : h.len < 2 ^ 62) (hs : Spread h.len A) (he : n % 2 = 0) (h4 : 4 ≤ n)
    (h0 : i ≠ 0) (hi : i + n ≤ h.len) (hout : ∀ k ∈ A, k + 4 ≤ i ∨ i + n ≤ k) :
    ∃ t, (makeAvail i n).run h = some ((), t) ∧ t.Marked ⟨i, n, false⟩ ∧ t.Listed (i :: A) ∧
      Wrote h t A fun w => i ≤ w ∧ w < i + n := by
  have ha : h.avail ≠ 0 → h.avail ∈ A := hl.head_mem
  have hain : h.avail + 4 ≤ h.len ∨ h.avail = 0 := by
    by_cases hz : h.avail = 0
    · exact Or.inr hz
    · exact Or.inl (hs.inside _ (ha hz))
  let u : Heap := (((h.set i n).set (i + n - 1) n).set (i + 1) h.avail).set (i + 2) 0
  let v : Heap := if h.avail ≠ 0 then u.set (h.avail + 2) i else u
  have hrun : (makeAvail i n).run h = some ((), { v with avail := i }) := by
    rw [makeAvail, Prog.assert_bind_run he, Prog.modify_bind_run, Prog.modify_bind_run,
      footer_set he (by omega) (by omega) (Or.inl rfl), Prog.get_bind_run, Prog.bind_run (setNext_run (by omega)),
      Prog.bind_run (setPrev_run (by omega))]
    have hroom : h.avail ≠ 0 → h.avail + 2 < 2 ^ 64 := fun h0 => by omega
    exact setPrev_if_run hroom _
  have havail : h.avail ≠ 0 → h.avail + 4 ≤ i ∨ i + n ≤ h.avail := fun hz => hout _ (ha hz)
  have hblock : u.array i = n ∧ u.array (i + n - 1) = n ∧ u.array (i + 1) = h.avail ∧ u.array (i + 2) = 0 := by
    refine ⟨?_, ?_, ?_, set_same⟩
    · rw [set_other (by omega), set_other (by omega), set_other (by omega), set_same]
    · rw [set_other (by omega), set_other (by omega), set_same]
    · rw [set_other (by omega), set_same]
  have houter : ∀ w, w < i ∨ i + n ≤ w → u.array w = h.array w := fun w hw => by
    rw [set_other (by omega), set_other (by omega), set_other (by omega), set_other (by omega)]
  have hlink : ∀ w, v.array w = if h.avail ≠ 0 ∧ w = h.avail + 2 then i else u.array w := fun w => set_if_array
  -- The link that goes back to the block is not in it.
  have hinner : ∀ w, i ≤ w → w < i + n → v.array w = u.array w := by
    intro w hiw hw
    rw [hlink, if_neg]
    rintro ⟨hz, rfl⟩
    have := havail hz
    omega
  obtain ⟨hheader, hfooter, hnext, hprev⟩ := hblock
  refine ⟨_, hrun, ⟨?_, ?_⟩, Linked.push hl ?_ h0 ?_ ?_ (fun y hy => ?_) (fun y hy => ?_), fun w hw hwb => ?_, ?_, ?_⟩
  · exact (hinner i (by omega) (by omega)).trans hheader
  · exact (hinner (i + n - 1) (by omega) (by omega)).trans hfooter
  · intro hmem
    have := hout i hmem
    omega
  · exact (hinner (i + 1) (by omega) (by omega)).trans hnext
  · exact (hinner (i + 2) (by omega) (by omega)).trans hprev
  · have hy' := hout y hy
    have hya : h.avail ≠ 0 → y + 1 ≠ h.avail + 2 := fun hz => by
      have := hs.apart y hy _ (ha hz)
      omega
    show v.array (y + 1) = h.array (y + 1)
    rw [hlink, if_neg fun hw => hya hw.1 hw.2, houter (y + 1) (by omega)]
  · have hy' := hout y hy
    have hy0 : y ≠ 0 := fun e => hl.null_not_mem (e ▸ hy)
    show v.array (y + 2) = if y = h.avail then i else h.array (y + 2)
    rw [hlink, houter (y + 2) (by omega)]
    refine if_congr ⟨fun hw => by omega, fun hya => ⟨by omega, by omega⟩⟩ rfl rfl
  · show v.array w = h.array w
    rw [hlink, if_neg fun hwa => (hw _ (ha hwa.1)).2 hwa.2, houter w (by omega)]
  · show v.len = h.len
    simp only [v, u]
    split_ifs <;> rfl
  · show v.base = h.base
    simp only [v, u]
    split_ifs <;> rfl

end

end Heap

end Kernel
