import Kernel.Ref.Cascade

/-!
# Assignment of references (`StrongRef::operator=`)

The old target is released before the new one is retained. That is right as long as the release deletes neither
the object that holds the source nor the one that holds the target.
-/

namespace Kernel

open Lib

section

variable {g s t : Graph} {a b v m : Nat} {z : Option Nat}

theorem Graph.here_iff : g.Here v ↔ ∀ o, g.holder v = some o → g.deleted o = false := by
  unfold Graph.Here
  cases g.holder v with
  | none => simp
  | some o => simp

theorem Graph.Ok.here (hg : g.Ok) (hv : v ∈ g.live) : g.Here v :=
  Graph.here_iff.mpr fun o ho => (hg.alive v o ho).mp hv

theorem Graph.Ok.target (hg : g.Ok) (hv : v ∈ g.live) (href : g.var v = some m) :
    g.freed m = false ∧ ∀ o, (g.middle m).ptr = some o → g.deleted o = false := by
  have hpos : 0 < (g.middle m).strong_count := by
    rw [hg.counted]
    exact refs_pos.mpr ⟨v, hv, href⟩
  obtain ⟨hfreed, o, ho, halive⟩ := hg.managed m hpos
  refine ⟨hfreed, fun p hp => ?_⟩
  obtain rfl : o = p := Option.some.inj (ho.symm.trans hp)
  exact halive

theorem StrongRef.middle_run (h : s.Here v) : (StrongRef.middle v).run s = some (s.var v, s) := by
  unfold StrongRef.middle
  rw [Prog.get_bind_run, Prog.assert_bind_run h]
  rfl

theorem StrongRef.middle_gone (h : ¬ s.Here v) : (StrongRef.middle v).run s = none := by
  unfold StrongRef.middle
  rw [Prog.get_bind_run]
  exact Prog.assert_bind_none h

/-! ## Before and after the release -/

theorem Graph.Ok.release (hg : g.Ok) (ha : a ∈ g.live) : Falling g a { g with live := g.live.erase a } [a] where
  var := rfl
  holder := rfl
  fields := rfl
  live := List.erase_sublist
  gone := hg.nodup.not_mem_erase
  pending v hv := by rwa [List.mem_singleton.mp hv]
  counted m := by
    have herase := refs_erase (g := g) (m := m) ha
    have hcount := hg.counted m
    rw [refs_cons]
    show _ = g.refs (g.live.erase a) m + _
    have hnil : g.refs [] m = 0 := rfl
    dsimp only
    omega
  whole m hm := ⟨(hg.managed m hm).1, rfl⟩
  falls m hm := absurd hm.1 (by rw [hm.2]; decide)
  ended v hv hnot := by
    left
    by_contra hva
    exact hnot ((List.mem_erase_of_ne hva).mpr hv)
  deleted o ho := Or.inl ho

theorem Falling.fallen (h : Falling g a t []) (hg : g.Ok) (hc : ∀ m o, Fallen g t m → (g.middle m).ptr = some o →
    t.deleted o = true ∧ ∀ v ∈ g.fields o, v ∉ t.live) (hm : g.Falls a m) : Fallen g t m := by
  induction hm with
  | @mk m own hpos hheld hfalls ih =>
    refine ⟨hpos, ?_⟩
    have hcount := h.counted m
    have hnil : g.refs [] m = 0 := rfl
    by_contra hne
    obtain ⟨v, hv, href⟩ := refs_pos.mp (by omega : 0 < g.refs t.live m)
    have hva : v ≠ a := fun e => h.gone (e ▸ hv)
    have hvg := h.live.subset hv
    obtain ⟨o, hholder, hptr⟩ := hheld v hvg href hva
    exact (hc _ o (ih v hvg href hva) hptr).2 v ((hg.fields o v).mpr hholder) hv

theorem Falling.here_iff (h : Falling g a t []) (hg : g.Ok) (hc : ∀ m o, Fallen g t m → (g.middle m).ptr = some o →
    t.deleted o = true ∧ ∀ v ∈ g.fields o, v ∉ t.live) (hv : v ∈ g.live) : t.Here v ↔ ¬ g.HeldBy a v := by
  rw [Graph.here_iff, h.holder]
  constructor
  · rintro hhere ⟨m, o, hholder, hptr, hm⟩
    have hdel := (hc m o (h.fallen hg hc hm) hptr).1
    rw [hhere o hholder] at hdel
    cases hdel
  · intro hheld o hholder
    by_contra hdel
    rw [Bool.not_eq_false] at hdel
    rcases h.deleted o hdel with hold | ⟨m, hptr, hm⟩
    · rw [(hg.alive v o hholder).mp hv] at hold
      cases hold
    · exact hheld ⟨m, o, hholder, hptr, h.falls m hm⟩

theorem StrongRef.add_strong_run (hz : ∀ y, z = some y → t.freed y = false ∧ 0 < (t.middle y).strong_count) :
    ∃ u, (StrongRef.add_strong z).run t = some (z, u) ∧
      (∀ m, (u.middle m).strong_count = (t.middle m).strong_count + if z = some m then 1 else 0) ∧
      (∀ m, (u.middle m).ptr = (t.middle m).ptr) ∧ u.var = t.var ∧ u.holder = t.holder ∧ u.freed = t.freed ∧
      u.deleted = t.deleted ∧ u.live = t.live := by
  cases z with
  | none => exact ⟨t, rfl, fun m => by simp, fun m => rfl, rfl, rfl, rfl, rfl, rfl⟩
  | some y =>
    obtain ⟨hfreed, hpos⟩ := hz y rfl
    have hadd : (t.middle y).add_strong =
        ({ t.middle y with strong_count := (t.middle y).strong_count + 1 }, true) := by
      unfold Middle.add_strong
      rw [if_pos hpos]
    refine ⟨t.setMiddle y { t.middle y with strong_count := (t.middle y).strong_count + 1 }, ?_, fun m => ?_,
      fun m => ?_, rfl, rfl, rfl, rfl, rfl⟩
    · unfold StrongRef.add_strong
      dsimp only
      rw [Prog.get_bind_run, Prog.assert_bind_run hfreed, hadd]
      rfl
    · rw [Graph.setMiddle_apply]
      by_cases hmy : m = y
      · rw [if_pos hmy, hmy, if_pos rfl]
      · rw [if_neg hmy, if_neg fun e => hmy (Option.some.inj e).symm]
        rfl
    · rw [Graph.setMiddle_apply]
      split_ifs with hmy
      · rw [hmy]
      · rfl

/-- **Assignment.** It is right exactly when the two refer to the same already, or when neither of them lies in an
object that the target alone keeps alive. -/
theorem assign_iff (hg : g.Ok) (ha : a ∈ g.live) (hb : b ∈ g.live) :
    g.Assigns a b ↔ g.var a = g.var b ∨ ¬ g.HeldBy a a ∧ ¬ g.HeldBy a b := by
  have hstart : ∀ f : Option Nat → Option Nat → Prog Graph Unit,
      (do let x ← StrongRef.middle a; let y ← StrongRef.middle b; f x y).run g = (f (g.var a) (g.var b)).run g := by
    intro f
    rw [Prog.bind_run (StrongRef.middle_run (hg.here ha)), Prog.bind_run (StrongRef.middle_run (hg.here hb))]
  unfold Graph.Assigns StrongRef.assign
  rw [hstart]
  by_cases heq : g.var a = g.var b
  · rw [if_neg (not_not.mpr heq)]
    refine iff_of_true ⟨g, rfl, heq, fun m hm => ?_, hg.counted⟩ (Or.inl heq)
    exact ⟨(hg.target hb hm).1, rfl, (hg.target hb hm).2⟩
  rw [if_pos heq, Prog.modify_bind_run, Prog.get_bind_run]
  have hab : b ≠ a := fun e => heq (by rw [e])
  rcases remove_strong_run hg (hg.release ha) (Nat.lt_succ_self _) with ⟨t, hrun, ht, hc⟩ | ⟨hnone, hheld⟩
  · rw [Prog.bind_run hrun]
    have hdone : ∀ m o, Fallen g t m → (g.middle m).ptr = some o → t.deleted o = true ∧ ∀ v ∈ g.fields o, v ∉ t.live :=
      fun m o hm => hc.done m o hm
    have hhere : ∀ {v}, v ∈ g.live → (t.Here v ↔ ¬ g.HeldBy a v) := fun hv => ht.here_iff hg hdone hv
    by_cases hbheld : g.HeldBy a b
    · rw [Prog.bind_none (StrongRef.middle_gone fun h => (hhere hb).mp h hbheld)]
      exact iff_of_false (by rintro ⟨_, h, -⟩; cases h) fun h => (h.resolve_left heq).2 hbheld
    · have hvar : t.var b = g.var b := congrFun ht.var b
      have hblive : b ∈ t.live := by
        by_contra hnot
        obtain ⟨m, o, hholder, hptr, hm⟩ := (ht.ended b hb hnot).resolve_left hab
        exact hbheld ⟨m, o, hholder, hptr, ht.falls m hm⟩
      have hnil : ∀ m, g.refs [] m = 0 := fun _ => rfl
      have hkept : ∀ y, g.var b = some y → t.freed y = false ∧ 0 < (t.middle y).strong_count ∧
          (t.middle y).ptr = (g.middle y).ptr := by
        intro y hy
        have hpos : 0 < (t.middle y).strong_count := by
          rw [ht.counted, hnil]
          exact refs_pos.mpr ⟨b, hblive, hy⟩
        exact ⟨(ht.whole y hpos).1, hpos, (ht.whole y hpos).2⟩
      obtain ⟨u, hadd, hcount, hptr, huvar, huholder, hufreed, hudel, hulive⟩ :=
        StrongRef.add_strong_run fun y hy => ⟨(hkept y hy).1, (hkept y hy).2.1⟩
      rw [Prog.bind_run (StrongRef.middle_run ((hhere hb).mpr hbheld)), hvar, Prog.bind_run hadd, Prog.get_bind_run]
      have huhere : u.Here a ↔ ¬ g.HeldBy a a := by
        rw [← hhere ha, Graph.here_iff, Graph.here_iff, huholder, hudel]
      by_cases haheld : g.HeldBy a a
      · rw [Prog.assert_bind_none fun h => huhere.mp h haheld]
        exact iff_of_false (by rintro ⟨_, h, -⟩; cases h) fun h => (h.resolve_left heq).1 haheld
      · rw [Prog.assert_bind_run (huhere.mpr haheld)]
        refine iff_of_true ⟨_, rfl, Function.update_self _ _ _, fun y hy => ?_, fun m => ?_⟩ (Or.inr ⟨haheld, hbheld⟩)
        · obtain ⟨hfreed, hpos, hp⟩ := hkept y hy
          refine ⟨by dsimp only; rw [hufreed]; exact hfreed, (hptr y).trans hp, fun o ho => ?_⟩
          -- The target of `b` still counts, so nothing deleted it.
          dsimp only
          rw [hudel]
          by_contra hdel
          rw [Bool.not_eq_false] at hdel
          rcases ht.deleted o hdel with hold | ⟨m, hm, hfall⟩
          · rw [(hg.target hb hy).2 o ho] at hold
            cases hold
          · obtain rfl := hg.own _ _ _ hm ho
            have := hfall.2
            omega
        · have hother : ∀ w ∈ t.live, (Function.update u.var a (g.var b) w = some m ↔ g.var w = some m) := by
            intro w hw
            rw [Function.update_of_ne (fun e : w = a => ht.gone (e ▸ hw)), huvar, ht.var]
          have hsame : u.live.countP (fun w => Function.update u.var a (g.var b) w = some m) = g.refs t.live m := by
            rw [hulive]
            exact List.countP_congr fun w hw => by simpa using hother w hw
          show (u.middle m).strong_count = (a :: u.live).countP (fun w => Function.update u.var a (g.var b) w = some m)
          rw [List.countP_cons, hsame, Function.update_self, hcount, ht.counted, hnil]
          simp
  · rw [Prog.bind_none hnone]
    exact iff_of_false (by rintro ⟨_, h, -⟩; cases h) fun h => (h.resolve_left heq).1 hheld

end

/-! ## A linked list -/

/-- Reference 0 is to the first node, 1 is its `next`, 2 the null `next` of the second node, and 3 is null. -/
def listGraph : Graph where
  middle m := if m = 0 then ⟨some 0, 1, 0⟩ else if m = 1 then ⟨some 1, 1, 0⟩ else ⟨none, 0, 0⟩
  freed _ := false
  deleted _ := false
  var v := if v = 0 then some 0 else if v = 1 then some 1 else none
  holder v := if v = 1 then some 0 else if v = 2 then some 1 else none
  fields o := if o = 0 then [1] else if o = 1 then [2] else []
  live := [0, 1, 2, 3]

theorem listGraph_ok : listGraph.Ok := by
  refine ⟨by decide, fun m => ?_, fun m hm => ?_, fun m n o hm hn => ?_, fun o v => ?_, fun o => ?_, fun v o ho => ?_⟩
  · by_cases h0 : m = 0
    · rw [h0]
      rfl
    by_cases h1 : m = 1
    · rw [h1]
      rfl
    · simp [listGraph, Graph.refs, h0, h1, eq_comm]
  · refine ⟨rfl, m, ?_, rfl⟩
    simp only [listGraph] at hm ⊢
    split_ifs at hm ⊢ with h0 h1
    · rw [h0]
    · rw [h1]
    · exact absurd hm (Nat.lt_irrefl 0)
  · simp only [listGraph] at hm hn
    split_ifs at hm hn <;> simp_all
  · simp only [listGraph]
    split_ifs <;> simp_all [eq_comm]
  · simp only [listGraph]
    split_ifs <;> decide
  · simp only [listGraph] at ho ⊢
    split_ifs at ho <;> simp_all

/-- `p = p->next` reads the source in a deleted node. -/
theorem listGraph_next : ¬ ∀ (g : Graph) (a b : Nat), g.Ok → a ∈ g.live → b ∈ g.live → g.Assigns a b := by
  intro hall
  obtain ⟨t, hrun, -⟩ := hall listGraph 0 1 listGraph_ok (by decide) (by decide)
  have hnone : (StrongRef.assign 0 1).run listGraph = none := rfl
  rw [hnone] at hrun
  cases hrun

/-- `p = q` with a null `q` deletes the list. -/
theorem listGraph_null : listGraph.Assigns 0 3 := by
  refine (assign_iff listGraph_ok (by decide) (by decide)).mpr (Or.inr ⟨?_, ?_⟩)
  · rintro ⟨m, o, ho, -⟩
    cases ho
  · rintro ⟨m, o, ho, -⟩
    cases ho

end Kernel
