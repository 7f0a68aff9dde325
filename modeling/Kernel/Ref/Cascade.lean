import Kernel.Ref.Graph

/-!
# What a release takes along

`remove_strong` deletes exactly the objects that fall without the reference, unless
one of them holds that reference itself.
-/

namespace Kernel

open Lib

section

variable {g s t u : Graph} {a v m o fuel : Nat} {l P L L' : List Nat}

/-! ## Counting -/

theorem refs_cons : g.refs (v :: l) m = g.refs l m + if g.var v = some m then 1 else 0 := by
  unfold Graph.refs
  rw [List.countP_cons]
  simp

theorem refs_pos : 0 < g.refs l m ↔ ∃ v ∈ l, g.var v = some m := by
  unfold Graph.refs
  rw [List.countP_pos_iff]
  simp

theorem refs_erase (hv : v ∈ l) : g.refs (l.erase v) m + (if g.var v = some m then 1 else 0) = g.refs l m := by
  have hperm : g.refs l m = g.refs (v :: l.erase v) m := (List.perm_cons_erase hv).countP_eq _
  rw [hperm, refs_cons]

theorem Middle.remove_strong_more {x : Middle} (h : 1 < x.strong_count) :
    x.remove_strong = some ({ x with strong_count := x.strong_count - 1 }, none, false) := by
  unfold Middle.remove_strong
  rw [if_pos (by omega), if_neg (by dsimp only; omega)]

theorem Middle.remove_strong_last {x : Middle} (h : x.strong_count = 1) :
    x.remove_strong = some ({ x with ptr := none, strong_count := 0 }, x.ptr, decide (x.weak_count = 0)) := by
  unfold Middle.remove_strong
  simp [h]

@[simp] theorem Graph.setMiddle_apply (s : Graph) (m n : Nat) (x : Middle) :
    (s.setMiddle m x).middle n = if n = m then x else s.middle n := Function.update_apply s.middle m x n

/-! ## In the middle of a release -/

/-- `m` was deleted between the two states. -/
def Fallen (s t : Graph) (m : Nat) : Prop := 0 < (s.middle m).strong_count ∧ (t.middle m).strong_count = 0

/-- Reference `a` was taken off the graph `g`. The references in `P` have ended and are still counted. -/
structure Falling (g : Graph) (a : Nat) (s : Graph) (P : List Nat) : Prop where
  var : s.var = g.var
  holder : s.holder = g.holder
  fields : s.fields = g.fields
  live : s.live.Sublist g.live
  gone : a ∉ s.live
  pending : ∀ v ∈ P, v ∈ g.live
  counted : ∀ m, (s.middle m).strong_count = g.refs s.live m + g.refs P m
  whole : ∀ m, 0 < (s.middle m).strong_count → s.freed m = false ∧ (s.middle m).ptr = (g.middle m).ptr
  falls : ∀ m, Fallen g s m → g.Falls a m
  ended : ∀ v ∈ g.live, v ∉ s.live → v = a ∨ ∃ m o, g.holder v = some o ∧ (g.middle m).ptr = some o ∧ Fallen g s m
  deleted : ∀ o, s.deleted o = true → g.deleted o = true ∨ ∃ m, (g.middle m).ptr = some o ∧ Fallen g s m

/-- What is deleted on the way is deleted with all it holds. Of the rest, only the references in `L` end. -/
structure Cascade (g s t : Graph) (L : List Nat) : Prop where
  live : t.live.Sublist s.live
  counts : ∀ m, (s.middle m).strong_count = 0 → (t.middle m).strong_count = 0
  deleted : ∀ o, s.deleted o = true → t.deleted o = true
  done : ∀ m o, Fallen s t m → (g.middle m).ptr = some o → t.deleted o = true ∧ ∀ v ∈ g.fields o, v ∉ t.live
  ends : ∀ v ∈ L, v ∉ t.live
  kept : ∀ v ∈ s.live, v ∉ t.live → v ∈ L ∨
    ∃ m o, g.holder v = some o ∧ (g.middle m).ptr = some o ∧ 0 < (s.middle m).strong_count

theorem Cascade.refl (g s : Graph) : Cascade g s s [] where
  live := .refl _
  counts _ h := h
  deleted _ h := h
  done _ _ h := absurd h.1 (by rw [h.2]; decide)
  ends := nofun
  kept _ hv hnot := absurd hv hnot

theorem Cascade.trans (h : Cascade g s t L) (h' : Cascade g t u L') : Cascade g s u (L ++ L') where
  live := h'.live.trans h.live
  counts m hm := h'.counts m (h.counts m hm)
  deleted o ho := h'.deleted o (h.deleted o ho)
  done m o hm ho := by
    by_cases hmid : (t.middle m).strong_count = 0
    · obtain ⟨hdel, hfields⟩ := h.done m o ⟨hm.1, hmid⟩ ho
      exact ⟨h'.deleted o hdel, fun v hv hlive => hfields v hv (h'.live.subset hlive)⟩
    · exact h'.done m o ⟨Nat.pos_of_ne_zero hmid, hm.2⟩ ho
  ends v hv hlive := by
    rcases List.mem_append.mp hv with hv | hv
    · exact h.ends v hv (h'.live.subset hlive)
    · exact h'.ends v hv hlive
  kept v hv hnot := by
    by_cases hmid : v ∈ t.live
    · rcases h'.kept v hmid hnot with hL | ⟨m, o, hholder, hptr, hpos⟩
      · exact Or.inl (List.mem_append_right _ hL)
      · refine Or.inr ⟨m, o, hholder, hptr, Nat.pos_of_ne_zero fun h0 => ?_⟩
        rw [h.counts m h0] at hpos
        exact absurd hpos (by decide)
    · exact (h.kept v hv hmid).imp_left (List.mem_append_left _)

theorem Fallen.mono (h : Fallen g s m) (hc : Cascade g s t L) : Fallen g t m := ⟨h.1, hc.counts m h.2⟩

theorem Falling.count_pos (h : Falling g a s P) (hg : g.Ok) (hm : 0 < (s.middle m).strong_count) :
    0 < (g.middle m).strong_count := by
  rw [hg.counted]
  rw [h.counted] at hm
  rcases Nat.eq_zero_or_pos (g.refs s.live m) with h0 | hpos
  · obtain ⟨v, hv, href⟩ := refs_pos.mp (by omega : 0 < g.refs P m)
    exact refs_pos.mpr ⟨v, h.pending v hv, href⟩
  · obtain ⟨v, hv, href⟩ := refs_pos.mp hpos
    exact refs_pos.mpr ⟨v, h.live.subset hv, href⟩

theorem Falling.root (h : Falling g a s P) (hg : g.Ok) (hm : Fallen g s m) :
    ∃ x, g.var a = some x ∧ (s.middle x).strong_count = 0 := by
  obtain ⟨-, h0⟩ := id hm
  induction h.falls m hm with
  | @mk m own hpos hheld hfalls ih =>
    rw [hg.counted] at hpos
    obtain ⟨v, hv, href⟩ := refs_pos.mp hpos
    have hcount := h.counted m
    have hnot : v ∉ s.live := fun hlive => by
      have := refs_pos.mpr ⟨v, hlive, href⟩
      omega
    by_cases hva : v = a
    · rw [← hva]
      exact ⟨m, href, h0⟩
    · obtain ⟨n, o, hholder, hptr, hn⟩ := (h.ended v hv hnot).resolve_left hva
      obtain ⟨o', hholder', hptr'⟩ := hheld v hv href hva
      obtain rfl : o = o' := Option.some.inj (hholder.symm.trans hholder')
      obtain rfl := hg.own _ _ _ hptr hptr'
      exact ih v hv href hva hn hn.2

theorem Falling.endRef (h : Falling g a s P) (hv : v ∈ s.live) (hholder : g.holder v = some o)
    (hptr : (g.middle m).ptr = some o) (hm : Fallen g s m) : Falling g a { s with live := s.live.erase v }
    (v :: P) where
  var := h.var
  holder := h.holder
  fields := h.fields
  live := List.erase_sublist.trans h.live
  gone hmem := h.gone (List.mem_of_mem_erase hmem)
  pending w hw := by
    rcases List.mem_cons.mp hw with rfl | hw
    · exact h.live.subset hv
    · exact h.pending w hw
  counted n := by
    have hcount := h.counted n
    have herase := refs_erase (g := g) (m := n) hv
    rw [refs_cons]
    dsimp only
    omega
  whole := h.whole
  falls := h.falls
  ended w hw hnot := by
    by_cases hwv : w = v
    · exact Or.inr ⟨m, o, hwv ▸ hholder, hptr, hm⟩
    · refine h.ended w hw fun hlive => hnot ?_
      exact (List.mem_erase_of_ne hwv).mpr hlive
  deleted := h.deleted

theorem Cascade.endRef (g s : Graph) (hnd : s.live.Nodup) : Cascade g s { s with live := s.live.erase v } [v] where
  live := List.erase_sublist
  counts _ h := h
  deleted _ h := h
  done _ _ h := absurd h.1 (by rw [h.2]; decide)
  ends w hw hlive := by
    rw [List.mem_singleton.mp hw] at hlive
    exact hnd.not_mem_erase hlive
  kept w hw hnot := by
    left
    by_contra hwv
    exact hnot ((List.mem_erase_of_ne fun e => hwv (List.mem_singleton.mpr e)).mpr hw)

theorem Falling.drop (h : Falling g a s (v :: P)) (href : g.var v = some m) {x : Middle}
    (hx : x.strong_count = (s.middle m).strong_count - 1) (hptr : 0 < x.strong_count → x.ptr = (s.middle m).ptr) :
    Falling g a (s.setMiddle m x) P := by
  have hcount := h.counted m
  rw [refs_cons, if_pos href] at hcount
  have hmono : ∀ n, Fallen g s n → Fallen g (s.setMiddle m x) n := by
    intro n hn
    refine ⟨hn.1, ?_⟩
    rw [Graph.setMiddle_apply]
    split_ifs with hnm
    · have := hn.2
      rw [hnm] at this
      omega
    · exact hn.2
  refine ⟨h.var, h.holder, h.fields, h.live, h.gone, fun w hw => h.pending w (List.mem_cons_of_mem _ hw), fun n => ?_,
    fun n hn => ?_, fun n hn => ?_, fun w hw hnot => ?_, fun o ho => ?_⟩
  · rw [Graph.setMiddle_apply]
    show _ = g.refs s.live n + g.refs P n
    split_ifs with hnm
    · rw [hnm]
      omega
    · have hn := h.counted n
      have hne : ¬ g.var v = some n := by
        rw [href]
        exact fun e => hnm (Option.some.inj e).symm
      rw [refs_cons, if_neg hne] at hn
      exact hn
  · rw [Graph.setMiddle_apply] at hn ⊢
    split_ifs at hn ⊢ with hnm
    · obtain ⟨hfreed, hp⟩ := h.whole m (by omega)
      rw [hnm]
      exact ⟨hfreed, (hptr hn).trans hp⟩
    · exact h.whole n hn
  · obtain ⟨hpos, h0⟩ := hn
    rw [Graph.setMiddle_apply] at h0
    split_ifs at h0 with hnm
    · -- The last reference is gone: each of them was `a` or lay in a deleted object.
      obtain rfl := hnm
      have hall : ∀ w ∈ g.live, g.var w = some n → w ≠ a →
          ∃ m o, g.holder w = some o ∧ (g.middle m).ptr = some o ∧ Fallen g s m := by
        intro w hw hrefw hwa
        refine (h.ended w hw fun hlive => ?_).resolve_left hwa
        have := refs_pos.mpr ⟨w, hlive, hrefw⟩
        omega
      choose! own o hall using hall
      refine .mk own hpos (fun w hw hrefw hwa => ?_) fun w hw hrefw hwa => ?_
      · exact ⟨o w, (hall w hw hrefw hwa).1, (hall w hw hrefw hwa).2.1⟩
      · exact h.falls _ (hall w hw hrefw hwa).2.2
    · exact h.falls n ⟨hpos, h0⟩
  · refine (h.ended w hw hnot).imp_right ?_
    rintro ⟨n, o, hholder, hp, hn⟩
    exact ⟨n, o, hholder, hp, hmono n hn⟩
  · refine (h.deleted o ho).imp_right ?_
    rintro ⟨n, hp, hn⟩
    exact ⟨n, hp, hmono n hn⟩

theorem Falling.dropNull (h : Falling g a s (v :: P)) (href : g.var v = none) : Falling g a s P where
  var := h.var
  holder := h.holder
  fields := h.fields
  live := h.live
  gone := h.gone
  pending w hw := h.pending w (List.mem_cons_of_mem _ hw)
  counted n := by
    have hn := h.counted n
    rwa [refs_cons, if_neg (by rw [href]; exact nofun)] at hn
  whole := h.whole
  falls := h.falls
  ended := h.ended
  deleted := h.deleted

/-! ## The release -/

/-- It returns, or it comes to the object that holds `a` and panics there. -/
def Outcome (g : Graph) (a : Nat) (s : Graph) (P L : List Nat) (run : Option (Unit × Graph)) : Prop :=
  (∃ t, run = some ((), t) ∧ Falling g a t P ∧ Cascade g s t L) ∨ run = none ∧ g.HeldBy a a

theorem remove_strong_dead (h : (s.middle m).strong_count = 0) :
    (StrongRef.remove_strong fuel (some m)).run s = none := by
  cases fuel with
  | zero => rfl
  | succ fuel =>
    have hdead : (s.middle m).remove_strong = none := by
      unfold Middle.remove_strong
      rw [if_neg (by omega)]
    unfold StrongRef.remove_strong
    rw [Prog.get_bind_run]
    by_cases hfreed : s.freed m = false
    · rw [Prog.assert_bind_run hfreed, hdead]
      rfl
    · exact Prog.assert_bind_none hfreed

theorem endRefs_run (hg : g.Ok)
    (hrelease : ∀ {s v P}, Falling g a s (v :: P) → s.live.length < fuel →
      Outcome g a s P [] ((StrongRef.remove_strong fuel (g.var v)).run s))
    (h : Falling g a s P) (hm : Fallen g s m) (hptr : (g.middle m).ptr = some o) (hin : ∀ v ∈ l, v ∈ s.live ∨ v = a)
    (hheld : ∀ v ∈ l, g.holder v = some o) (hnd : l.Nodup) (hlen : s.live.length ≤ fuel) :
    Outcome g a s P l ((endRefs (fun m => StrongRef.remove_strong fuel m) l).run s) := by
  induction l generalizing s with
  | nil => exact Or.inl ⟨s, rfl, h, .refl g s⟩
  | cons v l ih =>
    obtain ⟨hvl, hnd⟩ := List.nodup_cons.mp hnd
    have hholder := hheld v List.mem_cons_self
    unfold endRefs
    rw [Prog.modify_bind_run, Prog.get_bind_run]
    have hvar : s.var v = g.var v := congrFun h.var v
    dsimp only
    rw [hvar]
    by_cases hv : v ∈ s.live
    · have hnodup : s.live.Nodup := hg.nodup.sublist h.live
      have hone := h.endRef hv hholder hptr hm
      have hc := Cascade.endRef (v := v) g s hnodup
      have hshort : (s.live.erase v).length < fuel := by
        have := List.length_erase_of_mem hv
        have := List.length_pos_of_mem hv
        omega
      rcases hrelease hone hshort with ⟨t, hrun, ht, hct⟩ | ⟨hnone, hheld⟩
      · rw [Prog.bind_run hrun]
        have hctv := hc.trans hct
        have hmt := hm.mono hctv
        have hin' : ∀ w ∈ l, w ∈ t.live ∨ w = a := by
          intro w hw
          refine (hin w (List.mem_cons_of_mem _ hw)).imp_left fun hlive => ?_
          by_contra hnot
          rcases hctv.kept w hlive hnot with hwv | ⟨n, o', hholder', hptr', hpos⟩
          · rw [List.append_nil, List.mem_singleton] at hwv
            exact hvl (hwv ▸ hw)
          · -- The object is being deleted already.
            have hw' := hheld w (List.mem_cons_of_mem _ hw)
            obtain rfl : o' = o := Option.some.inj (hholder'.symm.trans hw')
            obtain rfl := hg.own _ _ _ hptr' hptr
            have := hm.2
            omega
        have hlen' : t.live.length ≤ fuel := hctv.live.length_le.trans hlen
        rcases ih ht hmt hin' (fun w hw => hheld w (List.mem_cons_of_mem _ hw)) hnd hlen' with
          ⟨u, hrun', hu, hcu⟩ | hbad
        · exact Or.inl ⟨u, hrun', hu, hctv.trans hcu⟩
        · exact Or.inr hbad
      · exact Or.inr ⟨Prog.bind_none hnone, hheld⟩
    · -- The object holds `a`, whose count went down before.
      obtain rfl := (hin v List.mem_cons_self).resolve_left hv
      obtain ⟨x, hx, h0⟩ := h.root hg hm
      refine Or.inr ⟨?_, m, o, hholder, hptr, h.falls m hm⟩
      rw [hx]
      exact Prog.bind_none (remove_strong_dead h0)

theorem Falling.finish (h : Falling g a s (v :: P)) (hg : g.Ok) (hm : 0 < (s.middle m).strong_count)
    (hptr : (g.middle m).ptr = some o) {r : Graph} (hr : r.live = s.live ∧ r.deleted = s.deleted ∧
      (∀ n, n ≠ m → r.middle n = s.middle n) ∧ (r.middle m).strong_count = 0)
    (ht : Falling g a t P) (hc : Cascade g r t (g.fields o))
    (hu : u.live = t.live ∧ u.middle = t.middle ∧ u.var = t.var ∧
      u.holder = t.holder ∧ u.fields = t.fields ∧ u.deleted = Function.update t.deleted o true)
    (hfreed : ∀ n, n ≠ m → u.freed n = t.freed n) : Falling g a u P ∧ Cascade g s u [] := by
  obtain ⟨hrl, hrd, hrm, hr0⟩ := hr
  obtain ⟨hul, hum, huv, huh, huf, hud⟩ := hu
  have ht0 := hc.counts m hr0
  have hfall : Fallen g t m := ⟨h.count_pos hg hm, ht0⟩
  have hsame : ∀ n, Fallen g u n ↔ Fallen g t n := fun n => by
    unfold Fallen
    rw [hum]
  constructor
  · refine ⟨huv.trans ht.var, huh.trans ht.holder, huf.trans ht.fields, hul ▸ ht.live, hul ▸ ht.gone, ht.pending,
      fun n => by rw [hum, hul]; exact ht.counted n, fun n hn => ?_, fun n hn => ht.falls n ((hsame n).mp hn),
      fun w hw hnot => ?_, fun p hp => ?_⟩
    · rw [hum] at hn ⊢
      have hne : n ≠ m := fun e => by
        rw [e] at hn
        omega
      rw [hfreed n hne]
      exact ht.whole n hn
    · rw [hul] at hnot
      refine (ht.ended w hw hnot).imp_right ?_
      rintro ⟨n, p, hholder, hp, hn⟩
      exact ⟨n, p, hholder, hp, (hsame n).mpr hn⟩
    · rw [hud, Function.update_apply] at hp
      split_ifs at hp with hpo
      · exact Or.inr ⟨m, hpo ▸ hptr, (hsame m).mpr hfall⟩
      · refine (ht.deleted p hp).imp_right ?_
        rintro ⟨n, hp, hn⟩
        exact ⟨n, hp, (hsame n).mpr hn⟩
  · have hcount : ∀ n, (s.middle n).strong_count = 0 → (t.middle n).strong_count = 0 := fun n hn =>
      hc.counts n (by rw [hrm n (fun e => by rw [e] at hn; omega)]; exact hn)
    refine ⟨hul ▸ hrl ▸ hc.live, fun n hn => by rw [hum]; exact hcount n hn, fun p hp => ?_, fun n p hn hp => ?_, nofun,
      fun w hw hnot => ?_⟩
    · rw [hud, Function.update_apply]
      split_ifs
      · rfl
      · exact hc.deleted p (by rw [hrd]; exact hp)
    · rw [hud, hul, Function.update_apply]
      by_cases hnm : n = m
      · rw [hnm, hptr, Option.some.injEq] at hp
        rw [if_pos hp.symm, ← hp]
        exact ⟨rfl, hc.ends⟩
      · have hn' : Fallen r t n := ⟨by rw [hrm n hnm]; exact hn.1, by rw [← hum]; exact hn.2⟩
        obtain ⟨hdel, hends⟩ := hc.done n p hn' hp
        refine ⟨?_, hends⟩
        rw [hdel]
        split_ifs <;> rfl
    · right
      rw [hul] at hnot
      rcases hc.kept w (hrl ▸ hw) hnot with hfield | ⟨n, p, hholder, hp, hn⟩
      · exact ⟨m, o, (hg.fields o w).mp hfield, hptr, hm⟩
      · refine ⟨n, p, hholder, hp, ?_⟩
        by_cases hnm : n = m
        · rw [hnm]
          exact hm
        · rw [← hrm n hnm]
          exact hn

theorem remove_strong_run (hg : g.Ok) (h : Falling g a s (v :: P)) (hlen : s.live.length < fuel) :
    Outcome g a s P [] ((StrongRef.remove_strong fuel (g.var v)).run s) := by
  induction fuel generalizing s v P with
  | zero => omega
  | succ fuel ih =>
    cases href : g.var v with
    | none => exact Or.inl ⟨s, rfl, h.dropNull href, .refl g s⟩
    | some m =>
      have hcount := h.counted m
      rw [refs_cons, if_pos href] at hcount
      have hpos : 0 < (s.middle m).strong_count := by omega
      obtain ⟨hfreed, hptr⟩ := h.whole m hpos
      unfold StrongRef.remove_strong
      rw [Prog.get_bind_run, Prog.assert_bind_run hfreed]
      by_cases hmore : 1 < (s.middle m).strong_count
      · rw [Middle.remove_strong_more hmore]
        refine Or.inl ⟨_, rfl, h.drop href rfl fun _ => rfl, .refl s.live, fun n hn => ?_, fun _ hp => hp,
          fun n p hn hp => ?_,
          nofun, fun w hw hnot => absurd hw hnot⟩
        · rw [Graph.setMiddle_apply]
          split_ifs with hnm
          · rw [hnm] at hn
            omega
          · exact hn
        · obtain ⟨hn, h0⟩ := hn
          rw [Graph.setMiddle_apply] at h0
          split_ifs at h0 with hnm
          · dsimp only at h0
            omega
          · omega
      · have hone : (s.middle m).strong_count = 1 := by omega
        obtain ⟨-, o, ho, halive⟩ := hg.managed m (h.count_pos hg hpos)
        rw [Middle.remove_strong_last hone, hptr, ho]
        dsimp only
        rw [Prog.modify_bind_run]
        have hs := h.drop (x := { s.middle m with ptr := none, strong_count := 0 }) href (by dsimp only; omega)
          fun hcon => absurd hcon (Nat.lt_irrefl 0)
        generalize hr : s.setMiddle m { s.middle m with ptr := none, strong_count := 0 } = r at hs
        have hrm : ∀ n, n ≠ m → r.middle n = s.middle n := fun n hn => by
          rw [← hr, Graph.setMiddle_apply, if_neg hn]
        have hr0 : (r.middle m).strong_count = 0 := by
          rw [← hr, Graph.setMiddle_apply, if_pos rfl]
        have hrl : r.live = s.live := by rw [← hr]; rfl
        have hrd : r.deleted = s.deleted := by rw [← hr]; rfl
        have hin : ∀ w ∈ g.fields o, w ∈ r.live ∨ w = a := by
          intro w hw
          have hholder := (hg.fields o w).mp hw
          rw [hrl]
          by_contra hcon
          rw [not_or] at hcon
          obtain ⟨n, p, hholder', hp, -, hn0⟩ :=
            (h.ended w ((hg.alive w o hholder).mpr halive) hcon.1).resolve_left hcon.2
          obtain rfl : p = o := Option.some.inj (hholder'.symm.trans hholder)
          obtain rfl := hg.own _ _ _ hp ho
          omega
        have hloop := endRefs_run hg ih hs ⟨h.count_pos hg hpos, hr0⟩ ho hin (fun w hw => (hg.fields o w).mp hw)
          (hg.fields_nodup o) (by rw [hrl]; omega)
        have hfs : s.fields o = g.fields o := congrFun h.fields o
        rw [hfs]
        rcases hloop with ⟨t, hrun, ht, hc⟩ | ⟨hnone, hheld⟩
        · rw [Prog.bind_run hrun, Prog.modify_bind_run]
          by_cases hweak : (s.middle m).weak_count = 0
          · rw [if_pos (decide_eq_true hweak)]
            refine Or.inl ⟨_, rfl, h.finish hg hpos ho ⟨hrl, hrd, hrm, hr0⟩ ht hc ⟨rfl, rfl, rfl, rfl, rfl, rfl⟩
              fun n hn => ?_⟩
            exact Function.update_of_ne hn _ _
          · rw [if_neg (by simp [hweak])]
            exact Or.inl ⟨_, rfl, h.finish hg hpos ho ⟨hrl, hrd, hrm, hr0⟩ ht hc ⟨rfl, rfl, rfl, rfl, rfl, rfl⟩
              fun n _ => rfl⟩
        · exact Or.inr ⟨Prog.bind_none hnone, hheld⟩

end

end Kernel
