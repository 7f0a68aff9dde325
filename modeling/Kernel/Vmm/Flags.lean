import Kernel.Vmm.Fault
import Kernel.Vmm.Gone
import Kernel.Vmm.Way

/-!
# Pages that the process may write

The processor lets a process write a page if every entry on the way has the user
bit and the write bit. `map` sets them in the tables that it adds. A store of the
kernel asks for the write bits alone.
-/

namespace Kernel

open Lib

/-- The entry lets the process write. -/
def userWritable (entry : Word) : Prop := entry &&& userBit ≠ 0 ∧ entry &&& writableBit ≠ 0

instance (entry : Word) : Decidable (userWritable entry) := by unfold userWritable; infer_instance

theorem userWritable_mkEntry {flags : Word} (h : userWritable flags) (ppn : Nat) :
    userWritable (mkEntry ppn flags) := by
  unfold userWritable
  rw [mkEntry_and (by decide), mkEntry_and (by decide)]
  exact h

theorem userWritable_tableFlags : userWritable tableFlags := by decide

theorem userWritable_leafFlags : userWritable (leafFlags true true) := by decide

/-- `P` holds of every present word of the lower half. -/
def LowerEntries (P : Word → Prop) (s : Machine) (root : Nat) : Prop :=
  ∀ π g i, LowerPath (π ++ [i]) → π.length ≤ 3 → walk s.edge root π = some g → i < 512 → present (s.mem g i) →
    P (s.mem g i)

/-- Every entry of the lower half lets the process write. The kernel asks `map` for nothing else there. -/
def UserOpen (s : Machine) (root : Nat) : Prop := LowerEntries userWritable s root

/-- Every entry of the lower half lets the kernel write. -/
def StoreOpen (s : Machine) (root : Nat) : Prop := LowerEntries writable s root

/-- Every entry of the lower half leads to a table or to a page of 4 KiB. -/
def SmallOnly (s : Machine) (root : Nat) : Prop := LowerEntries (fun entry => ¬ large entry) s root

/-- No page of the lower half is there, of any size. -/
def EmptyLower (s : Machine) (root : Nat) : Prop := ∀ v < 2 ^ 35, s.translate root v = none

/-- The page is there, and the process may write it. -/
def Machine.mayWrite (s : Machine) (root vpn : Nat) : Prop :=
  ∃ entry, s.pageEntry root vpn = some entry ∧
    ∀ π g i, π ++ [i] <+: pagePath vpn 3 → walk s.edge root π = some g → userWritable (s.mem g i)

section

variable {s t w : Machine} {F F' D P : Set Nat} {p root va vpn f : Nat}

theorem UserOpen.mayWrite (h : UserOpen s root) (hv : vpn < 2 ^ 35) {entry : Word}
    (he : s.pageEntry root vpn = some entry) : s.mayWrite root vpn := by
  refine ⟨entry, he, fun π g i hπ hw => ?_⟩
  obtain ⟨ρ, hρ⟩ := hπ
  have hpage := pageEntry_walk_path he
  have hlen := congrArg List.length hρ
  rw [pagePath_length, List.length_append, List.length_append, List.length_singleton] at hlen
  rw [← hρ, List.append_assoc, walk_append, hw, Option.bind_some, List.singleton_append, walk_cons,
    Option.bind_eq_some_iff] at hpage
  obtain ⟨c, hc, -⟩ := hpage
  obtain ⟨hi, hp, -⟩ := Machine.edge_some.mp hc
  refine h π g i (lowerPath_left (ρ := ρ) ?_) (by omega) hw hi hp
  rw [hρ]
  exact lowerPath_pagePath hv

/-! ## What keeps the entries -/

/-- A root with nothing in its lower half. -/
def BlankRoot (s : Machine) (root : Nat) : Prop := ∀ i, i < 256 → ¬ present (s.mem root i)

theorem BlankRoot.pageEntry {v : Nat} (h : BlankRoot s root) (hv : v < 2 ^ 35) : s.pageEntry root v = none := by
  rw [Machine.pageEntry, tablePath, walk_cons_none (Machine.edge_none.mpr fun _ => h _ (vpnIndex_lower hv))]
  rfl

variable {Q : Word → Prop}

theorem BlankRoot.lowerEntries (h : BlankRoot s root) : LowerEntries Q s root := by
  intro π g i hπ _ hw hi hp
  cases π with
  | nil =>
    obtain rfl := Option.some.inj hw
    exact absurd hp (h i (startsBelow_cons.mp hπ))
  | cons j π =>
    obtain ⟨c, hc, -⟩ := walk_cons_eq_some.mp hw
    exact absurd (Machine.edge_some.mp hc).2.1 (h j (startsBelow_cons.mp hπ))

theorem LowerEntries.gone (h : LowerEntries Q s root) (hgone : PagesGone s F p root P t F') :
    LowerEntries Q t root := by
  intro π g i hπ hlen hw hi hp
  obtain ⟨hw', hword⟩ := hgone.tables π g i (lowerPath_left hπ) hlen hw
  have hsame := hword hp
  rw [hsame] at hp ⊢
  exact h π g i hπ hlen hw' hi hp

theorem LowerEntries.congr (h : LowerEntries Q s root) (hsame : ∀ g ∈ s.lowerTables root, w.mem g = s.mem g) :
    LowerEntries Q w root := by
  intro π g i hπ hlen hw hi hp
  have hlow := lowerPath_left hπ
  rw [lower_walk_congr hlow (by omega) hsame] at hw
  rw [hsame g ⟨π, hlow, hlen, hw⟩] at hp ⊢
  exact h π g i hπ hlen hw hi hp

theorem LowerEntries.mapped (h : LowerEntries Q w root) (htable : ∀ c, Q (mkEntry c tableFlags))
    (hleaf : ∀ f, Q (mkEntry f (leafFlags true true)))
    (hentries : MapEntries w F vpn 3 256 root f (leafFlags true true) t F')
    (hway : WayMapped w F vpn 3 root f (leafFlags true true) t F') : LowerEntries Q t root := by
  intro π g i hπ hlen hw hi hp
  have hlow := lowerPath_left hπ
  by_cases hon : π ++ [i] <+: pagePath vpn 3
  · rcases hway.entries π g i hon hw hp with ⟨hw', hsame⟩ | ⟨c, hc⟩ | hf
    · rw [hsame] at hp ⊢
      exact h π g i hπ hlen hw' hi hp
    · rw [hc]
      exact htable c
    · rw [hf]
      exact hleaf f
  · -- Off the way to the page the table was there and its word is as it was.
    have hw' : walk w.edge root π = some g := by
      by_cases hpre : π <+: pagePath vpn 3
      · have hne : π ≠ pagePath vpn 3 := by
          rintro rfl
          rw [pagePath_length] at hlen
          omega
        have htable : π <+: tablePath vpn 3 := initial_table hpre hlen
        cases hs : walk w.edge root π with
        | some g' =>
          have := hentries.kept π g' hlow (by omega) hne hs
          rw [hw] at this
          exact this.symm
        | none => exact absurd ((hway.fresh π g htable hs hw).2 i hp hi) hon
      · exact hentries.only π g hlow (by omega) hpre hw
    rw [hentries.words π g i hlow (by omega) hw' hon] at hp ⊢
    exact h π g i hπ hlen hw' hi hp

theorem PageFrame.lowerEntries (hf : PageFrame s F D root f w) (h : Space s F D s.acting root) (hva : va < 2 ^ 47)
    (hnone : s.pageEntry root (va / FRAME_SIZE) = none) (hclean : mapClean (va / FRAME_SIZE) 3 root w)
    (hrun : (mapAt (va / FRAME_SIZE) f true true 3 root).run w = some ((), t)) (htable : ∀ c, Q (mkEntry c tableFlags))
    (hleaf : ∀ f, Q (mkEntry f (leafFlags true true))) (ho : LowerEntries Q s root) : LowerEntries Q t root := by
  have hv : va / FRAME_SIZE < 2 ^ 35 := by
    simp only [FRAME_SIZE]; omega
  have hsame := hf.tables h
  have habsent : ∀ last, walk w.edge root (tablePath (va / FRAME_SIZE) 3) = some last →
      ¬ present (w.mem last (vpnIndex (va / FRAME_SIZE) 0)) := by
    intro last hw hp
    rw [← pageEntry_congr hv hsame, Machine.pageEntry, hw, Option.bind_some, if_pos hp] at hnone
    cases hnone
  obtain ⟨F', hway⟩ := mapAt_way_of_run hf.space.wf (fun π g hπ hw => hf.space.owned g
    (hf.space.tables ⟨π, lowerPath_initial hv hπ, initial_length hπ, hw⟩)) habsent hclean hrun
  have hentries := mapAt_entries hf.space.wf hf.space.forest hf.space.root_mem (vpnIndex_lower hv) hf.space.owned
    (fun hg => hg.2 rfl) hf.off hf.small hf.owner hclean hrun hway.wf
  exact (ho.congr hsame).mapped htable hleaf hentries hway

/-! ## No page is there -/

theorem pagePath_digits {a b c d : Nat} (ha : a < 256) (hb : b < 512) (hc : c < 512) (hd : d < 512) :
    ∃ v < 2 ^ 35, pagePath v 3 = [a, b, c, d] := by
  refine ⟨((a * 512 + b) * 512 + c) * 512 + d, by omega, ?_⟩
  simp only [pagePath, tablePath, vpnIndex, List.cons_append, List.nil_append, List.cons.injEq, and_true]
  omega

/-- A path into the tables of the lower half is on the way to some page. -/
theorem exists_lower_vpn {π : List Nat} (hπ : LowerPath π) (hlt : ∀ j ∈ π, j < 512) (hlen : π.length ≤ 4) :
    ∃ v < 2 ^ 35, π <+: pagePath v 3 := by
  obtain ⟨a, b, c, d, ha, hb, hc, hd, hpre⟩ : ∃ a b c d, a < 256 ∧ b < 512 ∧ c < 512 ∧ d < 512 ∧
      π <+: [a, b, c, d] := by
    rcases π with _ | ⟨a, _ | ⟨b, _ | ⟨c, _ | ⟨d, _ | ⟨e, π⟩⟩⟩⟩⟩
    · exact ⟨0, 0, 0, 0, by omega, by omega, by omega, by omega, List.nil_prefix⟩
    · exact ⟨a, 0, 0, 0, startsBelow_cons.mp hπ, by omega, by omega, by omega, [0, 0, 0], rfl⟩
    · exact ⟨a, b, 0, 0, startsBelow_cons.mp hπ, hlt b (by simp), by omega, by omega, [0, 0], rfl⟩
    · exact ⟨a, b, c, 0, startsBelow_cons.mp hπ, hlt b (by simp), hlt c (by simp), by omega, [0], rfl⟩
    · exact ⟨a, b, c, d, startsBelow_cons.mp hπ, hlt b (by simp), hlt c (by simp), hlt d (by simp), List.prefix_rfl⟩
    · simp only [List.length_cons] at hlen
      omega
  obtain ⟨v, hv, hpath⟩ := pagePath_digits ha hb hc hd
  exact ⟨v, hv, hpath ▸ hpre⟩

theorem walk_index_lt {π : List Nat} {g h : Nat} (hw : walk s.edge g π = some h) : ∀ j ∈ π, j < 512 := by
  induction π generalizing g with
  | nil => exact fun j hj => by cases hj
  | cons i π ih =>
    obtain ⟨c, hc, hw⟩ := walk_cons_eq_some.mp hw
    exact List.forall_mem_cons.mpr ⟨(Machine.edge_some.mp hc).1, ih hw⟩

theorem EmptyLower.noLarge (h : EmptyLower s root) (hv : vpn < 2 ^ 35) : NoLarge s root vpn := by
  intro words hwords
  rw [h vpn hv] at hwords
  cases hwords

theorem EmptyLower.pageEntry (h : EmptyLower s root) (hv : vpn < 2 ^ 35) : s.pageEntry root vpn = none :=
  (h.noLarge hv).translate_none.mp (h vpn hv)

theorem EmptyLower.smallOnly (h : EmptyLower s root) : SmallOnly s root := by
  intro π g i hπ hlen hw hi hp
  have hnext := walk_present hw hi hp
  obtain ⟨v, hv, hpre⟩ := exists_lower_vpn hπ (walk_index_lt hnext) (by
    rw [List.length_append, List.length_singleton]
    omega)
  by_cases hshort : (π ++ [i]).length ≤ 3
  · -- The walk of the processor goes on behind the word.
    rw [← (h.noLarge hv).walks (initial_table hpre hshort), walk_append, Option.bind_eq_some_iff] at hnext
    obtain ⟨c, hc, hnext⟩ := hnext
    obtain rfl := Option.some.inj ((Machine.walk_through hc).symm.trans hw)
    obtain ⟨d, hd, -⟩ := walk_cons_eq_some.mp hnext
    exact (Machine.through_some.mp hd).2.2.1
  · -- It is the word of a page, which is not there.
    have hwhole : π ++ [i] = pagePath v 3 := hpre.eq_of_length (by
      rw [pagePath_length]
      rw [List.length_append, List.length_singleton] at hshort ⊢
      omega)
    rw [hwhole] at hnext
    obtain ⟨entry, he⟩ := pageEntry_of_walk hnext
    rw [h.pageEntry hv] at he
    cases he

theorem BlankRoot.emptyLower (h : BlankRoot s root) : EmptyLower s root := fun _ hv =>
  Machine.words_absent (h _ (vpnIndex_lower hv))

/-! ## Stores of the kernel -/

/-- The words that the processor reads on the way to a page. -/
theorem SmallOnly.translate (h : SmallOnly s root) (hv : vpn < 2 ^ 35) {entry : Word}
    (he : s.pageEntry root vpn = some entry) :
    ∃ a b c, s.translate root vpn = some [a, b, c, entry] ∧ ∀ e ∈ [a, b, c, entry], ∃ π g i, LowerPath (π ++ [i]) ∧
      π.length ≤ 3 ∧ walk s.edge root π = some g ∧ i < 512 ∧ present (s.mem g i) ∧ s.mem g i = e := by
  obtain ⟨last, hw, hp, rfl⟩ := Machine.pageEntry_some.mp he
  have hwords : walk s.tableEdge root (tablePath vpn 3) = some last := by
    refine walk_keep (fun τ j c d hτ hc hd => ?_) hw
    obtain ⟨hj, hpj, hf⟩ := Machine.edge_some.mp hd
    have hlen := initial_length hτ
    rw [List.length_append, List.length_singleton] at hlen
    exact Machine.through_some.mpr ⟨hj, hpj, h τ c j (lowerPath_initial hv hτ) (by omega) hc hj hpj, hf⟩
  obtain ⟨above, hread, hlen, hmem⟩ := Machine.words_of_walk hwords hp
  obtain ⟨a, b, c, rfl⟩ := List.length_eq_three.mp hlen
  refine ⟨a, b, c, hread, fun e hin => ?_⟩
  rcases List.mem_append.mp (show e ∈ [a, b, c] ++ [_] from hin) with hin | hin
  · obtain ⟨π, g, i, hπ, hg, hword⟩ := hmem e hin
    have hlen := initial_length hπ
    rw [List.length_append, List.length_singleton] at hlen
    exact ⟨π, g, i, lowerPath_initial hv hπ, by omega, Machine.walk_through hg, hword⟩
  · exact ⟨_, last, _, lowerPath_tablePath hv _, Nat.le_of_eq (tablePath_length _ 3), hw, vpnIndex_lt _ 0, hp,
      (List.mem_singleton.mp hin).symm⟩

/-- A store goes to the page of its address, or it faults. -/
theorem SmallOnly.target_eq (h : SmallOnly s s.root) (hva : va < 2 ^ 47) {entry : Word}
    (he : s.pageEntry s.root (va / FRAME_SIZE) = some entry) (ht : s.storeTarget va = some f) :
    f = entryPpn entry := by
  obtain ⟨a, b, c, hread, -⟩ := h.translate (by simp only [FRAME_SIZE]; omega) he
  rw [Machine.storeTarget, if_pos (show canonical va from Or.inl hva), hread, Option.bind_some] at ht
  split_ifs at ht
  exact (Option.some.inj ht).symm

theorem StoreOpen.target (ho : StoreOpen s s.root) (h : SmallOnly s s.root) (hva : va < 2 ^ 47) {entry : Word}
    (he : s.pageEntry s.root (va / FRAME_SIZE) = some entry) : s.storeTarget va = some (entryPpn entry) := by
  obtain ⟨a, b, c, hread, hmem⟩ := h.translate (by simp only [FRAME_SIZE]; omega) he
  have hall : ∀ e ∈ [a, b, c, entry], writable e := by
    intro e hin
    obtain ⟨π, g, i, hπ, hlen, hw, hi, hp, rfl⟩ := hmem e hin
    exact ho π g i hπ hlen hw hi hp
  rw [Machine.storeTarget, if_pos (show canonical va from Or.inl hva), hread, Option.bind_some, if_pos hall]
  rfl

end

end Kernel
