import Kernel.Vmm.Translate

/-!
# `map` on the way to a page

The page may be in either half. Of the tables in use one word changes, which had
no present entry, and what hangs below it now leads to the page alone.
-/

namespace Kernel

open Lib

/-- `map` of a page to `f`, from `table` down. `F'` is still free. -/
structure WayMapped (s : Machine) (F : Set Nat) (vpn level table f : Nat) (flags : Word) (t : Machine) (F' : Set Nat) :
    Prop where
  wf : PhysWf t F'
  sub : F' ⊆ F
  regs : t.regs = s.regs
  owner : t.owner = s.owner
  page : ∃ last, walk t.edge table (tablePath vpn level) = some last ∧ t.mem last (vpnIndex vpn 0) = mkEntry f flags
  word : ∃ π g i, π ++ [i] <+: pagePath vpn level ∧ walk s.edge table π = some g ∧ ¬ present (s.mem g i) ∧
    ∀ m j, m ∉ F → ¬ (m = g ∧ j = i) → t.mem m j = s.mem m j
  fresh : ∀ ρ m, ρ <+: tablePath vpn level → walk s.edge table ρ = none → walk t.edge table ρ = some m →
    m ∈ F ∧ ∀ i, present (t.mem m i) → i < 512 → ρ ++ [i] <+: pagePath vpn level
  entries : ∀ ρ m i, ρ ++ [i] <+: pagePath vpn level → walk t.edge table ρ = some m → present (t.mem m i) →
    (walk s.edge table ρ = some m ∧ t.mem m i = s.mem m i) ∨ (∃ c, t.mem m i = mkEntry c tableFlags) ∨
      t.mem m i = mkEntry f flags

/-- The tables that `map` has added on the way: each is a frame of its own that is no longer free. -/
structure WayTaken (s : Machine) (F : Set Nat) (vpn level table : Nat) (t : Machine) (F' : Set Nat) : Prop where
  taken : ∀ ρ m, ρ <+: tablePath vpn level → walk s.edge table ρ = none → walk t.edge table ρ = some m → m ∈ F \ F'
  once : ∀ ρ τ m, ρ <+: tablePath vpn level → τ <+: tablePath vpn level → walk s.edge table ρ = none →
    walk s.edge table τ = none → walk t.edge table ρ = some m → walk t.edge table τ = some m → ρ = τ
  count : (F \ F').ncard ≤ tablesMissing s vpn level table

section

variable {s t v : Machine} {F F' F₁ : Set Nat} {vpn level table child f c : Nat} {flags : Word}

theorem wayMapped_zero (hwf : PhysWf s F) (htable : table ∉ F) (hp : ¬ present (s.mem table (vpnIndex vpn 0))) :
    WayMapped s F vpn 0 table f flags (s.poke table (vpnIndex vpn 0) (mkEntry f flags)) F where
  wf := hwf.congr rfl rfl rfl fun g hg => Machine.poke_mem_of_ne fun e => htable (e ▸ hg)
  sub := subset_rfl
  regs := rfl
  owner := rfl
  page := ⟨table, rfl, by simp [Machine.poke]⟩
  word := by
    refine ⟨[], table, vpnIndex vpn 0, List.prefix_refl _, rfl, hp, fun m j _ hne => ?_⟩
    simp only [Machine.poke, if_neg hne]
  fresh ρ m hρ hnone := by
    obtain rfl := List.prefix_nil.mp hρ
    cases hnone
  entries ρ m i hρ hw _ := by
    obtain ⟨rfl, rfl⟩ : ρ = [] ∧ i = vpnIndex vpn 0 := by
      cases ρ with
      | nil => simpa [pagePath, tablePath] using hρ
      | cons j ρ =>
        have := hρ.length_le
        simp [pagePath, tablePath] at this
    obtain rfl : table = m := Option.some.inj hw
    exact Or.inr (Or.inr (by simp [Machine.poke]))

theorem wayTaken_zero : WayTaken s F vpn 0 table t F where
  taken ρ m hρ hnone := by
    obtain rfl := List.prefix_nil.mp hρ
    cases hnone
  once ρ τ m hρ hτ := by
    rw [List.prefix_nil.mp hρ, List.prefix_nil.mp hτ]
    intros
    rfl
  count := by
    rw [Set.sdiff_self, Set.ncard_empty]
    exact Nat.zero_le _

theorem new_below (ht : t.edge table (vpnIndex vpn (level + 1)) = some c) {ρ : List Nat} {m : Nat}
    (hρ : ρ <+: tablePath vpn (level + 1)) (hnone : walk s.edge table ρ = none) (hsome : walk t.edge table ρ = some m) :
    ∃ τ, ρ = vpnIndex vpn (level + 1) :: τ ∧ τ <+: tablePath vpn level ∧ walk t.edge c τ = some m := by
  cases ρ with
  | nil => cases hnone
  | cons j τ =>
    rw [tablePath, List.cons_prefix_cons] at hρ
    obtain ⟨rfl, hτ⟩ := hρ
    rw [walk_cons_some ht] at hsome
    exact ⟨τ, rfl, hτ, hsome⟩

theorem entry_below (ht : t.edge table (vpnIndex vpn (level + 1)) = some c) {ρ : List Nat} {m i : Nat}
    (hρ : ρ ++ [i] <+: pagePath vpn (level + 1)) (hw : walk t.edge table ρ = some m) :
    (ρ = [] ∧ table = m ∧ i = vpnIndex vpn (level + 1)) ∨
      ∃ τ, ρ = vpnIndex vpn (level + 1) :: τ ∧ τ ++ [i] <+: pagePath vpn level ∧ walk t.edge c τ = some m := by
  rw [pagePath_succ] at hρ
  cases ρ with
  | nil => exact Or.inl ⟨rfl, Option.some.inj hw, (List.cons_prefix_cons.mp hρ).1⟩
  | cons j τ =>
    rw [List.cons_append, List.cons_prefix_cons] at hρ
    obtain ⟨rfl, hτ⟩ := hρ
    rw [walk_cons_some ht] at hw
    exact Or.inr ⟨τ, rfl, hτ, hw⟩

theorem WayMapped.entry_down (h : WayMapped s F vpn level c f flags t F') (htable : table ∉ F)
    (hp : present (s.mem table (vpnIndex vpn (level + 1)))) :
    t.mem table (vpnIndex vpn (level + 1)) = s.mem table (vpnIndex vpn (level + 1)) := by
  obtain ⟨π, g, i, -, -, hnp, hother⟩ := h.word
  refine hother table _ htable ?_
  rintro ⟨rfl, rfl⟩
  exact hnp hp

theorem WayMapped.down (h : WayMapped s F vpn level c f flags t F') (htable : table ∉ F)
    (hp : present (s.mem table (vpnIndex vpn (level + 1))))
    (hc : entryPpn (s.mem table (vpnIndex vpn (level + 1))) = c) :
    WayMapped s F vpn (level + 1) table f flags t F' := by
  have hi := vpnIndex_lt vpn (level + 1)
  have hedge := edge_of_present hi hp
  rw [hc] at hedge
  obtain ⟨π, g, i, hπ, hw, hnp, hother⟩ := h.word
  have hword := h.entry_down htable hp
  have hedge' : t.edge table (vpnIndex vpn (level + 1)) = some c := by
    rw [Machine.edge_some, hword]
    exact ⟨hi, hp, hc⟩
  refine ⟨h.wf, h.sub, h.regs, h.owner, ?_, ?_, ?_, ?_⟩
  · obtain ⟨last, hlast, hentry⟩ := h.page
    exact ⟨last, by rw [tablePath, walk_cons_some hedge']; exact hlast, hentry⟩
  · refine ⟨vpnIndex vpn (level + 1) :: π, g, i, ?_, by rw [walk_cons_some hedge]; exact hw, hnp, hother⟩
    rw [pagePath_succ, List.cons_append, List.prefix_cons_inj]
    exact hπ
  · intro ρ m hρ hnone hsome
    obtain ⟨ρ, rfl, hρ, hsome⟩ := new_below hedge' hρ hnone hsome
    rw [walk_cons, hedge, Option.bind_some] at hnone
    obtain ⟨hm, hfresh⟩ := h.fresh ρ m hρ hnone hsome
    refine ⟨hm, fun i hpi hi => ?_⟩
    rw [pagePath_succ, List.cons_append, List.prefix_cons_inj]
    exact hfresh i hpi hi
  · intro ρ m i hρ hw hpi
    rcases entry_below hedge' hρ hw with ⟨rfl, rfl, rfl⟩ | ⟨ρ, rfl, hρ, hw⟩
    · exact Or.inl ⟨rfl, hword⟩
    · rw [walk_cons, hedge, Option.bind_some]
      exact h.entries ρ m i hρ hw hpi

theorem WayTaken.down (h : WayTaken s F vpn level c t F') (hs : s.edge table (vpnIndex vpn (level + 1)) = some c)
    (ht : t.edge table (vpnIndex vpn (level + 1)) = some c) : WayTaken s F vpn (level + 1) table t F' where
  taken ρ m hρ hnone hsome := by
    obtain ⟨ρ, rfl, hρ, hsome⟩ := new_below ht hρ hnone hsome
    rw [walk_cons, hs, Option.bind_some] at hnone
    exact h.taken ρ m hρ hnone hsome
  once ρ τ m hρ hτ hnone hnone' hsome hsome' := by
    obtain ⟨ρ, rfl, hρ, hsome⟩ := new_below ht hρ hnone hsome
    obtain ⟨τ, rfl, hτ, hsome'⟩ := new_below ht hτ hnone' hsome'
    rw [walk_cons, hs, Option.bind_some] at hnone hnone'
    rw [h.once ρ τ m hρ hτ hnone hnone' hsome hsome']
  count := by
    obtain ⟨-, hp, rfl⟩ := Machine.edge_some.mp hs
    rw [tablesMissing, if_pos hp]
    exact h.count

theorem WayMapped.edge_below (h : WayMapped v (F \ {child}) vpn level child f flags t F')
    (ha : TableAdded s F table (vpnIndex vpn (level + 1)) child v) (htable : table ∉ F) :
    t.edge table (vpnIndex vpn (level + 1)) = some child := by
  have hblank : ∀ i, v.edge child i = none := fun i => Machine.edge_none.mpr fun hi' => ha.blank i hi'
  obtain ⟨π, g, i, -, hw, -, hother⟩ := h.word
  obtain ⟨-, rfl⟩ := walk_of_blank hblank hw
  refine edge_mkEntry (vpnIndex_lt vpn _) ha.small present_tableFlags tableFlags_masked ?_
  rw [hother table _ (fun hm => htable hm.1) fun e => htable (e.1 ▸ ha.mem_free)]
  exact ha.entry

theorem WayMapped.below (h : WayMapped v (F \ {child}) vpn level child f flags t F')
    (ha : TableAdded s F table (vpnIndex vpn (level + 1)) child v) (htable : table ∉ F)
    (hp : ¬ present (s.mem table (vpnIndex vpn (level + 1)))) : WayMapped s F vpn (level + 1) table f flags t F' := by
  have hi := vpnIndex_lt vpn (level + 1)
  have hblank : ∀ i, v.edge child i = none := fun i => Machine.edge_none.mpr fun hi' => ha.blank i hi'
  have hnone : s.edge table (vpnIndex vpn (level + 1)) = none := Machine.edge_none.mpr fun _ => hp
  have h' := h
  obtain ⟨π, g, i, hπ, hw, hnp, hother⟩ := h.word
  -- The new table has no entry yet, so its own word is the one that changes below.
  obtain ⟨rfl, rfl⟩ := walk_of_blank hblank hw
  have hout : ∀ m, m ∉ F → m ≠ child := fun m hm e => hm (e ▸ ha.mem_free)
  have hkeep : ∀ m j, m ∉ F → t.mem m j = v.mem m j := fun m j hm =>
    hother m j (fun hm' => hm hm'.1) fun e => hout m hm e.1
  have hedge := h'.edge_below ha htable
  refine ⟨h.wf, fun g hg => (h.sub hg).1, h.regs.trans ha.regs, h.owner.trans ha.owner, ?_, ?_, ?_, ?_⟩
  · obtain ⟨last, hlast, hentry⟩ := h.page
    exact ⟨last, by rw [tablePath, walk_cons_some hedge]; exact hlast, hentry⟩
  · refine ⟨[], table, vpnIndex vpn (level + 1), ?_, rfl, hp, fun m j hm hne => ?_⟩
    · rw [pagePath_succ, List.nil_append, List.cons_prefix_cons]
      exact ⟨rfl, List.nil_prefix⟩
    · rw [hkeep m j hm]
      by_cases hmt : m = table
      · subst hmt
        exact ha.row j fun e => hne ⟨rfl, e⟩
      · rw [ha.other m hmt (hout m hm)]
  · intro ρ m hρ hnone' hsome
    obtain ⟨ρ, rfl, hρ, hsome⟩ := new_below hedge hρ hnone' hsome
    rw [pagePath_succ]
    simp only [List.cons_append, List.prefix_cons_inj]
    cases ρ with
    | nil =>
      obtain rfl : child = m := Option.some.inj hsome
      refine ⟨ha.mem_free, fun j hpj hj => ?_⟩
      by_cases hji : j = i
      · rw [hji]
        exact hπ
      · rw [hother child j (fun hm => hm.2 rfl) fun e => hji e.2] at hpj
        exact absurd hpj (ha.blank j hj)
    | cons j ρ =>
      have hgone : walk v.edge child (j :: ρ) = none := walk_cons_none (hblank j)
      obtain ⟨hm, hfresh⟩ := h.fresh (j :: ρ) m hρ hgone hsome
      exact ⟨hm.1, hfresh⟩
  · intro ρ m j hρ hw hpj
    rcases entry_below hedge hρ hw with ⟨rfl, rfl, rfl⟩ | ⟨ρ, rfl, hρ, hw⟩
    · refine Or.inr (Or.inl ⟨child, ?_⟩)
      rw [hkeep table _ htable]
      exact ha.entry
    · refine Or.inr ((h.entries ρ m j hρ hw hpj).resolve_left ?_)
      -- A word of the new table that is as it was has no present entry.
      rintro ⟨hwv, hsame⟩
      obtain ⟨rfl, rfl⟩ := walk_of_blank hblank hwv
      rw [hsame] at hpj
      have hj : j = vpnIndex vpn level ∨ j = vpnIndex vpn 0 := by
        cases level with
        | zero => exact Or.inr (List.cons_prefix_cons.mp hρ).1
        | succ level => exact Or.inl (List.cons_prefix_cons.mp hρ).1
      exact ha.blank j (by rcases hj with rfl | rfl <;> exact vpnIndex_lt vpn _) hpj

theorem WayTaken.below (h : WayTaken v (F \ {child}) vpn level child t F')
    (hmap : WayMapped v (F \ {child}) vpn level child f flags t F')
    (ha : TableAdded s F table (vpnIndex vpn (level + 1)) child v) (htable : table ∉ F)
    (hp : ¬ present (s.mem table (vpnIndex vpn (level + 1)))) : WayTaken s F vpn (level + 1) table t F' := by
  have hblank : ∀ i, v.edge child i = none := fun i => Machine.edge_none.mpr fun hi' => ha.blank i hi'
  have hedge := hmap.edge_below ha htable
  have hchild : child ∉ F' := fun hg => (hmap.sub hg).2 rfl
  -- Below the new table everything is new, and none of it is the new table.
  have hbelow : ∀ j ρ m, j :: ρ <+: tablePath vpn level → walk t.edge child (j :: ρ) = some m →
      m ∈ (F \ {child}) \ F' := fun j ρ m hρ => h.taken _ m hρ (walk_cons_none (hblank j))
  refine ⟨fun ρ m hρ hnone hsome => ?_, fun ρ τ m hρ hτ hnone hnone' hsome hsome' => ?_, ?_⟩
  · obtain ⟨ρ, rfl, hρ, hsome⟩ := new_below hedge hρ hnone hsome
    cases ρ with
    | nil =>
      obtain rfl : child = m := Option.some.inj hsome
      exact ⟨ha.mem_free, hchild⟩
    | cons j ρ =>
      obtain ⟨⟨hm, -⟩, hm'⟩ := hbelow j ρ m hρ hsome
      exact ⟨hm, hm'⟩
  · obtain ⟨ρ, rfl, hρ, hsome⟩ := new_below hedge hρ hnone hsome
    obtain ⟨τ, rfl, hτ, hsome'⟩ := new_below hedge hτ hnone' hsome'
    cases ρ with
    | nil =>
      obtain rfl : child = m := Option.some.inj hsome
      cases τ with
      | nil => rfl
      | cons i τ => exact absurd rfl (hbelow i τ child hτ hsome').1.2
    | cons i ρ =>
      cases τ with
      | nil =>
        obtain rfl : child = m := Option.some.inj hsome'
        exact absurd rfl (hbelow i ρ child hρ hsome).1.2
      | cons i' τ =>
        rw [h.once _ _ m hρ hτ (walk_cons_none (hblank i)) (walk_cons_none (hblank i')) hsome hsome']
  · have hnew : F \ F' = insert child ((F \ {child}) \ F') := by
      rw [Set.insert_eq, taken_eq ha.mem_free hmap.sub]
    have hcount := h.count
    have hle := tablesMissing_le v vpn level child
    have hins := Set.ncard_insert_le child ((F \ {child}) \ F')
    rw [tablesMissing, if_neg hp, hnew]
    omega

end

theorem mapAt_tables (f : Nat) (user write : Bool) {vpn level : Nat} :
    ∀ {s : Machine} {F : Set Nat} {table : Nat}, PhysWf s F →
      (∀ π g, π <+: tablePath vpn level → walk s.edge table π = some g → g ∉ F ∧ s.maps g) →
      (∀ last, walk s.edge table (tablePath vpn level) = some last → ¬ present (s.mem last (vpnIndex vpn 0))) →
      mapClean vpn level table s → tablesMissing s vpn level table ≤ F.ncard →
      ∃ t F', (mapAt vpn f user write level table).run s = some ((), t) ∧
        WayMapped s F vpn level table f (leafFlags user write) t F' ∧ WayTaken s F vpn level table t F' := by
  induction level with
  | zero =>
    intro s F table hwf hway habsent _ _
    obtain ⟨htable, hm⟩ := hway [] table List.nil_prefix rfl
    exact ⟨_, F, mapAt_zero hwf.hhdm hm, wayMapped_zero hwf htable (habsent table rfl), wayTaken_zero⟩
  | succ level ih =>
    intro s F table hwf hway habsent hclean hsize
    obtain ⟨htable, hm⟩ := hway [] table List.nil_prefix rfl
    have hi := vpnIndex_lt vpn (level + 1)
    unfold tablesMissing at hsize
    dsimp only at hsize
    by_cases hp : present (s.mem table (vpnIndex vpn (level + 1)))
    · have hedge := edge_of_present hi hp
      rw [if_pos hp] at hsize
      rw [mapClean, if_pos hp] at hclean
      obtain ⟨t, F', hrun, h, htaken⟩ := ih hwf (fun π g hπ hw => hway (vpnIndex vpn (level + 1) :: π) g
        ((List.prefix_cons_inj _).mpr hπ) ((walk_cons_some hedge).mpr hw))
        (fun last hw => habsent last (by rw [tablePath, walk_cons_some hedge]; exact hw)) hclean hsize
      refine ⟨t, F', (mapAt_present hwf.hhdm hm hp).trans hrun, h.down htable hp rfl, htaken.down hedge ?_⟩
      rw [Machine.edge_some, h.entry_down htable hp]
      exact ⟨hi, hp, rfl⟩
    · rw [if_neg hp] at hsize
      obtain ⟨child, u, halloc⟩ := alloc_returns hwf (Set.nonempty_of_ncard_ne_zero (by omega))
      obtain ⟨v, ha, hclean, heq⟩ := mapAt_below f user write hwf htable hm hp hclean halloc
      have hcard := Set.ncard_sdiff_singleton_add_one ha.mem_free hwf.finite
      have hle := tablesMissing_le v vpn level child
      have hblank : ∀ i, v.edge child i = none := fun i => Machine.edge_none.mpr fun hi' => ha.blank i hi'
      have hway' : ∀ π g, π <+: tablePath vpn level → walk v.edge child π = some g → g ∉ F \ {child} ∧ v.maps g := by
        intro π g _ hw
        obtain ⟨-, rfl⟩ := walk_of_blank hblank hw
        exact ⟨fun hg => hg.2 rfl, (Machine.maps_congr (Machine.regs_hhdm ha.regs) child).mpr (hwf.maps ha.mem_free)⟩
      have habsent' : ∀ last, walk v.edge child (tablePath vpn level) = some last →
          ¬ present (v.mem last (vpnIndex vpn 0)) := by
        intro last hw
        obtain ⟨-, rfl⟩ := walk_of_blank hblank hw
        exact ha.blank _ (vpnIndex_lt vpn 0)
      obtain ⟨t, F', hrun, h, htaken⟩ := ih ha.wf hway' habsent' hclean (by omega)
      exact ⟨t, F', heq.trans hrun, h.below ha htable hp, htaken.below h ha htable hp⟩

theorem mapAt_way (f : Nat) (user write : Bool) {vpn level : Nat} {s : Machine} {F : Set Nat} {table : Nat}
    (hwf : PhysWf s F)
    (hway : ∀ π g, π <+: tablePath vpn level → walk s.edge table π = some g → g ∉ F ∧ s.maps g)
    (habsent : ∀ last, walk s.edge table (tablePath vpn level) = some last → ¬ present (s.mem last (vpnIndex vpn 0)))
    (hclean : mapClean vpn level table s) (hsize : tablesMissing s vpn level table ≤ F.ncard) :
    ∃ t F', (mapAt vpn f user write level table).run s = some ((), t) ∧
      WayMapped s F vpn level table f (leafFlags user write) t F' := by
  obtain ⟨t, F', hrun, h, -⟩ := mapAt_tables f user write hwf hway habsent hclean hsize
  exact ⟨t, F', hrun, h⟩

/-- `map` comes to its end only if there is a frame for every table. -/
theorem mapAt_size {f : Nat} {user write : Bool} {vpn level : Nat} :
    ∀ {s t : Machine} {F : Set Nat} {table : Nat}, PhysWf s F →
      (∀ π g, π <+: tablePath vpn level → walk s.edge table π = some g → g ∉ F ∧ s.maps g) →
      mapClean vpn level table s → (mapAt vpn f user write level table).run s = some ((), t) →
      tablesMissing s vpn level table ≤ F.ncard := by
  induction level with
  | zero => exact fun _ _ _ _ => Nat.zero_le _
  | succ level ih =>
    intro s t F table hwf hway hclean hrun
    obtain ⟨htable, hm⟩ := hway [] table List.nil_prefix rfl
    have hi := vpnIndex_lt vpn (level + 1)
    unfold tablesMissing
    dsimp only
    by_cases hp : present (s.mem table (vpnIndex vpn (level + 1)))
    · have hedge := edge_of_present hi hp
      rw [if_pos hp]
      rw [mapClean, if_pos hp] at hclean
      rw [mapAt_present hwf.hhdm hm hp] at hrun
      exact ih hwf (fun π g hπ hw => hway (vpnIndex vpn (level + 1) :: π) g ((List.prefix_cons_inj _).mpr hπ)
        ((walk_cons_some hedge).mpr hw)) hclean hrun
    · rw [if_neg hp]
      obtain ⟨child, u, halloc⟩ : ∃ child u, PhysMem.alloc.run s = some (child, u) := by
        have hrun' := hrun
        rw [mapAt, Prog.bind_run (VA.ofPPN_run hwf.hhdm hm), Prog.bind_run (load_vaOf hi), if_neg hp,
          Prog.run_bind] at hrun'
        obtain ⟨child, u, halloc, -⟩ := hrun'
        exact ⟨child, u, halloc⟩
      obtain ⟨v, ha, hclean', heq⟩ := mapAt_below f user write hwf htable hm hp hclean halloc
      have hblank : ∀ i, v.edge child i = none := fun i => Machine.edge_none.mpr fun hi' => ha.blank i hi'
      rw [heq] at hrun
      have hsize := ih ha.wf (fun π g _ hw => by
        obtain ⟨-, rfl⟩ := walk_of_blank hblank hw
        exact ha.owned hwf child rfl) hclean' hrun
      have hall : tablesMissing v vpn level child = level := by
        cases level with
        | zero => rfl
        | succ level => exact if_neg (ha.blank _ (vpnIndex_lt vpn _))
      have hcard := Set.ncard_sdiff_singleton_add_one ha.mem_free hwf.finite
      omega

theorem mapAt_way_of_run {f : Nat} {user write : Bool} {vpn level : Nat} {s t : Machine} {F : Set Nat} {table : Nat}
    (hwf : PhysWf s F)
    (hway : ∀ π g, π <+: tablePath vpn level → walk s.edge table π = some g → g ∉ F ∧ s.maps g)
    (habsent : ∀ last, walk s.edge table (tablePath vpn level) = some last → ¬ present (s.mem last (vpnIndex vpn 0)))
    (hclean : mapClean vpn level table s) (hrun : (mapAt vpn f user write level table).run s = some ((), t)) :
    ∃ F', WayMapped s F vpn level table f (leafFlags user write) t F' := by
  obtain ⟨u, F', hu, h⟩ := mapAt_way f user write hwf hway habsent hclean (mapAt_size hwf hway hclean hrun)
  obtain ⟨-, rfl⟩ := Prod.mk.inj (Option.some.inj (hu.symm.trans hrun))
  exact ⟨F', h⟩

/-! ## The tables of one root -/

/-- The tables under `root` are in use, in reach of the direct map, and each in one place. The walks end at `stop`. -/
structure TreeUpTo (stop : Word → Prop) [DecidablePred stop] (s : Machine) (F : Set Nat) (root : Nat) : Prop where
  wf : PhysWf s F
  live : ∀ π g, π.length ≤ 3 → walk (s.through stop) root π = some g → g ∉ F ∧ s.maps g
  once : ∀ π ρ g, π.length ≤ 3 → ρ.length ≤ 3 → walk (s.through stop) root π = some g →
    walk (s.through stop) root ρ = some g → π = ρ

/-- The tables under `root` are in use, in reach of the direct map, and each in one place. -/
structure TableTree (s : Machine) (F : Set Nat) (root : Nat) : Prop where
  wf : PhysWf s F
  live : ∀ π g, π.length ≤ 3 → walk s.edge root π = some g → g ∉ F ∧ s.maps g
  once : ∀ π ρ g, π.length ≤ 3 → ρ.length ≤ 3 → walk s.edge root π = some g → walk s.edge root ρ = some g → π = ρ

section

variable {s t w : Machine} {F F' : Set Nat} {root vpn v f n : Nat} {flags : Word} {stop : Word → Prop}
  [DecidablePred stop]

theorem initial_length {π : List Nat} (h : π <+: tablePath vpn 3) : π.length ≤ 3 := by
  have := h.length_le
  rwa [tablePath_length] at this

theorem initial_table {π : List Nat} (hπ : π <+: pagePath vpn 3) (hlen : π.length ≤ 3) : π <+: tablePath vpn 3 :=
  List.prefix_of_prefix_length_le hπ (List.prefix_append _ _) (by rwa [tablePath_length])

theorem pagePath_after (ρ : List Nat) (level : Nat) :
    ρ ++ pagePath v (level + 1) = ρ ++ [vpnIndex v (level + 1)] ++ pagePath v level := by
  rw [pagePath_succ, List.append_assoc]
  rfl

theorem TableTree.upTo (h : TableTree s F root) : TreeUpTo stop s F root :=
  ⟨h.wf, fun π g hπ hw => h.live π g hπ (Machine.walk_through hw), fun π ρ g hπ hρ hw hw' =>
    h.once π ρ g hπ hρ (Machine.walk_through hw) (Machine.walk_through hw')⟩

theorem TableTree.way (h : TableTree s F root) (vpn : Nat) :
    ∀ π g, π <+: tablePath vpn 3 → walk s.edge root π = some g → g ∉ F ∧ s.maps g :=
  fun π g hπ hw => h.live π g (initial_length hπ) hw

theorem TreeUpTo.walk_congr (h : TreeUpTo stop s F root) (hmem : ∀ g, g ∉ F → w.mem g = s.mem g) {π : List Nat}
    (hπ : π.length ≤ 4) : walk (w.through stop) root π = walk (s.through stop) root π :=
  walk_congr_path fun ρ g _ hlt hw => Machine.through_congr (hmem g (h.live ρ g (by omega) hw).1)

theorem TreeUpTo.words_congr (h : TreeUpTo stop s F root) (hmem : ∀ g, g ∉ F → w.mem g = s.mem g) (vpn : Nat) :
    w.words stop vpn 3 root = s.words stop vpn 3 root :=
  Machine.words_congr fun π g hπ hw => hmem g (h.live π g (initial_length hπ) hw).1

/-! ## Every other page -/

/-- What `map` of `vpn` needs of `stop`: it is met neither on the way to the page nor in the words that `map` writes. -/
structure Clear (stop : Word → Prop) [DecidablePred stop] (s : Machine) (root vpn : Nat) (flags : Word) : Prop where
  way : ∀ ρ, ρ <+: tablePath vpn 3 → walk (s.through stop) root ρ = walk s.edge root ρ
  tables : ∀ c, ¬ stop (mkEntry c tableFlags)
  leaf : ∀ f, ¬ stop (mkEntry f flags)

theorem Clear.never (s : Machine) (root vpn : Nat) (flags : Word) : Clear (fun _ => False) s root vpn flags :=
  ⟨fun _ _ => by rw [Machine.through_false], fun _ => id, fun _ => id⟩

theorem WayMapped.kept (h : WayMapped s F vpn 3 root f flags t F') (ht : TreeUpTo stop s F root) {ρ : List Nat}
    {g : Nat} (hρ : ρ.length ≤ 3) (hw : walk (s.through stop) root ρ = some g) :
    walk (t.through stop) root ρ = some g := by
  obtain ⟨π, m, i, -, -, hnp, hother⟩ := h.word
  refine walk_keep (fun τ j c d hτ hc hd => ?_) hw
  have hlen := hτ.length_le
  rw [List.length_append, List.length_singleton] at hlen
  rw [Machine.through_some] at hd ⊢
  rw [hother c j (ht.live τ c (by omega) hc).1]
  · exact hd
  · rintro ⟨rfl, rfl⟩
    exact hnp hd.2.1

theorem WayMapped.only (h : WayMapped s F vpn 3 root f flags t F') (ht : TreeUpTo stop s F root)
    (hclear : Clear stop s root vpn flags) {ρ : List Nat} {g : Nat} (hρ : ρ.length ≤ 3)
    (hw : walk (t.through stop) root ρ = some g) : walk (s.through stop) root ρ = some g ∨ ρ <+: tablePath vpn 3 := by
  obtain ⟨π, m, i, hπ, hm, -, hother⟩ := h.word
  induction ρ using List.reverseRecOn generalizing g with
  | nil => exact Or.inl hw
  | append_singleton ρ j ih =>
    have hlen : ρ.length + 1 ≤ 3 := by simpa using hρ
    rw [walk_append, Option.bind_eq_some_iff] at hw
    obtain ⟨c, hc, hw⟩ := hw
    obtain ⟨d, hd, hw⟩ := walk_cons_eq_some.mp hw
    obtain rfl : d = g := Option.some.inj hw
    obtain ⟨hj, hp, hstop, hf⟩ := Machine.through_some.mp hd
    cases hs : walk (s.through stop) root ρ with
    | some c' =>
      obtain rfl : c' = c := Option.some.inj ((h.kept ht (by omega) hs).symm.trans hc)
      by_cases hchanged : c' = m ∧ j = i
      · right
        obtain ⟨rfl, rfl⟩ := hchanged
        have hmlen := hπ.length_le
        rw [List.length_append, List.length_singleton, pagePath_length] at hmlen
        rw [← hclear.way π (initial_table ((List.prefix_append _ _).trans hπ) (by omega))] at hm
        rw [ht.once ρ π c' (by omega) (by omega) hs hm] at hρ ⊢
        exact initial_table hπ hρ
      · left
        rw [walk_append, hs, Option.bind_some, walk_cons_some (c := d)]
        · rfl
        · rw [Machine.through_some, ← hother c' j (ht.live ρ c' (by omega) hs).1 hchanged]
          exact ⟨hj, hp, hstop, hf⟩
    | none =>
      right
      have hpre := (ih (by omega) hc).resolve_left (by rw [hs]; simp)
      rw [hclear.way ρ hpre] at hs
      exact initial_table ((h.fresh ρ c hpre hs (Machine.walk_through hc)).2 j hp hj) hρ

/-- A word that is present now, and was not there before, is none where the walks stop. -/
theorem WayMapped.no_stop (h : WayMapped s F vpn 3 root f flags t F') (hclear : Clear stop s root vpn flags)
    {ρ : List Nat} {m i : Nat} (hpre : ρ ++ [i] <+: pagePath vpn 3) (hw : walk t.edge root ρ = some m)
    (hnew : walk s.edge root ρ = none ∨ ¬ present (s.mem m i)) (hp : present (t.mem m i)) : ¬ stop (t.mem m i) := by
  rcases h.entries ρ m i hpre hw hp with ⟨hs, hsame⟩ | ⟨c, hc⟩ | hf
  · rcases hnew with hnone | hnp
    · rw [hnone] at hs
      cases hs
    · exact absurd (hsame ▸ hp) hnp
  · rw [hc]
    exact hclear.tables c
  · rw [hf]
    exact hclear.leaf f

theorem walk_present {ρ : List Nat} {m i : Nat} (hw : walk t.edge root ρ = some m) (hi : i < 512)
    (hp : present (t.mem m i)) : walk t.edge root (ρ ++ [i]) = some (entryPpn (t.mem m i)) := by
  rw [walk_append, hw, Option.bind_some, walk_cons, edge_of_present hi hp]
  rfl

theorem WayMapped.new_words (h : WayMapped s F vpn 3 root f flags t F') (hclear : Clear stop s root vpn flags)
    (hne : pagePath v 3 ≠ pagePath vpn 3) {ρ : List Nat} {m level : Nat} (hv : pagePath v 3 = ρ ++ pagePath v level)
    (hρ : ρ <+: tablePath vpn 3) (hnone : walk s.edge root ρ = none) (hw : walk t.edge root ρ = some m) :
    t.words stop v level m = none := by
  induction level generalizing ρ m with
  | zero =>
    refine Machine.words_absent fun hp => hne ?_
    have hpre := (h.fresh ρ m hρ hnone hw).2 _ hp (vpnIndex_lt v 0)
    rw [hv]
    refine hpre.eq_of_length ?_
    rw [pagePath_length, ← pagePath_length v 3, hv]
    rfl
  | succ level ih =>
    by_cases hp : present (t.mem m (vpnIndex v (level + 1)))
    swap
    · exact Machine.words_absent hp
    have hi := vpnIndex_lt v (level + 1)
    have hpre := (h.fresh ρ m hρ hnone hw).2 _ hp hi
    rw [pagePath_after] at hv
    have hlen := congrArg List.length hv
    rw [pagePath_length, List.length_append, List.length_append, List.length_singleton, pagePath_length] at hlen
    have hnext : walk s.edge root (ρ ++ [vpnIndex v (level + 1)]) = none := by
      rw [walk_append, hnone]
      rfl
    rw [Machine.words_below hp (h.no_stop hclear hpre hw (Or.inl hnone) hp), ih hv (initial_table hpre (by
      rw [List.length_append, List.length_singleton]
      omega)) hnext (walk_present hw hi hp), Option.map_none]

/-- Behind the word that changes are new tables, and another page is in none of them. -/
theorem WayMapped.changed_words (h : WayMapped s F vpn 3 root f flags t F') (hclear : Clear stop s root vpn flags)
    (hne : pagePath v 3 ≠ pagePath vpn 3) {ρ : List Nat} {m level : Nat}
    (hv : pagePath v 3 = ρ ++ [vpnIndex v (level + 1)] ++ pagePath v level)
    (hpre : ρ ++ [vpnIndex v (level + 1)] <+: pagePath vpn 3) (hs : walk s.edge root ρ = some m)
    (hnp : ¬ present (s.mem m (vpnIndex v (level + 1)))) (hw : walk t.edge root ρ = some m) :
    t.words stop v (level + 1) m = none := by
  by_cases hp : present (t.mem m (vpnIndex v (level + 1)))
  swap
  · exact Machine.words_absent hp
  have hlen := congrArg List.length hv
  rw [pagePath_length, List.length_append, List.length_append, List.length_singleton, pagePath_length] at hlen
  have hnone : walk s.edge root (ρ ++ [vpnIndex v (level + 1)]) = none := by
    rw [walk_append, hs, Option.bind_some, walk_cons_none (Machine.edge_none.mpr fun _ => hnp)]
  have hnext : ρ ++ [vpnIndex v (level + 1)] <+: tablePath vpn 3 := initial_table hpre (by
    rw [List.length_append, List.length_singleton]
    omega)
  rw [Machine.words_below hp (h.no_stop hclear hpre hw (Or.inr hnp) hp),
    h.new_words hclear hne hv hnext hnone (walk_present hw (vpnIndex_lt v (level + 1)) hp), Option.map_none]

theorem WayMapped.others_below (h : WayMapped s F vpn 3 root f flags t F') (ht : TreeUpTo stop s F root)
    (hclear : Clear stop s root vpn flags) (hne : pagePath v 3 ≠ pagePath vpn 3) {ρ : List Nat} {m level : Nat}
    (hv : pagePath v 3 = ρ ++ pagePath v level) (hw : walk (s.through stop) root ρ = some m) :
    t.words stop v level m = s.words stop v level m := by
  obtain ⟨π, g, i, hπ, hg, hnp, hother⟩ := h.word
  have hπlen := hπ.length_le
  rw [List.length_append, List.length_singleton, pagePath_length] at hπlen
  have hpi : π <+: tablePath vpn 3 := initial_table ((List.prefix_append _ _).trans hπ) (by omega)
  rw [← hclear.way π hpi] at hg
  induction level generalizing ρ m with
  | zero =>
    have hlen := congrArg List.length hv
    rw [pagePath_length, List.length_append, pagePath_length] at hlen
    rw [Machine.words, Machine.words, hother m _ (ht.live ρ m (by omega) hw).1]
    rintro ⟨rfl, rfl⟩
    rw [← ht.once ρ π m (by omega) (by omega) hw hg] at hπ
    refine hne (hv.trans (hπ.eq_of_length ?_))
    rw [pagePath_length, List.length_append, List.length_singleton]
    omega
  | succ level ih =>
    rw [pagePath_after] at hv
    have hlen := congrArg List.length hv
    rw [pagePath_length, List.length_append, List.length_append, List.length_singleton, pagePath_length] at hlen
    by_cases hword : m = g ∧ vpnIndex v (level + 1) = i
    · obtain ⟨rfl, rfl⟩ := hword
      obtain rfl := ht.once ρ π m (by omega) (by omega) hw hg
      rw [Machine.words_absent hnp]
      exact h.changed_words hclear hne hv hπ (Machine.walk_through hw) hnp
        (Machine.walk_through (h.kept ht (by omega) hw))
    · have hsame := hother m _ (ht.live ρ m (by omega) hw).1 hword
      by_cases hp : present (s.mem m (vpnIndex v (level + 1)))
      swap
      · rw [Machine.words_absent hp, Machine.words_absent (by rwa [hsame])]
      by_cases hs : stop (s.mem m (vpnIndex v (level + 1)))
      · rw [Machine.words, Machine.words, hsame]
        simp only [hp, not_true_eq_false, if_false, hs, if_true]
      · rw [Machine.words_below hp hs, Machine.words_below (by rwa [hsame]) (by rwa [hsame]), hsame, ih hv]
        rw [walk_append, hw, Option.bind_some, walk_cons,
          Machine.through_some.mpr ⟨vpnIndex_lt v (level + 1), hp, hs, rfl⟩]
        rfl

theorem WayMapped.others (h : WayMapped s F vpn 3 root f flags t F') (ht : TreeUpTo stop s F root)
    (hclear : Clear stop s root vpn flags) (hne : pagePath v 3 ≠ pagePath vpn 3) :
    t.words stop v 3 root = s.words stop v 3 root :=
  h.others_below ht hclear hne (List.nil_append _).symm rfl

theorem WayMapped.pageEntry_others (h : WayMapped s F vpn 3 root f flags t F') (ht : TableTree s F root)
    (hne : pagePath v 3 ≠ pagePath vpn 3) : t.pageEntry root v = s.pageEntry root v := by
  rw [Machine.pageEntry_words, Machine.pageEntry_words, h.others ht.upTo (Clear.never s root vpn flags) hne]

end

end Kernel
