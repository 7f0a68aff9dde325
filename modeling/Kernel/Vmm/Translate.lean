import Kernel.Vmm.Entries

/-!
# What the processor translates

A walk of the processor ends at the last level, or before it at a large page. Where it
meets none, it is the walk of `leafPte`.
-/

namespace Kernel

open Lib

/-- The words on the way to page `vpn` from `table` down, up to the one that maps it. -/
def Machine.words (s : Machine) (stop : Word → Prop) [DecidablePred stop] (vpn : Nat) : Nat → Nat → Option (List Word)
  | 0, table => if present (s.mem table (vpnIndex vpn 0)) then some [s.mem table (vpnIndex vpn 0)] else none
  | level + 1, table =>
    let entry := s.mem table (vpnIndex vpn (level + 1))
    if ¬ present entry then none
    else if stop entry then some [entry]
    else (s.words stop vpn level (entryPpn entry)).map fun below => entry :: below

/-- What the processor reads for a page that is there. -/
def Machine.translate (s : Machine) (root vpn : Nat) : Option (List Word) := s.words large vpn 3 root

/-! ## Stores -/

/-- The entry lets the kernel write: `CR0.WP` is set, and the user bit is not asked for. -/
def writable (entry : Word) : Prop := entry &&& writableBit ≠ 0

instance : DecidablePred writable := fun entry => by unfold writable; infer_instance

/-- The frame for page `vpn` in what the last word maps: 4 KiB, 2 MiB or 1 GiB. In a root, bit 7 is reserved. -/
def frameIn (vpn : Nat) : List Word → Option Nat
  | [_, _, _, entry] => some (entryPpn entry)
  | [_, _, entry] => some (entryPpn entry / 2 ^ 9 * 2 ^ 9 + vpn % 2 ^ 9)
  | [_, entry] => some (entryPpn entry / 2 ^ 18 * 2 ^ 18 + vpn % 2 ^ 18)
  | _ => none

/-- The frame that a store at `p` goes to, if it does not fault. -/
def Machine.storeTarget (s : Machine) (p : Nat) : Option Nat :=
  if canonical p then
    (s.translate s.root (p / FRAME_SIZE)).bind fun words =>
      if ∀ entry ∈ words, writable entry then frameIn (p / FRAME_SIZE) words else none
  else none

/-- No large page is there in place of page `vpn`. -/
def NoLarge (s : Machine) (root vpn : Nat) : Prop := ∀ words, s.translate root vpn = some words → words.length = 4

section

variable {s t : Machine} {stop : Word → Prop} [DecidablePred stop] {vpn level table last root : Nat}

theorem writable_mkEntry {flags : Word} (h : writable flags) (ppn : Nat) : writable (mkEntry ppn flags) := by
  unfold writable
  rw [mkEntry_and (by decide)]
  exact h

theorem not_large_mkEntry {flags : Word} (h : ¬ large flags) (ppn : Nat) : ¬ large (mkEntry ppn flags) := by
  unfold large
  rw [mkEntry_and (by decide)]
  exact h

theorem Machine.words_absent (h : ¬ present (s.mem table (vpnIndex vpn level))) :
    s.words stop vpn level table = none := by
  cases level with
  | zero => exact if_neg h
  | succ level => exact if_pos h

theorem Machine.words_below (hp : present (s.mem table (vpnIndex vpn (level + 1))))
    (hs : ¬ stop (s.mem table (vpnIndex vpn (level + 1)))) : s.words stop vpn (level + 1) table =
      (s.words stop vpn level (entryPpn (s.mem table (vpnIndex vpn (level + 1))))).map fun below =>
        s.mem table (vpnIndex vpn (level + 1)) :: below := by
  rw [words, if_neg (not_not_intro hp), if_neg hs]

theorem Machine.words_congr
    (h : ∀ π g, π <+: tablePath vpn level → walk (s.through stop) table π = some g → t.mem g = s.mem g) :
    t.words stop vpn level table = s.words stop vpn level table := by
  have hfirst := h [] table List.nil_prefix rfl
  induction level generalizing table with
  | zero => rw [words, words, hfirst]
  | succ level ih =>
    by_cases hp : present (s.mem table (vpnIndex vpn (level + 1)))
    · by_cases hs : stop (s.mem table (vpnIndex vpn (level + 1)))
      · rw [words, words, hfirst]
        simp only [hp, not_true_eq_false, if_false, hs, if_true]
      · have hedge : s.through stop table (vpnIndex vpn (level + 1)) = some _ :=
          through_some.mpr ⟨vpnIndex_lt vpn _, hp, hs, rfl⟩
        have hbelow : ∀ π g, π <+: tablePath vpn level →
            walk (s.through stop) (entryPpn (s.mem table (vpnIndex vpn (level + 1)))) π = some g → t.mem g = s.mem g :=
          fun π g hπ hw => h (vpnIndex vpn (level + 1) :: π) g ((List.prefix_cons_inj _).mpr hπ)
            ((walk_cons_some hedge).mpr hw)
        rw [words_below hp hs, words_below (by rwa [hfirst]) (by rwa [hfirst]), hfirst,
          ih hbelow (hbelow [] _ List.nil_prefix rfl)]
    · rw [words_absent hp, words_absent (by rwa [hfirst])]

/-! ## Walks that meet no large page -/

theorem Machine.words_of_walk (hw : walk (s.through stop) table (tablePath vpn level) = some last)
    (hp : present (s.mem last (vpnIndex vpn 0))) :
    ∃ above, s.words stop vpn level table = some (above ++ [s.mem last (vpnIndex vpn 0)]) ∧ above.length = level ∧
      ∀ e ∈ above, ∃ π g i, π ++ [i] <+: tablePath vpn level ∧ walk (s.through stop) table π = some g ∧
        i < 512 ∧ present (s.mem g i) ∧ s.mem g i = e := by
  induction level generalizing table with
  | zero =>
    obtain rfl := Option.some.inj hw
    exact ⟨[], if_pos hp, rfl, fun e he => by cases he⟩
  | succ level ih =>
    rw [tablePath, walk_cons_eq_some] at hw
    obtain ⟨c, hedge, hw⟩ := hw
    obtain ⟨hi, hpresent, hs, rfl⟩ := Machine.through_some.mp hedge
    obtain ⟨above, hwords, hlen, hmem⟩ := ih hw
    refine ⟨s.mem table (vpnIndex vpn (level + 1)) :: above, ?_, by rw [List.length_cons, hlen], fun e he => ?_⟩
    · rw [words_below hpresent hs, hwords]
      rfl
    · rcases List.mem_cons.mp he with rfl | he
      · exact ⟨[], table, _, (List.prefix_cons_inj _).mpr List.nil_prefix, rfl, hi, hpresent, rfl⟩
      · obtain ⟨π, g, i, hπ, hg, he⟩ := hmem e he
        exact ⟨_, g, i, (List.prefix_cons_inj (vpnIndex vpn (level + 1))).mpr hπ, (walk_cons_some hedge).mpr hg, he⟩

theorem Machine.walk_of_words {words : List Word} (h : s.words stop vpn level table = some words)
    (hlen : words.length = level + 1) :
    ∃ last, walk s.edge table (tablePath vpn level) = some last ∧ present (s.mem last (vpnIndex vpn 0)) := by
  induction level generalizing table words with
  | zero =>
    by_cases hp : present (s.mem table (vpnIndex vpn 0))
    · exact ⟨table, rfl, hp⟩
    · rw [words_absent hp] at h
      cases h
  | succ level ih =>
    by_cases hp : present (s.mem table (vpnIndex vpn (level + 1)))
    swap
    · rw [words_absent hp] at h
      cases h
    by_cases hs : stop (s.mem table (vpnIndex vpn (level + 1)))
    · rw [Machine.words] at h
      simp only [hp, not_true_eq_false, if_false, hs, if_true, Option.some.injEq] at h
      rw [← h] at hlen
      simp at hlen
    · rw [words_below hp hs, Option.map_eq_some_iff] at h
      obtain ⟨below, hbelow, rfl⟩ := h
      obtain ⟨last, hw, hlast⟩ := ih hbelow (by simpa using hlen)
      exact ⟨last, by rw [tablePath, walk_cons_some (edge_of_present (vpnIndex_lt vpn _) hp)]; exact hw, hlast⟩

theorem Machine.walk_whole (h : ∀ words, s.words stop vpn level table = some words → words.length = level + 1)
    {π : List Nat} (hπ : π <+: tablePath vpn level) : walk (s.through stop) table π = walk s.edge table π := by
  induction level generalizing table π with
  | zero =>
    obtain rfl := List.prefix_nil.mp hπ
    rfl
  | succ level ih =>
    cases π with
    | nil => rfl
    | cons i π =>
      rw [tablePath, List.cons_prefix_cons] at hπ
      obtain ⟨rfl, hπ⟩ := hπ
      by_cases hp : present (s.mem table (vpnIndex vpn (level + 1)))
      swap
      · rw [walk_cons_none (Machine.edge_none.mpr fun _ => hp), walk_cons_none]
        exact Option.eq_none_iff_forall_ne_some.mpr fun c hc => hp (Machine.through_some.mp hc).2.1
      have hs : ¬ stop (s.mem table (vpnIndex vpn (level + 1))) := fun hs => by
        have := h [s.mem table (vpnIndex vpn (level + 1))] (by
          rw [Machine.words]
          simp only [hp, not_true_eq_false, if_false, hs, if_true])
        simp at this
      have hi := vpnIndex_lt vpn (level + 1)
      rw [walk_cons, walk_cons, edge_of_present hi hp, Machine.through_some.mpr ⟨hi, hp, hs, rfl⟩, Option.bind_some,
        Option.bind_some]
      refine ih (fun below hbelow => ?_) hπ
      have := h (s.mem table (vpnIndex vpn (level + 1)) :: below) (by
        rw [words_below hp hs, hbelow]
        rfl)
      simpa using this

theorem Machine.words_length {words : List Word} (hstop : ∀ e, ¬ stop e)
    (h : s.words stop vpn level table = some words) : words.length = level + 1 := by
  induction level generalizing table words with
  | zero =>
    rw [Machine.words] at h
    split_ifs at h
    rw [← Option.some.inj h]
    rfl
  | succ level ih =>
    by_cases hp : present (s.mem table (vpnIndex vpn (level + 1)))
    · rw [words_below hp (hstop _), Option.map_eq_some_iff] at h
      obtain ⟨below, hbelow, rfl⟩ := h
      rw [List.length_cons, ih hbelow]
    · rw [words_absent hp] at h
      cases h

theorem Machine.pageEntry_words (s : Machine) (root vpn : Nat) :
    s.pageEntry root vpn = (s.words (fun _ => False) vpn 3 root).bind List.getLast? := by
  cases hwords : s.words (fun _ => False) vpn 3 root with
  | some words =>
    obtain ⟨last, hw, hp⟩ := walk_of_words hwords (words_length (fun _ => id) hwords)
    have he := Machine.pageEntry_some.mpr ⟨last, hw, hp, rfl⟩
    rw [← through_false] at hw
    obtain ⟨above, h, -⟩ := words_of_walk hw hp
    obtain rfl := Option.some.inj (hwords.symm.trans h)
    rw [he, Option.bind_some, List.getLast?_concat]
  | none =>
    refine Option.eq_none_iff_forall_ne_some.mpr fun entry he => ?_
    obtain ⟨last, hw, hp, rfl⟩ := Machine.pageEntry_some.mp he
    rw [← through_false] at hw
    obtain ⟨above, h, -⟩ := words_of_walk hw hp
    rw [hwords] at h
    cases h

theorem NoLarge.walks (h : NoLarge s root vpn) {π : List Nat} (hπ : π <+: tablePath vpn 3) :
    walk s.tableEdge root π = walk s.edge root π := Machine.walk_whole h hπ

theorem NoLarge.translate_none (h : NoLarge s root vpn) :
    s.translate root vpn = none ↔ s.pageEntry root vpn = none := by
  constructor
  · intro hnone
    refine Option.eq_none_iff_forall_ne_some.mpr fun entry he => ?_
    obtain ⟨last, hw, hp, rfl⟩ := Machine.pageEntry_some.mp he
    rw [← h.walks List.prefix_rfl] at hw
    obtain ⟨above, hwords, -⟩ := Machine.words_of_walk hw hp
    rw [Machine.translate, hwords] at hnone
    cases hnone
  · intro he
    refine Option.eq_none_iff_forall_ne_some.mpr fun words hwords => ?_
    obtain ⟨last, hw, hp⟩ := Machine.walk_of_words hwords (h words hwords)
    rw [Machine.pageEntry, hw, Option.bind_some, if_pos hp] at he
    cases he

end

end Kernel
