import Kernel.Lib.Walk
import Kernel.PhysMem.Proofs
import Kernel.Vmm.Code

/-!
# Page tables as trees of frames

What the entry bits mean, and the graph whose nodes are frames: an edge for
every present entry.
-/

namespace Kernel

open Lib

/-! ## Entry bits -/

theorem getLsbD_presentBit (i : Nat) : presentBit.getLsbD i = decide (i = 0) := by
  by_cases hi : i < 64
  · have h : ∀ j : Fin 64, presentBit.getLsbD j = decide (j.val = 0) := by decide
    exact h ⟨i, hi⟩
  · rw [BitVec.getLsbD_of_ge _ _ (by omega)]; simp; omega

theorem getLsbD_addressMask (i : Nat) : addressMask.getLsbD i = decide (12 ≤ i ∧ i < 52) := by
  by_cases hi : i < 64
  · have h : ∀ j : Fin 64, addressMask.getLsbD j = decide (12 ≤ j.val ∧ j.val < 52) := by decide
    exact h ⟨i, hi⟩
  · rw [BitVec.getLsbD_of_ge _ _ (by omega)]; simp; omega

theorem present_iff (entry : Word) : present entry ↔ entry.getLsbD 0 = true := by
  have hbit : ∀ i, (entry &&& presentBit).getLsbD i = (entry.getLsbD i && decide (i = 0)) := by
    intro i; rw [BitVec.getLsbD_and, getLsbD_presentBit]
  unfold present
  constructor
  · intro h
    by_contra h0
    apply h
    apply BitVec.eq_of_getLsbD_eq
    intro i _
    rw [hbit]
    by_cases hi : i = 0
    · subst hi; simpa using h0
    · simp [hi]
  · intro h h0
    have := hbit 0
    rw [h0, h] at this
    simp at this

theorem not_present_zero : ¬ present 0 := by decide

theorem getLsbD_mkEntry (ppn : Nat) (flags : Word) {i : Nat} (hi : i < 64) :
    (mkEntry ppn flags).getLsbD i = ((decide (12 ≤ i) && ppn.testBit (i - 12)) || flags.getLsbD i) := by
  have hlt : i - 12 < 64 := by omega
  simp only [mkEntry, LOG_FRAME_SIZE, BitVec.getLsbD_or, BitVec.getLsbD_shiftLeft, BitVec.getLsbD_ofNat,
    hi, hlt, decide_true, Bool.true_and]
  by_cases h12 : i < 12 <;> simp [h12, Nat.not_le.mpr, Nat.not_lt.mp]

theorem mkEntry_and {mask : Word} (hmask : mask.toNat < 2 ^ 12) (ppn : Nat) (flags : Word) :
    mkEntry ppn flags &&& mask = flags &&& mask := by
  apply BitVec.eq_of_getLsbD_eq
  intro i hi
  rw [BitVec.getLsbD_and, BitVec.getLsbD_and, getLsbD_mkEntry ppn flags hi]
  by_cases hlow : i < 12
  · simp [Nat.not_le.mpr hlow]
  · have hbit : mask.getLsbD i = false :=
      Nat.testBit_lt_two_pow (Nat.lt_of_lt_of_le hmask (Nat.pow_le_pow_right (by omega) (by omega)))
    simp [hbit]

theorem present_mkEntry (ppn : Nat) (flags : Word) : present (mkEntry ppn flags) ↔ present flags := by
  rw [present_iff, present_iff, getLsbD_mkEntry ppn flags (by omega)]
  simp

theorem present_flags (entry : Word) : present (entry &&& ~~~addressMask) ↔ present entry := by
  have h0 : addressMask.getLsbD 0 = false := by rw [getLsbD_addressMask]; rfl
  rw [present_iff, present_iff, BitVec.getLsbD_and, BitVec.getLsbD_not, h0]
  simp

theorem present_leafFlags (user write : Bool) : present (leafFlags user write) := by
  cases user <;> cases write <;> decide

theorem entryPpn_mkEntry {ppn : Nat} {flags : Word} (hp : ppn < 2 ^ 40) (hf : flags &&& addressMask = 0) :
    entryPpn (mkEntry ppn flags) = ppn := by
  have hbits : (mkEntry ppn flags &&& addressMask) >>> LOG_FRAME_SIZE = BitVec.ofNat 64 ppn := by
    apply BitVec.eq_of_getLsbD_eq
    intro i hi
    rw [BitVec.getLsbD_ushiftRight, BitVec.getLsbD_and, getLsbD_addressMask, BitVec.getLsbD_ofNat, LOG_FRAME_SIZE]
    by_cases h40 : i < 40
    · have hflag : flags.getLsbD (12 + i) = false := by
        have := congrArg (fun w => w.getLsbD (12 + i)) hf
        simpa [getLsbD_addressMask, show 12 + i < 52 by omega] using this
      rw [getLsbD_mkEntry ppn flags (by omega), hflag]
      simp [hi, show 12 + i < 52 by omega]
    · have hbit : ppn.testBit i = false :=
        Nat.testBit_lt_two_pow (lt_of_lt_of_le hp (Nat.pow_le_pow_right (by omega) (by omega)))
      simp [hbit, show ¬ 12 + i < 52 by omega]
  rw [entryPpn, hbits, PPN, BitVec.toNat_ofNat]
  omega

theorem flags_masked (entry : Word) : (entry &&& ~~~addressMask) &&& addressMask = 0 := by
  rw [BitVec.and_assoc, BitVec.and_comm (~~~addressMask), BitVec.and_not_self]
  exact BitVec.and_zero

theorem leafFlags_masked (user write : Bool) : leafFlags user write &&& addressMask = 0 := by
  cases user <;> cases write <;> decide

theorem flags_mkEntry {ppn : Nat} (hp : ppn < 2 ^ 40) (entry : Word) :
    mkEntry ppn (entry &&& ~~~addressMask) &&& ~~~addressMask = entry &&& ~~~addressMask := by
  apply BitVec.eq_of_getLsbD_eq
  intro i hi
  rw [BitVec.getLsbD_and, getLsbD_mkEntry ppn _ hi]
  simp only [BitVec.getLsbD_and, BitVec.getLsbD_not, getLsbD_addressMask, hi, decide_true, Bool.true_and]
  by_cases h : 12 ≤ i ∧ i < 52
  · simp [h]
  · by_cases h12 : 12 ≤ i
    · have hbit : ppn.testBit (i - 12) = false :=
        Nat.testBit_lt_two_pow (lt_of_lt_of_le hp (Nat.pow_le_pow_right (by omega) (by omega)))
      simp [hbit]
    · simp [h12]

/-! ## The graph -/

/-- The frame that word `i` of frame `t` leads to, when `t` is a table. -/
def Machine.edge (s : Machine) : Edges Nat Nat := fun t i =>
  if i < 512 ∧ present (s.mem t i) then some (entryPpn (s.mem t i)) else none

theorem Machine.edge_some {s : Machine} {t i c : Nat} :
    s.edge t i = some c ↔ i < 512 ∧ present (s.mem t i) ∧ entryPpn (s.mem t i) = c := by
  unfold edge
  split_ifs with h <;> simp <;> grind

theorem Machine.edge_none {s : Machine} {t i : Nat} : s.edge t i = none ↔ (i < 512 → ¬ present (s.mem t i)) := by
  unfold edge
  split_ifs with h <;> simp <;> grind

theorem Machine.edge_congr {s u : Machine} {t : Nat} (h : u.mem t = s.mem t) : u.edge t = s.edge t := by
  funext i
  rw [edge, edge, h]

/-- Bit 7 of an entry above the last level: the entry maps a page of 2 MiB or of 1 GiB itself. -/
def largeBit : Word := 1#64 <<< 7

def large (entry : Word) : Prop := entry &&& largeBit ≠ 0

instance : DecidablePred large := fun entry => by unfold large; infer_instance

/-- The edges of a walk that ends at the words of which `stop` holds. -/
def Machine.through (s : Machine) (stop : Word → Prop) [DecidablePred stop] : Edges Nat Nat := fun t i =>
  if i < 512 ∧ present (s.mem t i) ∧ ¬ stop (s.mem t i) then some (entryPpn (s.mem t i)) else none

/-- The next table that word `i` of table `t` leads to. A large page is none. -/
def Machine.tableEdge (s : Machine) : Edges Nat Nat := s.through large

section

variable {s u : Machine} {stop : Word → Prop} [DecidablePred stop] {t i c : Nat} {π : List Nat}

theorem Machine.through_some :
    s.through stop t i = some c ↔ i < 512 ∧ present (s.mem t i) ∧ ¬ stop (s.mem t i) ∧ entryPpn (s.mem t i) = c := by
  unfold through
  split_ifs with h <;> simp <;> grind

theorem Machine.through_congr (h : u.mem t = s.mem t) : u.through stop t = s.through stop t := by
  funext i
  rw [through, through, h]

theorem Machine.through_edge (h : s.through stop t i = some c) : s.edge t i = some c := by
  obtain ⟨hi, hp, -, hc⟩ := through_some.mp h
  exact edge_some.mpr ⟨hi, hp, hc⟩

theorem Machine.walk_through (h : walk (s.through stop) t π = some c) : walk s.edge t π = some c :=
  walk_keep (fun _ _ _ _ _ _ hd => through_edge hd) h

theorem Machine.through_false (s : Machine) : s.through (fun _ => False) = s.edge := by
  funext t i
  simp only [through, edge, not_false_eq_true, and_true]

end

theorem within_agree {s u : Machine} {d n : Nat} {D : Set Nat} (hD : within s.edge d n ⊆ D)
    (h : ∀ g ∈ D, u.mem g = s.mem g) : within u.edge d n = within s.edge d n :=
  within_congr' fun m hm => Machine.edge_congr (h m (hD hm))

theorem edge_mkEntry {t : Machine} {dst i c : Nat} {flags : Word} (hi : i < 512) (hc : c < 2 ^ 40)
    (hp : present flags) (hf : flags &&& addressMask = 0) (h : t.mem dst i = mkEntry c flags) :
    t.edge dst i = some c := by
  rw [Machine.edge_some, h, present_mkEntry, entryPpn_mkEntry hc hf]
  exact ⟨hi, hp, rfl⟩

theorem edge_zero {t : Machine} {dst i : Nat} (h : t.mem dst i = 0) : t.edge dst i = none := by
  rw [Machine.edge_none, h]
  exact fun _ => not_present_zero

theorem edge_of_present {s : Machine} {t i : Nat} (hi : i < 512) (hp : present (s.mem t i)) :
    s.edge t i = some (entryPpn (s.mem t i)) :=
  Machine.edge_some.mpr ⟨hi, hp, rfl⟩

/-! ## Trees that belong to a process -/

/-- The tree of depth `d` under `c` lies in `D`, has no frame twice, and its leaves are data of `p`. -/
structure OwnTree (t : Machine) (D : Set Nat) (p d c : Nat) : Prop where
  inside : within t.edge d c ⊆ D
  tree : TreeWithin t.edge d c
  leaves : ∀ π f, π.length = d → walk t.edge c π = some f → t.owner f = some p

/-- The first `n` entries of `table` lead to disjoint trees of depth `d`, all in `D` and off the table. -/
structure Forest (t : Machine) (D : Set Nat) (p d n table : Nat) : Prop where
  trees : ∀ i c, i < n → t.edge table i = some c → OwnTree t (D \ {table}) p d c
  apart : ∀ i j c c', i < n → j < n → i ≠ j → t.edge table i = some c → t.edge table j = some c' →
    Disjoint (within t.edge d c) (within t.edge d c')

theorem OwnTree.congr_walk {s t : Machine} {D : Set Nat} {p d c : Nat} (h : OwnTree s D p d c)
    (hw : ∀ π, π.length ≤ d → walk t.edge c π = walk s.edge c π) (hown : ∀ g ∈ D, t.owner g = s.owner g) :
    OwnTree t D p d c where
  inside := by
    rintro g ⟨π, hπ, hg⟩
    exact h.inside ⟨π, hπ, by rwa [hw π hπ] at hg⟩
  tree π ρ m hπ hρ hm hm' := h.tree π ρ m hπ hρ (by rwa [hw π hπ] at hm) (by rwa [hw ρ hρ] at hm')
  leaves π f hπ hf := by
    rw [hw π hπ.le] at hf
    rw [hown f (h.inside ⟨π, hπ.le, hf⟩)]
    exact h.leaves π f hπ hf

theorem OwnTree.congr {s t : Machine} {D : Set Nat} {p d c : Nat} (h : OwnTree s D p d c)
    (hmem : ∀ g ∈ D, t.mem g = s.mem g) (hown : ∀ g ∈ D, t.owner g = s.owner g) : OwnTree t D p d c :=
  h.congr_walk (fun π hπ => walk_congr (d := d) (by omega) fun m hm => Machine.edge_congr (hmem m (h.inside hm))) hown

theorem OwnTree.mono {t : Machine} {D D' : Set Nat} {p d c : Nat} (h : OwnTree t D p d c) (hD : D ⊆ D') :
    OwnTree t D' p d c :=
  ⟨fun _ hg => hD (h.inside hg), h.tree, h.leaves⟩

theorem Forest.mono {t : Machine} {D D' : Set Nat} {p d n n' table : Nat} (h : Forest t D p d n table)
    (hD : D ⊆ D') (hn : n' ≤ n) : Forest t D' p d n' table where
  trees i c hi hc := (h.trees i c (by omega) hc).mono fun _ hg => ⟨hD hg.1, hg.2⟩
  apart i j c c' hi hj := h.apart i j c c' (by omega) (by omega)

theorem Forest.child {s : Machine} {D : Set Nat} {p d n table i c : Nat} (h : Forest s D p d n table) (hi : i < n)
    (hc : s.edge table i = some c) : OwnTree s (within s.edge d c) p d c :=
  ⟨subset_rfl, (h.trees i c hi hc).tree, (h.trees i c hi hc).leaves⟩

theorem ownTree_succ {t : Machine} {D : Set Nat} {p d c : Nat} :
    OwnTree t D p (d + 1) c ↔ c ∈ D ∧ Forest t D p d 512 c := by
  constructor
  · intro h
    have htree := treeWithin_succ.mp h.tree
    refine ⟨h.inside (self_mem_within _ c), fun i m hi hm => ⟨?_, (htree.1 i m hm).2, ?_⟩, ?_⟩
    · intro g hg
      refine ⟨h.inside (within_child hm hg), ?_⟩
      rintro rfl
      exact (htree.1 i m hm).1 hg
    · intro π f hπ hw
      exact h.leaves (i :: π) f (by simp [hπ]) ((walk_cons_some hm).mpr hw)
    · intro i j m m' _ _ hij hm hm'
      exact htree.2 i j m m' hij hm hm'
  · rintro ⟨hc, hf⟩
    have hlt : ∀ {i m}, t.edge c i = some m → i < 512 := fun h => (Machine.edge_some.mp h).1
    refine ⟨?_, treeWithin_succ.mpr ⟨fun i m hm => ⟨fun hin => ?_, (hf.trees i m (hlt hm) hm).tree⟩, ?_⟩, ?_⟩
    · intro g hg
      rcases mem_within_succ.mp hg with rfl | ⟨i, m, hm, hg⟩
      · exact hc
      · exact ((hf.trees i m (hlt hm) hm).inside hg).1
    · exact ((hf.trees i m (hlt hm) hm).inside hin).2 rfl
    · intro i j m m' hij hm hm'
      exact hf.apart i j m m' (hlt hm) (hlt hm') hij hm hm'
    · intro π f hπ hw
      cases π with
      | nil => cases hπ
      | cons i π =>
        obtain ⟨m, hm, hw⟩ := walk_cons_eq_some.mp hw
        exact (hf.trees i m (hlt hm) hm).leaves π f (by simpa using hπ) hw

theorem ownTree_zero {t : Machine} {D : Set Nat} {p c : Nat} :
    OwnTree t D p 0 c ↔ c ∈ D ∧ t.owner c = some p := by
  constructor
  · intro h
    exact ⟨h.inside (self_mem_within 0 c), h.leaves [] c rfl rfl⟩
  · rintro ⟨hc, hown⟩
    refine ⟨?_, treeWithin_zero c, ?_⟩
    · rw [within_zero, Set.singleton_subset_iff]; exact hc
    · intro π f hπ hw
      obtain rfl := List.length_eq_zero_iff.mp hπ
      rw [walk_nil, Option.some.injEq] at hw
      rw [← hw]; exact hown

theorem Forest.congr {s t : Machine} {D : Set Nat} {p d n table : Nat} (h : Forest s D p d n table)
    (htable : ∀ i, i < n → t.mem table i = s.mem table i) (hmem : ∀ g ∈ D, g ≠ table → t.mem g = s.mem g)
    (hown : ∀ g ∈ D, g ≠ table → t.owner g = s.owner g) : Forest t D p d n table := by
  have hedge : ∀ i, i < n → t.edge table i = s.edge table i := by
    intro i hi
    rw [Machine.edge, Machine.edge, htable i hi]
  have hmem' : ∀ g ∈ D \ {table}, t.mem g = s.mem g := fun g hg => hmem g hg.1 hg.2
  refine ⟨fun i c hi hc => ?_, fun i j c c' hi hj hij hc hc' => ?_⟩
  · rw [hedge i hi] at hc
    exact (h.trees i c hi hc).congr hmem' fun g hg => hown g hg.1 hg.2
  · rw [hedge i hi] at hc
    rw [hedge j hj] at hc'
    rw [within_agree (h.trees i c hi hc).inside hmem', within_agree (h.trees j c' hj hc').inside hmem']
    exact h.apart i j c c' hi hj hij hc hc'

/--
One entry of the table may change. The other trees must stay as they are and stay away from what the
entry leads to now.
-/
theorem Forest.update {s t : Machine} {D D' E : Set Nat} {p d n table k : Nat} (h : Forest s D p d n table)
    (htable : ∀ i, i < n → i ≠ k → t.edge table i = s.edge table i)
    (hkeep : ∀ i c, i < n → i ≠ k → s.edge table i = some c → ∀ g ∈ within s.edge d c,
      t.mem g = s.mem g ∧ t.owner g = s.owner g ∧ g ∈ D' ∧ g ∉ E)
    (hnew : ∀ c, t.edge table k = some c → OwnTree t E p d c) (hE : table ∉ E) (hED : E ⊆ D') :
    Forest t D' p d n table := by
  have hold : ∀ i c, i < n → i ≠ k → t.edge table i = some c →
      s.edge table i = some c ∧ OwnTree t (within s.edge d c) p d c := by
    intro i c hi hik hc
    rw [htable i hi hik] at hc
    have hk := hkeep i c hi hik hc
    exact ⟨hc, (h.child hi hc).congr (fun g hg => (hk g hg).1) fun g hg => (hk g hg).2.1⟩
  have hcross : ∀ i c m, i < n → i ≠ k → t.edge table i = some c → t.edge table k = some m →
      Disjoint (within t.edge d c) (within t.edge d m) := by
    intro i c m hi hik hc hm
    obtain ⟨hc', hown⟩ := hold i c hi hik hc
    rw [Set.disjoint_left]
    intro g hg hg'
    exact (hkeep i c hi hik hc' g (hown.inside hg)).2.2.2 ((hnew m hm).inside hg')
  refine ⟨fun i c hi hc => ?_, fun i j c c' hi hj hij hc hc' => ?_⟩
  · by_cases hik : i = k
    · subst hik
      refine (hnew c hc).mono fun g hg => ⟨hED hg, ?_⟩
      rintro rfl
      exact hE hg
    · obtain ⟨hc', hown⟩ := hold i c hi hik hc
      refine hown.mono fun g hg => ⟨(hkeep i c hi hik hc' g hg).2.2.1, ?_⟩
      exact ((h.trees i c hi hc').inside hg).2
  · by_cases hik : i = k
    · subst hik
      exact (hcross j c' c hj (Ne.symm hij) hc' hc).symm
    · by_cases hjk : j = k
      · subst hjk
        exact hcross i c c' hi hik hc hc'
      · obtain ⟨hs, hown⟩ := hold i c hi hik hc
        obtain ⟨hs', hown'⟩ := hold j c' hj hjk hc'
        exact Set.disjoint_of_subset hown.inside hown'.inside (h.apart i j c c' hi hj hij hs hs')

end Kernel
