import Kernel.File.Stores

/-!
# Directories (`Node::entries`, `Node::find`, `Node::entry_count`)

A directory is the list of its records. What `find` and `entry_count` make of
it is compared with its live records, those whose inode is not 0.
-/

namespace Kernel

open Lib

def Node.entry_count (node : Node) (turns : Nat) : Option Nat := do
  let entries ← node.entries turns
  pure (entries.foldl (fun count _ => add32 count 1) 0)

structure DirRecord where
  inode : Nat
  rec_len : Nat
  name : List Byte

/-- The bytes of the record are at `offset`. -/
structure DirRecord.At (content : Nat → Byte) (offset : Nat) (r : DirRecord) : Prop where
  inode : little (bytesOf content offset 4) = r.inode
  rec_len : little (bytesOf content (offset + 4) 2) = r.rec_len
  name_length : little (bytesOf content (offset + 6) 1) = r.name.length
  name : bytesOf content (offset + 8) r.name.length = r.name
  fits : 8 + r.name.length ≤ r.rec_len

/-- The records tile the directory from `offset` on, and none crosses the end of a block. -/
def Records (content : Nat → Byte) (block_size size : Nat) : Nat → List DirRecord → Prop
  | offset, [] => offset = size
  | offset, r :: l => r.At content offset ∧ offset % block_size + r.rec_len ≤ block_size ∧
    Records content block_size size (offset + r.rec_len) l

def DirRecord.Live (r : DirRecord) : Prop := r.inode ≠ 0

def DirRecord.Called (r : DirRecord) (name : List Byte) : Prop := cstring name = cstring r.name

instance (r : DirRecord) (name : List Byte) : Decidable (r.Called name) :=
  inferInstanceAs (Decidable (cstring name = cstring r.name))

instance (r : DirRecord) : Decidable r.Live := inferInstanceAs (Decidable (r.inode ≠ 0))

/-- A directory, its records, and one live record at most for each name. -/
structure Node.Directory (node : Node) (content : Nat → Byte) (l : List DirRecord) : Prop extends
    node.Stores content where
  is_dir : node.data.is_dir = true
  records : Records content node.block_size node.data.size_low 0 l
  names : l.Pairwise fun r s => r.Live → s.Live → cstring r.name ≠ cstring s.name

/-- `v` is the inode of the live record with the name, or 0. -/
def Lookup (l : List DirRecord) (name : List Byte) (v : Nat) : Prop :=
  (∃ r ∈ l, r.Live ∧ r.Called name ∧ v = r.inode) ∨ (∀ r ∈ l, r.Live → ¬ r.Called name) ∧ v = 0

/-- No unused record with the name comes after the live one. -/
def NoneStale (l : List DirRecord) (name : List Byte) : Prop :=
  ∀ l₁ r l₂, l = l₁ ++ r :: l₂ → r.Live → r.Called name → ∀ s ∈ l₂, ¬ s.Live → ¬ s.Called name

section

variable {node : Node} {content : Nat → Byte} {l : List DirRecord} {r : DirRecord} {offset turns : Nat}
  {name : List Byte}

/-! ## The scan -/

theorem Records.le {block_size size : Nat} (h : Records content block_size size offset l) :
    offset + 8 * l.length ≤ size := by
  induction l generalizing offset with
  | nil => exact Nat.le_of_eq h
  | cons r l ih =>
    obtain ⟨hat, -, hrest⟩ := h
    have hle := ih hrest
    have hfits := hat.fits
    rw [List.length_cons]
    omega

theorem Node.Stores.entry_run (h : node.Stores content) (hat : r.At content offset)
    (hin : offset % node.block_size + r.rec_len ≤ node.block_size)
    (hend : offset + r.rec_len ≤ node.data.size_low) (hr : offset < node.reach) :
    node.entry offset = some ((r.inode, r.name), offset + r.rec_len) := by
  have hfits := hat.fits
  have hsize := h.size_lt
  have hpos := h.toValid.block_size_pos
  -- The parts of the record are in its block.
  have hpart : ∀ k n, k + n ≤ r.rec_len → k < r.rec_len →
      node.io.readThing (offset + k) n = some (bytesOf content (offset + k) n) := by
    intro k n hk hlt
    have hmod : (offset + k) % node.block_size = offset % node.block_size + k := by
      rw [Nat.add_mod, Nat.mod_eq_of_lt (by omega : k < node.block_size), Nat.mod_eq_of_lt (by omega)]
    have hreach : offset + k < node.reach := by
      have hi : offset / node.block_size < 12 + node.block_size / 4 := (Nat.div_lt_iff_lt_mul hpos).mpr hr
      have hdm := Nat.div_add_mod' offset node.block_size
      have hmul : (offset / node.block_size + 1) * node.block_size ≤ node.reach := Nat.mul_le_mul_right _ hi
      rw [Nat.succ_mul] at hmul
      omega
    exact h.readThing_run (by omega) (by omega) (by omega) hreach
  have hname : node.io.readThing (offset + 8) r.name.length = some (bytesOf content (offset + 8) r.name.length) := by
    rcases Nat.eq_zero_or_pos r.name.length with hzero | hlen
    · rw [hzero]
      rfl
    · exact hpart 8 _ hfits (by omega)
  unfold Node.entry
  rw [add32_eq (by omega), add32_eq (by omega), add32_eq (by omega), hpart 4 2 (by omega) (by omega),
    hpart 6 1 (by omega) (by omega)]
  have hhead := hpart 0 4 (by omega) (by omega)
  rw [Nat.add_zero] at hhead
  simp only [hhead, Option.bind_eq_bind, Option.bind_some, Option.pure_def, hat.name_length, hname, hat.inode,
    hat.rec_len, hat.name]
  rw [add32_eq (by omega)]

theorem Node.Stores.entries_loop_run (h : node.Stores content)
    (hl : Records content node.block_size node.data.size_low offset l) (hsize : node.data.size_low ≤ node.reach)
    (ht : l.length < turns) : node.entries_loop turns offset = some (l.map fun r => (r.inode, r.name)) := by
  induction l generalizing offset turns with
  | nil =>
    cases turns with
    | zero => omega
    | succ turns =>
      have hend : offset = node.data.size_low := hl
      unfold Node.entries_loop
      rw [if_neg (by omega)]
      rfl
  | cons r l ih =>
    cases turns with
    | zero => omega
    | succ turns =>
      have hlen : (r :: l).length = l.length + 1 := List.length_cons
      have hle := Records.le hl
      obtain ⟨hat, hin, hrest⟩ := hl
      have hle' := Records.le hrest
      unfold Node.entries_loop
      rw [if_pos (by omega), h.entry_run hat hin (by omega) (by omega)]
      simp only [Option.bind_eq_bind, Option.bind_some, ih hrest (by omega : l.length < turns), Option.pure_def,
        List.map_cons]

theorem Node.Stores.entries_loop_reach (h : node.Stores content)
    (hl : Records content node.block_size node.data.size_low offset l) (ho : offset ≤ node.reach)
    {res : List (Nat × List Byte)} (hres : node.entries_loop turns offset = some res) :
    node.data.size_low ≤ node.reach := by
  induction l generalizing offset turns res with
  | nil =>
    have hend : offset = node.data.size_low := hl
    omega
  | cons r l ih =>
    obtain ⟨hat, hin, hrest⟩ := hl
    have hle := Records.le hrest
    have hfits := hat.fits
    cases turns with
    | zero => cases hres
    | succ turns =>
      unfold Node.entries_loop at hres
      rw [if_pos (by omega)] at hres
      simp only [Option.bind_eq_bind, Option.bind_eq_some_iff] at hres
      obtain ⟨⟨e, next⟩, hentry, rest, hrest', -⟩ := hres
      have hpos := h.toValid.block_size_pos
      rcases Nat.lt_or_ge offset node.reach with hlt | hge
      · have hi : offset / node.block_size < 12 + node.block_size / 4 := (Nat.div_lt_iff_lt_mul hpos).mpr hlt
        have hdm := Nat.div_add_mod' offset node.block_size
        have hmul : (offset / node.block_size + 1) * node.block_size ≤ node.reach := Nat.mul_le_mul_right _ hi
        rw [Nat.succ_mul] at hmul
        rw [h.entry_run hat hin (by omega) hlt] at hentry
        obtain rfl : offset + r.rec_len = next := congrArg Prod.snd (Option.some.inj hentry)
        exact ih hrest (by omega) hrest'
      · -- The record is behind a double-indirect pointer.
        have hfar : 12 + node.block_size / 4 ≤ offset / node.block_size := (Nat.le_div_iff_mul_le hpos).mpr hge
        have hnone := readThing_none (d := node.io) (n := 4) (read_block_far hfar) (by omega) (by
          show offset < node.data.size_low
          omega)
        unfold Node.entry at hentry
        rw [hnone] at hentry
        cases hentry

theorem Node.entries_loop_mono {res : List (Nat × List Byte)} (more : Nat)
    (h : node.entries_loop turns offset = some res) : node.entries_loop (turns + more) offset = some res := by
  induction turns generalizing offset res with
  | zero => cases h
  | succ turns ih =>
    rw [Nat.succ_add]
    unfold Node.entries_loop at h ⊢
    by_cases hlt : offset < node.data.size_low
    · rw [if_pos hlt] at h ⊢
      simp only [Option.bind_eq_bind, Option.bind_eq_some_iff, Option.pure_def, Option.some.injEq] at h ⊢
      obtain ⟨e, hentry, rest, hrest, rfl⟩ := h
      exact ⟨e, hentry, rest, ih hrest, rfl⟩
    · rwa [if_neg hlt] at h ⊢

theorem Node.Directory.entries_run (h : node.Directory content l) (hsize : node.data.size_low ≤ node.reach)
    (ht : l.length < turns) : node.entries turns = some (l.map fun r => (r.inode, r.name)) := by
  unfold Node.entries
  rw [h.toStores.entries_loop_run h.records hsize ht]
  simp [guard, h.is_dir]

theorem Node.Directory.entries_reach (h : node.Directory content l) {res : List (Nat × List Byte)}
    (hres : node.entries turns = some res) : node.data.size_low ≤ node.reach ∧
      res = l.map fun r => (r.inode, r.name) := by
  unfold Node.entries at hres
  simp only [guard, if_pos h.is_dir, Option.bind_eq_bind, Option.pure_def, Option.bind_some] at hres
  have hsize := h.toStores.entries_loop_reach h.records (Nat.zero_le _) hres
  have hmore := Node.entries_loop_mono (l.length + 1) hres
  rw [h.toStores.entries_loop_run h.records hsize (by omega)] at hmore
  exact ⟨hsize, (Option.some.inj hmore).symm⟩

/-! ## `find` -/

/-- What `find` does with one record after another. -/
def lastCalled (name : List Byte) (out : Nat) (l : List DirRecord) : Nat :=
  l.foldl (fun out r => if r.Called name then r.inode else out) out

theorem lastCalled_none {out : Nat} (h : ∀ r ∈ l, ¬ r.Called name) : lastCalled name out l = out := by
  induction l generalizing out with
  | nil => rfl
  | cons r l ih =>
    unfold lastCalled
    rw [List.foldl_cons, if_neg (h r List.mem_cons_self)]
    exact ih fun s hs => h s (List.mem_cons_of_mem _ hs)

theorem lastCalled_unused {out : Nat} (h : ∀ r ∈ l, r.Called name → ¬ r.Live)
    (hsome : out = 0 ∨ ∃ r ∈ l, r.Called name) : lastCalled name out l = 0 := by
  induction l generalizing out with
  | nil => exact hsome.resolve_right fun ⟨r, hr, _⟩ => nomatch hr
  | cons r l ih =>
    have hrest : ∀ s ∈ l, s.Called name → ¬ s.Live := fun s hs => h s (List.mem_cons_of_mem _ hs)
    unfold lastCalled
    rw [List.foldl_cons]
    by_cases hr : r.Called name
    · rw [if_pos hr]
      exact ih hrest (Or.inl (not_not.mp (h r List.mem_cons_self hr)))
    · rw [if_neg hr]
      refine ih hrest (hsome.imp_right ?_)
      rintro ⟨s, hs, hcalled⟩
      rcases List.mem_cons.mp hs with rfl | hs
      · exact absurd hcalled hr
      · exact ⟨s, hs, hcalled⟩

theorem lastCalled_live {l₁ l₂ : List DirRecord}
    (hnames : (l₁ ++ r :: l₂).Pairwise fun r s => r.Live → s.Live → cstring r.name ≠ cstring s.name)
    (hlive : r.Live) (hcalled : r.Called name) :
    lastCalled name 0 (l₁ ++ r :: l₂) = lastCalled name r.inode l₂ ∧ ∀ s ∈ l₂, s.Called name → ¬ s.Live := by
  obtain ⟨-, htail, -⟩ := List.pairwise_append.mp hnames
  obtain ⟨hafter, -⟩ := List.pairwise_cons.mp htail
  refine ⟨?_, fun s hs hc hs_live => hafter s hs hlive hs_live (hcalled.symm.trans hc)⟩
  unfold lastCalled
  rw [List.foldl_append, List.foldl_cons, if_pos hcalled]

theorem lookup_lastCalled (hnames : l.Pairwise fun r s => r.Live → s.Live → cstring r.name ≠ cstring s.name) :
    Lookup l name (lastCalled name 0 l) ↔ NoneStale l name := by
  constructor
  · rintro hlook l₁ r l₂ rfl hlive hcalled s hs hs_live hs_called
    obtain ⟨hfold, honly⟩ := lastCalled_live hnames hlive hcalled
    rw [hfold, lastCalled_unused honly (Or.inr ⟨s, hs, hs_called⟩)] at hlook
    rcases hlook with ⟨t, -, ht, -, hzero⟩ | ⟨hnone, -⟩
    · exact ht hzero.symm
    · exact hnone r (List.mem_append_right _ List.mem_cons_self) hlive hcalled
  · intro hstale
    by_cases hex : ∃ r ∈ l, r.Live ∧ r.Called name
    · obtain ⟨r, hr, hlive, hcalled⟩ := hex
      obtain ⟨l₁, l₂, rfl⟩ := List.append_of_mem hr
      obtain ⟨hfold, honly⟩ := lastCalled_live hnames hlive hcalled
      have hnone : ∀ s ∈ l₂, ¬ s.Called name := fun s hs hc =>
        hstale l₁ r l₂ rfl hlive hcalled s hs (honly s hs hc) hc
      rw [hfold, lastCalled_none hnone]
      exact Or.inl ⟨r, hr, hlive, hcalled, rfl⟩
    · have hnone : ∀ r ∈ l, r.Live → ¬ r.Called name := fun r hr hl hc => hex ⟨r, hr, hl, hc⟩
      rw [lastCalled_unused (fun r hr hc hl => hnone r hr hl hc) (Or.inl rfl)]
      exact Or.inr ⟨hnone, rfl⟩

/-! ## `entry_count` -/

theorem foldl_count {α : Type} (l : List α) (n : Nat) (h : n + l.length < 2 ^ 32) :
    l.foldl (fun count _ => add32 count 1) n = n + l.length := by
  induction l generalizing n with
  | nil => rfl
  | cons a l ih =>
    rw [List.length_cons] at h ⊢
    rw [List.foldl_cons, add32_eq (by omega), ih _ (by omega)]
    omega

end

/-- `find` returns the inode of the live record, or 0. -/
def Node.FindsLive (node : Node) (l : List DirRecord) (name : List Byte) : Prop :=
  ∃ turns v, node.find turns name = some v ∧ Lookup l name v

/-- `entry_count` returns the number of live records. -/
def Node.CountsLive (node : Node) (l : List DirRecord) : Prop :=
  ∃ turns, node.entry_count turns = some (l.filter fun r => r.Live).length

variable {node : Node} {content : Nat → Byte} {l : List DirRecord}

theorem directory_lookup_iff (h : node.Directory content l) (name : List Byte) :
    (node.FindsLive l name ↔ node.data.size_low ≤ node.reach ∧ NoneStale l name) ∧
    (node.CountsLive l ↔ node.data.size_low ≤ node.reach ∧ ∀ r ∈ l, r.Live) := by
  have hfold : (l.map fun r => (r.inode, r.name)).foldl
      (fun out e => if cstring name = cstring e.2 then e.1 else out) 0 = lastCalled name 0 l := List.foldl_map
  have hlen : (l.map fun r => (r.inode, r.name)).foldl (fun count _ => add32 count 1) 0 = l.length := by
    have hle := Records.le h.records
    have hsize := h.size_lt
    rw [foldl_count _ _ (by rw [List.length_map]; omega), List.length_map, Nat.zero_add]
  constructor
  · constructor
    · rintro ⟨turns, v, hfind, hlook⟩
      unfold Node.find at hfind
      simp only [Option.bind_eq_bind, Option.bind_eq_some_iff, Option.pure_def, Option.some.injEq] at hfind
      obtain ⟨res, hres, rfl⟩ := hfind
      obtain ⟨hsize, rfl⟩ := h.entries_reach hres
      rw [hfold] at hlook
      exact ⟨hsize, (lookup_lastCalled h.names).mp hlook⟩
    · rintro ⟨hsize, hstale⟩
      refine ⟨l.length + 1, lastCalled name 0 l, ?_, (lookup_lastCalled h.names).mpr hstale⟩
      unfold Node.find
      rw [h.entries_run hsize (Nat.lt_succ_self _)]
      simp only [Option.bind_eq_bind, Option.bind_some, hfold, Option.pure_def]
  · constructor
    · rintro ⟨turns, hcount⟩
      unfold Node.entry_count at hcount
      simp only [Option.bind_eq_bind, Option.bind_eq_some_iff, Option.pure_def, Option.some.injEq] at hcount
      obtain ⟨res, hres, hcount⟩ := hcount
      obtain ⟨hsize, rfl⟩ := h.entries_reach hres
      rw [hlen] at hcount
      have hall := List.length_filter_eq_length_iff.mp hcount.symm
      exact ⟨hsize, fun r hr => of_decide_eq_true (hall r hr)⟩
    · rintro ⟨hsize, hall⟩
      refine ⟨l.length + 1, ?_⟩
      have hcount := List.length_filter_eq_length_iff.mpr fun r hr => decide_eq_true (hall r hr)
      unfold Node.entry_count
      rw [h.entries_run hsize (Nat.lt_succ_self _), hcount]
      simp only [Option.bind_eq_bind, Option.bind_some, hlen, Option.pure_def]

/-! ## A name that was deleted once -/

/-- A live record and an unused one, both with the name `a`. -/
def staleBlock : List Byte :=
  [11, 0, 0, 0, 12, 0, 1, 2, 97, 0, 0, 0] ++ [0, 0, 0, 0, 244, 3, 1, 0, 97] ++ List.replicate 1003 0

def staleDir : Node := blockDir staleBlock

def staleRecords : List DirRecord := [⟨11, 12, [97]⟩, ⟨0, 1012, [97]⟩]

theorem staleBlock_length : staleBlock.length = 1024 := by
  unfold staleBlock
  rw [List.length_append, List.length_append, List.length_replicate]
  rfl

theorem staleDir_directory : staleDir.Directory (fun j => staleBlock.getD j 0) staleRecords := by
  refine ⟨blockDir_stores staleBlock_length, rfl, ?_, ?_⟩
  · exact ⟨⟨by decide, by decide, by decide, by decide, by decide⟩, by decide,
      ⟨by decide, by decide, by decide, by decide, by decide⟩, by decide, rfl⟩
  · refine List.pairwise_cons.mpr ⟨fun s hs _ hlive => ?_, List.pairwise_singleton _ _⟩
    rw [List.mem_singleton.mp hs] at hlive
    exact absurd rfl hlive

theorem staleDir_not_found : ¬ ∀ (node : Node) (content : Nat → Byte) (l : List DirRecord) (name : List Byte),
    node.Directory content l → node.FindsLive l name ∧ node.CountsLive l := by
  intro h
  obtain ⟨turns, v, hfind, hlook⟩ := (h staleDir _ staleRecords [97] staleDir_directory).1
  unfold Node.find at hfind
  simp only [Option.bind_eq_bind, Option.bind_eq_some_iff, Option.pure_def, Option.some.injEq] at hfind
  obtain ⟨res, hres, rfl⟩ := hfind
  obtain ⟨-, rfl⟩ := staleDir_directory.entries_reach hres
  rcases hlook with ⟨r, -, hlive, -, hzero⟩ | ⟨hnone, -⟩
  · exact hlive hzero.symm
  · exact hnone ⟨11, 12, [97]⟩ List.mem_cons_self (by decide) (by decide)

theorem staleDir_lookup : ¬ staleDir.FindsLive staleRecords [97] ∧ ¬ staleDir.CountsLive staleRecords := by
  constructor
  · intro hfind
    have hstale := ((directory_lookup_iff staleDir_directory [97]).1.mp hfind).2
    exact hstale [] ⟨11, 12, [97]⟩ [⟨0, 1012, [97]⟩] rfl (by decide) (by decide) _ List.mem_cons_self (by decide)
      (by decide)
  · intro hcount
    have hall := ((directory_lookup_iff staleDir_directory [97]).2.mp hcount).2
    exact absurd (hall ⟨0, 1012, [97]⟩ (List.mem_cons_of_mem _ List.mem_cons_self)) (by decide)

end Kernel
