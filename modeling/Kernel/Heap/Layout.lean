import Mathlib.Data.List.Chain
import Kernel.Heap.Code
import Kernel.Lib.Linked

/-!
# The blocks of the heap

What the array says when it is in order: a tiling of the words by blocks, and a
list through those that are available.
-/

namespace Kernel

open Lib

/-! ## Blocks -/

structure Block where
  start : Nat
  size : Nat
  taken : Bool
deriving DecidableEq, Repr

namespace Block

def stop (b : Block) : Nat := b.start + b.size

/-- The header and the footer of the block. -/
def word (b : Block) : Nat := if b.taken then b.size + 1 else b.size

/-- Blocks have even sizes. The two at the ends are taken and hold nothing, the others hold at least two words. -/
structure Ok (len : Nat) (b : Block) : Prop where
  even : b.size % 2 = 0
  sentinel : b.start = 0 ∨ b.stop = len → b.size = 2 ∧ b.taken = true
  inner : b.start ≠ 0 → b.stop ≠ len → 4 ≤ b.size

theorem Ok.size_pos {len : Nat} {b : Block} (h : b.Ok len) : 2 ≤ b.size := by
  by_cases hs : b.start = 0 ∨ b.stop = len
  · have := (h.sentinel hs).1
    omega
  · have := h.inner (fun e => hs (Or.inl e)) fun e => hs (Or.inr e)
    omega

theorem Ok.avail {len : Nat} {b : Block} (h : b.Ok len) (ht : b.taken = false) :
    4 ≤ b.size ∧ b.start ≠ 0 ∧ b.stop ≠ len := by
  have hs : ¬ (b.start = 0 ∨ b.stop = len) := fun hs => by
    have := (h.sentinel hs).2
    simp [ht] at this
  rw [not_or] at hs
  exact ⟨h.inner hs.1 hs.2, hs⟩

/-- One of two neighbours is taken. -/
def Loose (a b : Block) : Prop := a.taken = true ∨ b.taken = true

end Block

/-- The header and the footer say what the block is. -/
def Heap.Marked (h : Heap) (b : Block) : Prop :=
  h.array b.start = b.word ∧ h.array (b.stop - 1) = b.word

theorem Heap.Marked.congr {h t : Heap} {b : Block} (hb : h.Marked b) (hs : t.array b.start = h.array b.start)
    (he : t.array (b.stop - 1) = h.array (b.stop - 1)) : t.Marked b :=
  ⟨hs.trans hb.1, he.trans hb.2⟩

theorem Block.word_size {b : Block} (h : b.size % 2 = 0) : b.word / 2 * 2 = b.size := by
  rw [word]
  split_ifs <;> omega

theorem Block.word_taken {b : Block} (h : b.size % 2 = 0) : b.word % 2 = 1 ↔ b.taken = true := by
  rw [word]
  split_ifs with ht <;> simp [ht] <;> omega

section

variable {h : Heap} {b : Block}

theorem Heap.Marked.size (hb : h.Marked b) (he : b.size % 2 = 0) : h.size b.start = b.size := by
  rw [Heap.size, hb.1, Block.word_size he]

theorem Heap.Marked.size_footer (hb : h.Marked b) (he : b.size % 2 = 0) : h.size (b.stop - 1) = b.size := by
  rw [Heap.size, hb.2, Block.word_size he]

theorem Heap.Marked.isTaken (hb : h.Marked b) (he : b.size % 2 = 0) : h.isTaken b.start ↔ b.taken = true := by
  rw [Heap.isTaken, hb.1, Block.word_taken he]

theorem Heap.Marked.isAvail (hb : h.Marked b) (he : b.size % 2 = 0) : h.isAvail b.start ↔ b.taken = false := by
  rw [Heap.isAvail, hb.isTaken he, Bool.not_eq_true]

end

/-! ## Tilings -/

/-- The blocks cover the words from `i` to `j`, one after the other. -/
def Tiles : Nat → Nat → List Block → Prop
  | i, j, [] => i = j
  | i, j, b :: l => b.start = i ∧ Tiles b.stop j l

theorem tiles_append {i j : Nat} {l₁ l₂ : List Block} :
    Tiles i j (l₁ ++ l₂) ↔ ∃ k, Tiles i k l₁ ∧ Tiles k j l₂ := by
  induction l₁ generalizing i with
  | nil =>
    constructor
    · exact fun h => ⟨i, rfl, h⟩
    · rintro ⟨k, rfl, h⟩
      exact h
  | cons b l₁ ih =>
    rw [List.cons_append, Tiles, ih]
    constructor
    · rintro ⟨hb, k, h₁, h₂⟩
      exact ⟨k, ⟨hb, h₁⟩, h₂⟩
    · rintro ⟨k, ⟨hb, h₁⟩, h₂⟩
      exact ⟨hb, k, h₁, h₂⟩

theorem Tiles.le {i j : Nat} {l : List Block} (h : Tiles i j l) : i ≤ j := by
  induction l generalizing i with
  | nil => exact Nat.le_of_eq h
  | cons b l ih =>
    have := ih h.2
    have := h.1
    simp only [Block.stop] at *
    omega

theorem Tiles.mem {i j : Nat} {l : List Block} {b : Block} (h : Tiles i j l) (hb : b ∈ l) :
    i ≤ b.start ∧ b.stop ≤ j := by
  obtain ⟨l₁, l₂, rfl⟩ := List.append_of_mem hb
  obtain ⟨k, h₁, rfl, h₂⟩ := tiles_append.mp h
  exact ⟨h₁.le, h₂.le⟩

/-! ## A heap in order -/

def Heap.fixed (h : Heap) : Nat × Nat := (h.base, h.len)

theorem Heap.fixed_base {h t : Heap} (hf : t.fixed = h.fixed) : t.base = h.base := congrArg Prod.fst hf

theorem Heap.fixed_len {h t : Heap} (hf : t.fixed = h.fixed) : t.len = h.len := congrArg Prod.snd hf

/-- The nodes of `A` are linked from `avail`, through the two words after their headers. -/
def Heap.Listed (h : Heap) (A : List Nat) : Prop :=
  Linked (fun i => h.array (i + 1)) (fun i => h.array (i + 2)) 0 h.avail A

/-- The blocks of `B` are marked as what they are, and the list goes through the available ones. -/
structure Blocks (h : Heap) (B : List Block) (A : List Nat) : Prop where
  small : 8 ≤ h.len ∧ h.len < 2 ^ 31
  inside : ∀ b ∈ B, b.stop ≤ h.len
  apart : ∀ a ∈ B, ∀ b ∈ B, a = b ∨ a.stop ≤ b.start ∨ b.stop ≤ a.start
  ok : ∀ b ∈ B, b.Ok h.len
  marked : ∀ b ∈ B, h.Marked b
  listed : h.Listed A
  avail : ∀ i, i ∈ A ↔ ∃ b ∈ B, b.taken = false ∧ b.start = i

/-- The blocks `L` tile the array, and of two neighbours one is taken. -/
structure HeapWf (h : Heap) (L : List Block) (A : List Nat) : Prop where
  blocks : Blocks h L A
  tiles : Tiles 0 h.len L
  loose : L.IsChain Block.Loose

/-- A heap in order but for the words from `i` to `j`, between the blocks `l` and `r`. -/
structure Gap (h : Heap) (l : List Block) (i j : Nat) (r : List Block) (A : List Nat) : Prop where
  blocks : Blocks h (l ++ r) A
  below : Tiles 0 i l
  above : Tiles j h.len r
  room : 0 < i ∧ i + 4 ≤ j ∧ j < h.len ∧ (j - i) % 2 = 0
  loose_below : l.IsChain Block.Loose
  loose_above : r.IsChain Block.Loose

/-- The words of the taken blocks are the same in both heaps. -/
def Heap.Kept (h t : Heap) (l : List Block) : Prop :=
  ∀ b ∈ l, b.taken = true → ∀ w, b.start ≤ w → w < b.stop → t.array w = h.array w

theorem Heap.Kept.trans {h t u : Heap} {l l' : List Block} (ht : h.Kept t l) (hu : t.Kept u l')
    (hsub : ∀ b ∈ l, b.taken = true → b ∈ l') : h.Kept u l := fun b hb hbt w hs he =>
  (hu b (hsub b hb hbt) hbt w hs he).trans (ht b hb hbt w hs he)

theorem Heap.Kept.mono {h t : Heap} {l l' : List Block} (ht : h.Kept t l) (hsub : ∀ b ∈ l', b ∈ l) : h.Kept t l' :=
  fun b hb => ht b (hsub b hb)

section

variable {h t : Heap} {B B' : List Block} {A : List Nat}

theorem Blocks.node (hb : Blocks h B A) {k : Nat} (hk : k ∈ A) :
    ∃ b ∈ B, b.taken = false ∧ b.start = k ∧ 4 ≤ b.size ∧ b.stop ≤ h.len := by
  obtain ⟨b, hbB, ht, rfl⟩ := (hb.avail k).mp hk
  exact ⟨b, hbB, ht, rfl, ((hb.ok b hbB).avail ht).1, hb.inside b hbB⟩

theorem Blocks.off_links (hb : Blocks h B A) {b : Block} (hbB : b ∈ B) {w : Nat}
    (hw : w = b.start ∨ w = b.stop - 1 ∨ b.taken = true ∧ b.start ≤ w ∧ w < b.stop) {k : Nat} (hk : k ∈ A) :
    w ≠ k + 1 ∧ w ≠ k + 2 := by
  obtain ⟨c, hcB, hct, rfl, h4, -⟩ := hb.node hk
  have h2 := (hb.ok b hbB).size_pos
  have hcb : b = c → b.taken = false := fun e => e ▸ hct
  have := hb.apart b hbB c hcB
  simp only [Block.stop] at *
  rcases this with rfl | hlt | hlt
  · simp only [hct] at hw
    simp at hw
    omega
  · omega
  · omega

theorem Gap.outside {l r : List Block} {i j : Nat} (hg : Gap h l i j r A) {b : Block} (hb : b ∈ l ++ r) :
    b.stop ≤ i ∨ j ≤ b.start := by
  rcases List.mem_append.mp hb with hb | hb
  · exact Or.inl (hg.below.mem hb).2
  · exact Or.inr (hg.above.mem hb).1

end

end Kernel
