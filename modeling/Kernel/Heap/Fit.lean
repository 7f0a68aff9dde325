import Kernel.Heap.Runs

/-!
# What `malloc` finds

A request fails only when no available block has room for it. Requests of the last
seven sizes below `2 ^ 64` are rounded down to nothing.
-/

namespace Kernel

open Lib Heap

section

variable {h : Heap} {s : HeapState} {L L' : List Block} {A A' : List Nat} {b : Block}

/-! ## The blocks that the array shows -/

theorem Heap.Marked.eq {b c : Block} (hb : h.Marked b) (hc : h.Marked c) (heb : b.size % 2 = 0) (hec : c.size % 2 = 0)
    (hs : b.start = c.start) : b = c := by
  have hsize : b.size = c.size := by rw [← hb.size heb, ← hc.size hec, hs]
  have htaken : b.taken = c.taken := by
    have h₁ := hb.isTaken heb
    have h₂ := hc.isTaken hec
    rw [hs] at h₁
    exact Bool.eq_iff_iff.mpr (h₁.symm.trans h₂)
  cases b
  cases c
  simp_all

theorem Heap.Marked.size_eq {b c : Block} (hb : h.Marked b) (hc : h.Marked c) (heb : b.size % 2 = 0)
    (hec : c.size % 2 = 0) (hs : b.stop = c.stop) : b.size = c.size := by
  rw [← hb.size_footer heb, ← hc.size_footer hec, hs]

theorem HeapTiled.size_pos (ht : HeapTiled h L A) (hb : b ∈ L) : 2 ≤ b.size := by
  have hfirst : (⟨0, 2, true⟩ : Block) ∈ L := List.mem_of_mem_head? ht.first
  have hlast : (⟨h.len - 2, 2, true⟩ : Block) ∈ L := List.mem_of_mem_getLast? ht.last
  have hlen := (ht.tiles.mem hfirst).2
  simp only [Block.stop] at hlen
  by_cases hs : b.start = 0
  · rw [(ht.marked b hb).eq (ht.marked _ hfirst) (ht.even b hb) rfl hs]
  by_cases he : b.stop = h.len
  · have hstop : b.stop = (⟨h.len - 2, 2, true⟩ : Block).stop := by
      simp only [Block.stop] at he ⊢
      omega
    rw [(ht.marked b hb).size_eq (ht.marked _ hlast) (ht.even b hb) (ht.even _ hlast) hstop]
  · have := ht.large b hb hs he
    omega

theorem tiles_unique {i j : Nat} (hL : Tiles i j L) (hL' : Tiles i j L') (hm : ∀ b ∈ L, h.Marked b)
    (hm' : ∀ b ∈ L', h.Marked b) (hok : ∀ b ∈ L, b.size % 2 = 0 ∧ 2 ≤ b.size)
    (hok' : ∀ b ∈ L', b.size % 2 = 0 ∧ 2 ≤ b.size) : L = L' := by
  induction L generalizing i L' with
  | nil =>
    cases L' with
    | nil => rfl
    | cons c l' =>
      have := (hok' c (by simp)).2
      have hle := (hL'.mem (b := c) (by simp)).2
      have hstart := hL'.1
      simp only [Block.stop, Tiles] at *
      omega
  | cons b l ih =>
    have hb := hok b (by simp)
    cases L' with
    | nil =>
      have hle := (hL.mem (b := b) (by simp)).2
      have hstart := hL.1
      simp only [Block.stop, Tiles] at *
      omega
    | cons c l' =>
      have heq : b = c := (hm b (by simp)).eq (hm' c (by simp)) hb.1 (hok' c (by simp)).1 (hL.1.trans hL'.1.symm)
      subst heq
      rw [ih hL.2 hL'.2 (fun x hx => hm x (by simp [hx])) (fun x hx => hm' x (by simp [hx]))
        (fun x hx => hok x (by simp [hx])) fun x hx => hok' x (by simp [hx])]

theorem HeapTiled.unique (ht : HeapTiled h L A) (ht' : HeapTiled h L' A') : L = L' :=
  tiles_unique ht.tiles ht'.tiles ht.marked ht'.marked (fun _ hb => ⟨ht.even _ hb, ht.size_pos hb⟩)
    fun _ hb => ⟨ht'.even _ hb, ht'.size_pos hb⟩

/-! ## Requests -/

theorem entriesFor_eq {bytes : Nat} (hwrap : bytes + 7 < 2 ^ 64) :
    entriesFor bytes = (max 4 ((bytes + 7) / 8 + 2) + 1) / 2 * 2 := by
  have h1 : add64 bytes 7 = bytes + 7 := Nat.mod_eq_of_lt hwrap
  have h2 : add64 ((bytes + 7) / 8) 2 = (bytes + 7) / 8 + 2 := Nat.mod_eq_of_lt (by omega)
  have h3 : add64 ((bytes + 7) / 8 + 2) 1 = (bytes + 7) / 8 + 2 + 1 := Nat.mod_eq_of_lt (by omega)
  simp only [entriesFor, h1, h2]
  by_cases h4 : (bytes + 7) / 8 + 2 < 4
  · rw [if_pos h4, if_neg (by decide), max_eq_left (by omega)]
  · rw [if_neg h4, h3, max_eq_right (by omega)]
    split_ifs <;> omega

/-- A request whose rounding wraps is taken for one of no words. -/
theorem entriesFor_wrapped {bytes : Nat} (h64 : bytes < 2 ^ 64) (hwrap : ¬ bytes + 7 < 2 ^ 64) :
    entriesFor bytes = 4 := by
  have h1 : add64 bytes 7 / 8 = 0 := by
    simp only [add64]
    omega
  simp only [entriesFor, h1]
  decide

/-- **Best fit is complete.** A request fails only when no available block is large enough, and changes nothing
then. Otherwise one available block is served, whole or with the rest of it available, and the others stay. -/
theorem malloc_complete (hs : heapSystem.Reachable s) {bytes : Nat} (hne : bytes ≠ 0) (hwrap : bytes + 7 < 2 ^ 64)
    (ht : HeapTiled s.heap L A) :
    entriesFor bytes = (max 4 ((bytes + 7) / 8 + 2) + 1) / 2 * 2 ∧
    ∃ p t, (malloc bytes).run s.heap = some (p, t) ∧
      (p = 0 ↔ ∀ b ∈ L, b.taken = false → b.size < entriesFor bytes) ∧
      (p = 0 → t = s.heap) ∧
      (p ≠ 0 → ∃ l b r A', L = l ++ b :: r ∧ b.taken = false ∧ entriesFor bytes ≤ b.size ∧ p = s.heap.pointer b ∧
        HeapTiled t (l ++ b.served (entriesFor bytes) ++ r) A') := by
  refine ⟨entriesFor_eq hwrap, ?_⟩
  obtain ⟨L₀, A₀, hi⟩ := heapInv_of_reachable hs
  obtain rfl := ht.unique hi.wf.tiled
  rcases malloc_returns hi.wf hi.fits hne with ⟨t, c, l, b, r, A', hrun, hL, hbt, hfit, hcb, ha⟩ | ⟨hrun, hnone⟩
  · have hp : s.heap.base + 8 * (c.start + 1) ≠ 0 := by omega
    have hb : b ∈ L := by simp [hL]
    refine ⟨_, t, hrun, ?_, fun h0 => absurd h0 hp, fun _ => ⟨l, b, r, A', hL, hbt, hfit, ?_, ha.wf.tiled⟩⟩
    · constructor
      · exact fun h0 => absurd h0 hp
      · intro hall
        have := hall b hb hbt
        omega
    · rw [hcb, Heap.pointer]
  · exact ⟨0, s.heap, hrun, ⟨fun _ => hnone, fun _ => rfl⟩, fun _ => rfl, fun h0 => absurd rfl h0⟩

theorem smallHeap_complete : ∃ (s : HeapState) (L : List Block) (A : List Nat), heapSystem.Reachable s ∧
    HeapTiled s.heap L A ∧ ∃ p t, (malloc 8).run s.heap = some (p, t) ∧
      (p = 0 ↔ ∀ b ∈ L, b.taken = false → b.size < 4) := by
  obtain ⟨s, hs, -⟩ := smallHeap_reachable
  obtain ⟨⟨L, A, ht, -⟩, -⟩ := heap_tiled hs
  obtain ⟨-, p, t, hrun, hnull, -⟩ := malloc_complete hs (show 8 ≠ 0 by decide) (by decide) ht
  exact ⟨s, L, A, hs, ht, p, t, hrun, hnull⟩

/-! ## Room for the request -/

/-- The block of `p` has `bytes` bytes between its header and its footer. -/
def Heap.RoomFor (h : Heap) (p bytes : Nat) : Prop := bytes ≤ 8 * (h.size (h.headerOf p) - 2)

theorem Allocated.roomFor {entries : Nat} {c : Block} {t : Heap} (ha : Allocated h L entries c t L' A') (bytes : Nat) :
    t.RoomFor (h.base + 8 * (c.start + 1)) bytes ↔ bytes ≤ 8 * (c.size - 2) := by
  have hc : c ∈ L' := (ha.taken c ha.inner.1).mpr (Or.inr rfl)
  have hheader : t.headerOf (h.base + 8 * (c.start + 1)) = c.start := by
    rw [Heap.headerOf, Heap.fixed_base ha.fixed]
    omega
  rw [Heap.RoomFor, hheader, (ha.wf.blocks.marked c hc).size (ha.wf.blocks.ok c hc).even]

/-- **Room.** What `malloc` returns has room for the request exactly when the rounding does not wrap, or there is
no available block at all. -/
theorem malloc_room_iff (hs : heapSystem.Reachable s) {bytes : Nat} (hne : bytes ≠ 0) (h64 : bytes < 2 ^ 64) :
    (∀ p t, (malloc bytes).run s.heap = some (p, t) → p ≠ 0 → t.RoomFor p bytes) ↔
      bytes + 7 < 2 ^ 64 ∨ s.heap.avail = 0 := by
  obtain ⟨L, A, hi⟩ := heapInv_of_reachable hs
  rcases malloc_returns hi.wf hi.fits hne with ⟨t, c, l, b, r, A', hrun, hL, hbt, hfit, hcb, ha⟩ | ⟨hrun, hnone⟩
  · have hp : s.heap.base + 8 * (c.start + 1) ≠ 0 := by omega
    have hb : b ∈ L := by simp [hL]
    have havail : s.heap.avail ≠ 0 :=
      hi.wf.blocks.listed.head_ne ((hi.wf.blocks.avail b.start).mpr ⟨b, hb, hbt, rfl⟩)
    have hroom := ha.roomFor bytes
    obtain ⟨-, -, -, hspec⟩ := entriesFor_spec bytes
    have hentries := ha.room
    have hc := ha.wf.blocks.inside c ((ha.taken c ha.inner.1).mpr (Or.inr rfl))
    have hsmall := ha.wf.blocks.small.2
    simp only [Block.stop] at hc
    constructor
    · intro hall
      have := hroom.mp (hall _ t hrun hp)
      left
      by_contra hwrap
      omega
    · rintro (hwrap | h0)
      · intro p u hrun' _
        rw [hrun, Option.some.injEq, Prod.mk.injEq] at hrun'
        obtain ⟨rfl, rfl⟩ := hrun'
        have := hspec hwrap
        exact hroom.mpr (by omega)
      · exact absurd h0 havail
  · constructor
    · intro _
      by_contra hcon
      rw [not_or] at hcon
      obtain ⟨b, hb, hbt, -, h4, -⟩ := hi.wf.blocks.node (hi.wf.blocks.listed.head_mem hcon.2)
      have := hnone b hb hbt
      rw [entriesFor_wrapped h64 hcon.1] at this
      omega
    · rintro - p u hrun' hp
      rw [hrun, Option.some.injEq, Prod.mk.injEq] at hrun'
      exact absurd hrun'.1.symm hp

theorem smallHeap_room : ∃ s : HeapState, heapSystem.Reachable s ∧
    ((∀ p t, (malloc 8).run s.heap = some (p, t) → p ≠ 0 → t.RoomFor p 8) ↔ 8 + 7 < 2 ^ 64 ∨ s.heap.avail = 0) := by
  obtain ⟨s, hs, -⟩ := smallHeap_reachable
  exact ⟨s, hs, malloc_room_iff hs (by decide) (by decide)⟩

/-- `new T[n]` asks for this many bytes when `n * sizeof(T)` does not fit. -/
def allOnes : Nat := 2 ^ 64 - 1

theorem allOnes_no_room : ¬ ∀ s : HeapState, heapSystem.Reachable s → ∀ bytes, bytes ≠ 0 → bytes < 2 ^ 64 →
    ∀ p t, (malloc bytes).run s.heap = some (p, t) → p ≠ 0 → t.RoomFor p bytes := by
  intro hall
  have hlen : ((init 8 128).run ⟨0, fun _ => 0, 0, 0, 0, 0⟩).map (fun r => (r.2.base, r.2.len)) = some (8, 16) := by
    decide
  have hboth : ((do init 8 128; malloc allOnes : H Nat).run ⟨0, fun _ => 0, 0, 0, 0, 0⟩).map
      (fun r => (r.1, r.2.size (r.2.headerOf r.1))) = some (32, 4) := by decide
  obtain ⟨⟨p, h⟩, hrun, hp⟩ := Option.map_eq_some_iff.mp hboth
  obtain ⟨u, h₁, hinit, hmalloc⟩ := Prog.run_bind.mp hrun
  rw [hinit, Option.map_some, Option.some.injEq, Prod.mk.injEq] at hlen
  obtain ⟨hp, hsize⟩ := Prod.mk.inj hp
  dsimp only at hp hsize
  have hreach : heapSystem.Reachable ⟨h₁, []⟩ := by
    refine ⟨⟨h₁, []⟩, [], ⟨⟨8, 128, _, by decide, by decide, rfl, hinit, ?_⟩, rfl⟩, System.Run.nil _⟩
    rw [hlen.2]
    decide
  have hroom := hall _ hreach allOnes (by decide) (by decide) p h hmalloc (by rw [hp]; decide)
  rw [Heap.RoomFor, hsize] at hroom
  exact absurd hroom (by decide)

end

end Kernel
