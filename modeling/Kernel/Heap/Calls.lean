import Mathlib.Data.List.Perm.Subperm
import Kernel.Heap.Moves

/-!
# `malloc` and `free` keep the heap in order

`malloc` turns one available block into a taken one and perhaps a smaller
available one. `free` turns a taken block and its available neighbours into one.
-/

namespace Kernel

open Lib Heap

/-! ## The search of `malloc` -/

theorem entriesFor_spec (bytes : Nat) : entriesFor bytes % 2 = 0 ∧ 4 ≤ entriesFor bytes ∧ entriesFor bytes < 2 ^ 62 ∧
    (bytes + 7 < 2 ^ 64 → bytes ≤ 8 * (entriesFor bytes - 2)) := by
  have h1 : add64 bytes 7 / 8 < 2 ^ 61 := by
    simp only [add64]
    omega
  have h2 : bytes + 7 < 2 ^ 64 → add64 bytes 7 = bytes + 7 := fun h => Nat.mod_eq_of_lt h
  have h3 : add64 (add64 bytes 7 / 8) 2 = add64 bytes 7 / 8 + 2 := Nat.mod_eq_of_lt (by omega)
  simp only [entriesFor, h3]
  generalize add64 bytes 7 = b at *
  have h4 : add64 (b / 8 + 2) 1 = b / 8 + 2 + 1 := Nat.mod_eq_of_lt (by omega)
  by_cases hx : b / 8 + 2 < 4
  · simp only [if_pos hx]
    exact ⟨by decide, by decide, by decide, fun h => by have := h2 h; rw [if_neg (by omega)]; omega⟩
  · simp only [if_neg hx]
    refine ⟨?_, ?_, ?_, fun h => ?_⟩
    · split_ifs <;> omega
    · split_ifs <;> omega
    · split_ifs <;> omega
    · have := h2 h
      split_ifs <;> omega

/-- What the search has found so far. -/
def Candidate (h : Heap) (A : List Nat) (entries mx it : Nat) : Prop :=
  it = 0 ∧ mx = 2 ^ 64 - 1 ∨ it ∈ A ∧ mx = h.size it ∧ entries ≤ mx

section

variable {h t : Heap} {L : List Block} {A : List Nat}

theorem findFit_spec {B : List Block} (hb : Blocks h B A) (entries : Nat) {l : List Nat} :
    ∀ (countDown : Nat) {fuel p q q' mx it : Nat},
      Seg (fun i => h.array (i + 1)) (fun i => h.array (i + 2)) q p l q' 0 →
      (∀ k ∈ l, k ∈ A) → l.length < fuel → Candidate h A entries mx it →
      ∃ mx' it', (findFit entries fuel countDown p mx it).run h = some ((mx', it'), h) ∧
        Candidate h A entries mx' it' ∧ (it' = 0 → it = 0 ∧ ∀ k ∈ l, h.size k < entries) := by
  induction l with
  | nil =>
    intro countDown fuel p q q' mx it hseg _ hfuel hc
    obtain ⟨fuel, rfl⟩ : ∃ n, fuel = n + 1 := ⟨fuel - 1, by simp at hfuel; omega⟩
    refine ⟨mx, it, ?_, hc, fun h => ⟨h, by simp⟩⟩
    rw [findFit, if_pos hseg.2]
    rfl
  | cons p l ih =>
    intro countDown fuel _ q q' mx it hseg hA hfuel hc
    obtain ⟨fuel, rfl⟩ : ∃ n, fuel = n + 1 := ⟨fuel - 1, by simp at hfuel; omega⟩
    obtain ⟨rfl, -, hrest⟩ := hseg
    rename_i p
    have hpA := hA p List.mem_cons_self
    obtain ⟨b, hbB, ht, rfl, h4, hin⟩ := hb.node hpA
    have hok := hb.ok b hbB
    have hm := hb.marked b hbB
    have hsmall := hb.small.2
    have hstop : b.stop = b.start + b.size := rfl
    have hsize := hm.size hok.even
    have hstart := (hok.avail ht).2.1
    have hnot : ¬ h.isTaken b.start := by
      rw [hm.isTaken hok.even, ht]
      decide
    have hnext : (next b.start).run h = some (h.array (b.start + 1), h) := next_run (by omega)
    have hsub : ∀ k ∈ l, k ∈ A := fun k hk => hA k (List.mem_cons_of_mem _ hk)
    have hfuel' : l.length < fuel := by simpa using hfuel
    rw [findFit, if_neg hstart, Prog.get_bind_run, Prog.assert_bind_run hnot]
    dsimp only
    rw [hsize]
    by_cases hfit : b.size ≥ entries
    · rw [if_pos hfit]
      have hc' : Candidate h A entries (if b.size < mx then b.size else mx) (if b.size < mx then b.start else it) := by
        split_ifs with hlt
        · exact Or.inr ⟨hpA, hsize.symm, hfit⟩
        · exact hc
      have hne : (if b.size < mx then b.start else it) ≠ 0 := by
        split_ifs with hlt
        · exact hstart
        · rcases hc with ⟨-, hmx⟩ | ⟨hit, -⟩
          · omega
          · rintro rfl
            exact hb.listed.null_not_mem hit
      by_cases hend : countDown - 1 = 0 ∨ b.size = entries
      · refine ⟨_, _, ?_, hc', fun h0 => absurd h0 hne⟩
        rw [if_pos hend]
        rfl
      · obtain ⟨mx', it', hrun, hcand, hnone⟩ := ih (countDown - 1) hrest hsub hfuel' hc'
        refine ⟨mx', it', ?_, hcand, fun h0 => absurd (hnone h0).1 hne⟩
        rw [if_neg hend, Prog.bind_run hnext, hrun]
    · rw [if_neg hfit]
      obtain ⟨mx', it', hrun, hcand, hnone⟩ := ih countDown hrest hsub hfuel' hc
      refine ⟨mx', it', by rw [Prog.bind_run hnext, hrun], hcand, fun h0 => ?_⟩
      obtain ⟨h0', hl⟩ := hnone h0
      refine ⟨h0', fun k hk => ?_⟩
      rcases List.mem_cons.mp hk with rfl | hk
      · rw [hsize]
        omega
      · exact hl k hk

theorem Blocks.length_lt {B : List Block} (hb : Blocks h B A) : A.length < h.len := by
  have hnd : A.Nodup := hb.listed.nodup
  have hsub : A ⊆ List.range (h.len - 1) := by
    intro k hk
    have := hb.spread.inside k hk
    rw [List.mem_range]
    omega
  have := (List.subperm_of_subset hnd hsub).length_le
  have := hb.small.1
  rw [List.length_range] at *
  omega

theorem HeapWf.counters (hw : HeapWf h L A) (n m : Nat) : HeapWf { h with n_malloc := n, n_free := m } L A :=
  ⟨⟨hw.blocks.small, hw.blocks.inside, hw.blocks.apart, hw.blocks.ok, hw.blocks.marked, hw.blocks.listed,
    hw.blocks.avail⟩, hw.tiles, hw.loose⟩

/-! ## `malloc` -/

/-- Block `c` was made of available words, with room for `entries`; every other taken block is as it was. -/
structure Allocated (h : Heap) (L : List Block) (entries : Nat) (c : Block) (t : Heap) (L' : List Block)
    (A' : List Nat) : Prop where
  wf : HeapWf t L' A'
  fixed : t.fixed = h.fixed
  room : entries ≤ c.size
  inner : c.taken = true ∧ c.start ≠ 0 ∧ c.stop ≠ t.len
  taken : ∀ x, x.taken = true → (x ∈ L' ↔ x ∈ L ∨ x = c)
  fresh : ∀ x ∈ L, x.taken = true → x.start ≠ c.start
  kept : h.Kept t L

theorem addr_eq {i : Nat} (hb : h.base + 8 * h.len ≤ 2 ^ 64) (hi : i < h.len) : h.addr i = h.base + 8 * i :=
  Nat.mod_eq_of_lt (by omega)

theorem Heap.Kept.insert {l r : List Block} {b : Block} (hk : h.Kept t (l ++ r)) (ht : b.taken = false) :
    h.Kept t (l ++ b :: r) := by
  intro x hx hxt
  have hne : x ≠ b := fun e => by simp [e, ht] at hxt
  exact hk x ((mem_around.mp hx).resolve_left hne) hxt

/-- What `malloc` makes of an available block. -/
def Block.served (b : Block) (entries : Nat) : List Block :=
  if entries + 4 ≤ b.size then [⟨b.start, entries, true⟩, ⟨b.start + entries, b.size - entries, false⟩]
  else [⟨b.start, b.size, true⟩]

theorem mem_put {l r : List Block} {b c x : Block} (hb : x ≠ b) : x ∈ l ++ c :: r ↔ x ∈ l ++ b :: r ∨ x = c := by
  rw [mem_around, mem_around, or_iff_right hb]
  exact or_comm

theorem malloc_fill {l r : List Block} {b : Block} {entries : Nat} (hw : HeapWf h (l ++ b :: r) A)
    (ht : b.taken = false) (he : entries % 2 = 0) (h4 : 4 ≤ entries) (hfit : entries ≤ b.size) :
    ∃ u t c A', (Heap.remove b.start).run h = some ((), u) ∧
      (int32 (sub64 b.size entries) ≥ 4 → ∃ v, (makeTaken b.start entries).run u = some ((), v) ∧
        (makeAvail (add64 b.start entries) (uint64 (int32 (sub64 b.size entries)))).run v = some ((), t)) ∧
      (¬ int32 (sub64 b.size entries) ≥ 4 → (makeTaken b.start b.size).run u = some ((), t)) ∧
      c.start = b.start ∧ Allocated h (l ++ b :: r) entries c t (l ++ b.served entries ++ r) A' := by
  obtain ⟨u, A₁, hremove, hgap, hkept, hbase⟩ := hw.open_avail ht
  have hclosed := hw.closed ht
  obtain ⟨hi, hij, hj, heven⟩ := hgap.room
  have hsmall := hgap.blocks.small
  have hstop : b.stop = b.start + b.size := rfl
  have hsub : sub64 b.size entries = b.size - entries := sub64_eq (by omega) hfit
  have hint := int32_eq (n := b.size - entries) (by omega)
  have hfresh : ∀ x ∈ l ++ b :: r, x.taken = true → x.start ≠ b.start := by
    intro x hx hxt e
    have h2 := (hw.blocks.ok x hx).size_pos
    have hxs : x.stop = x.start + x.size := rfl
    rcases hw.blocks.apart x hx b (by simp) with rfl | hlt | hlt
    · simp [ht] at hxt
    · omega
    · omega
  rw [hsub, uint64_int32 (by omega), hint]
  by_cases hextra : b.size - entries ≥ 4
  · obtain ⟨v, hv, hgap', hkept', hbase'⟩ := hgap.split he h4 (by omega)
    have hclosed' : Closed (l ++ [⟨b.start, entries, true⟩]) r := by
      refine ⟨fun x hx => ?_, hclosed.2⟩
      rw [List.getLast?_concat, Option.mem_some_iff] at hx
      rw [← hx]
    have hrest : b.stop = b.start + entries + (b.size - entries) := by omega
    rw [hrest] at hgap'
    obtain ⟨t, ht', hwf, hkept'', hbase''⟩ := hgap'.fill_avail hclosed'
    have hlen := Heap.fixed_len hbase''
    have hlen' := Heap.fixed_len hbase'
    have hserved : l ++ b.served entries ++ r =
        l ++ [⟨b.start, entries, true⟩] ++ ⟨b.start + entries, b.size - entries, false⟩ :: r := by
      rw [Block.served, if_pos (by omega)]
      simp
    rw [hserved]
    refine ⟨u, t, ⟨b.start, entries, true⟩, _, hremove, fun _ => ⟨v, hv, ?_⟩, fun hn => absurd ?_ hn, rfl,
      hwf, hbase''.trans (hbase'.trans hbase), le_rfl,
      ⟨rfl, hi.ne', ?_⟩, fun x hx => ?_, hfresh, ?_⟩
    · rw [add64_eq (by omega), ht']
    · omega
    · simp only [Block.stop]
      omega
    · have hxb : x ≠ b := fun e => by simp [e, ht] at hx
      have hxr : x ≠ ⟨b.start + entries, b.size - entries, false⟩ := fun e => by simp [e] at hx
      rw [mem_around, or_iff_right hxr, ← List.append_cons]
      exact mem_put hxb
    · refine Heap.Kept.insert ?_ ht
      refine (hkept.trans hkept' fun x hx _ => hx).trans hkept'' fun x hx _ => ?_
      rw [← List.append_cons]
      exact mem_around.mpr (Or.inr hx)
  · have hrest : b.stop = b.start + b.size := rfl
    rw [hrest] at hgap
    obtain ⟨t, ht', hwf, hkept', hbase'⟩ := hgap.fill_taken
    have hlen := Heap.fixed_len hbase'
    have hserved : l ++ b.served entries ++ r = l ++ ⟨b.start, b.size, true⟩ :: r := by
      rw [Block.served, if_neg (by omega)]
      simp
    rw [hserved]
    refine ⟨u, t, ⟨b.start, b.size, true⟩, _, hremove, fun hp => absurd hp ?_, fun _ => ht', rfl, hwf,
      hbase'.trans hbase, hfit,
      ⟨rfl, hi.ne', ?_⟩, fun x hx => ?_, hfresh, ?_⟩
    · omega
    · simp only [Block.stop]
      omega
    · have hxb : x ≠ b := fun e => by simp [e, ht] at hx
      exact mem_put hxb
    · exact Heap.Kept.insert (hkept.trans hkept' fun x hx _ => hx) ht

theorem Allocated.counters {entries : Nat} {c : Block} {L' : List Block} {A' : List Nat}
    (ha : Allocated h L entries c t L' A') (n m : Nat) :
    Allocated h L entries c { t with n_malloc := n, n_free := m } L' A' :=
  ⟨ha.wf.counters n m, ha.fixed, ha.room, ha.inner, ha.taken, ha.fresh, ha.kept⟩

theorem malloc_returns (hw : HeapWf h L A) (hb : h.base + 8 * h.len ≤ 2 ^ 64) {bytes : Nat} (hne : bytes ≠ 0) :
    (∃ (t : Heap) (c : Block) (l : List Block) (b : Block) (r : List Block) (A' : List Nat),
      (malloc bytes).run h = some (h.base + 8 * (c.start + 1), t) ∧ L = l ++ b :: r ∧
      b.taken = false ∧ entriesFor bytes ≤ b.size ∧ c.start = b.start ∧
      Allocated h L (entriesFor bytes) c t (l ++ b.served (entriesFor bytes) ++ r) A') ∨
    (malloc bytes).run h = some (0, h) ∧ ∀ b ∈ L, b.taken = false → b.size < entriesFor bytes := by
  obtain ⟨heven, h4, hlt, -⟩ := entriesFor_spec bytes
  obtain ⟨q, hseg⟩ := hw.blocks.listed.seg
  obtain ⟨mx, it, hfind, hcand, hnone⟩ := findFit_spec hw.blocks (entriesFor bytes) 20 hseg
    (fun k hk => hk) hw.blocks.length_lt (Or.inl ⟨rfl, rfl⟩)
  rw [malloc, Prog.get_bind_run, if_neg hne]
  dsimp only
  rw [Prog.bind_run hfind]
  rcases hcand with ⟨rfl, -⟩ | ⟨hit, rfl, hfit⟩
  · right
    refine ⟨rfl, fun b hbL ht => ?_⟩
    have hbA := (hw.blocks.avail b.start).mpr ⟨b, hbL, ht, rfl⟩
    rw [← (hw.blocks.marked b hbL).size (hw.blocks.ok b hbL).even]
    exact (hnone rfl).2 _ hbA
  · left
    obtain ⟨b, hbL, ht, rfl, -, hin⟩ := hw.blocks.node hit
    have hok := hw.blocks.ok b hbL
    rw [(hw.blocks.marked b hbL).size hok.even] at hfit ⊢
    obtain ⟨l, r, rfl⟩ := List.append_of_mem hbL
    obtain ⟨u, t, c, A', hremove, hsplit, hwhole, hcb, hall⟩ := malloc_fill hw ht heven h4 hfit
    have hsmall := hw.blocks.small
    have hstop : b.stop = b.start + b.size := rfl
    have haddr : h.addr (add64 b.start 1) = h.base + 8 * (c.start + 1) := by
      rw [add64_eq (by omega), addr_eq hb (by omega), hcb]
    have hnull : h.base + 8 * (c.start + 1) ≠ 0 := by omega
    refine ⟨{ t with n_malloc := add64 t.n_malloc 1 }, c, l, b, r, A', ?_, rfl, ht, hfit, hcb, hall.counters _ _⟩
    dsimp only
    rw [if_pos (hok.avail ht).2.1, Prog.bind_run hremove]
    have hcount : (do
        if h.addr (add64 b.start 1) ≠ 0 then modify fun h => { h with n_malloc := add64 h.n_malloc 1 } else pure ()
        pure (h.addr (add64 b.start 1)) : H Nat).run t =
          some (h.base + 8 * (c.start + 1), { t with n_malloc := add64 t.n_malloc 1 }) := by
      rw [haddr, if_pos hnull]
      rfl
    by_cases hextra : int32 (sub64 b.size (entriesFor bytes)) ≥ 4
    · obtain ⟨v, hv, ht'⟩ := hsplit hextra
      rw [if_pos hextra, Prog.bind_run hv, Prog.bind_run ht']
      exact hcount
    · rw [if_neg hextra, Prog.bind_run (hwhole hextra)]
      exact hcount

/-! ## `free` -/

theorem free_left {l r : List Block} {x : Block} {i j : Nat} (hg : Gap h (l ++ [x]) i j r A) :
    ∃ t l' i' A', (∀ {β : Type} (f : Int × Int → H β), (if h.isAvail x.start then do
        remove x.start
        let h ← get
        let p ← pure (int32 x.start, int32 (add64 (uint64 (int32 (j - i))) (h.size x.start)))
        f p
      else do
        let p ← pure (int32 i, int32 (j - i))
        f p : H β).run h = (f (int32 i', int32 (j - i'))).run t) ∧
      Gap t l' i' j r A' ∧ (∀ y ∈ l'.getLast?, y.taken = true) ∧ h.Kept t (l ++ [x] ++ r) ∧ t.fixed = h.fixed ∧
      ∀ y, y.taken = true → (y ∈ l' ↔ y ∈ l ++ [x]) := by
  have hx : x ∈ l ++ [x] ++ r := by simp
  have hok := hg.blocks.ok x hx
  have hsmall := hg.blocks.small
  obtain ⟨hi, hij, hj, -⟩ := hg.room
  cases hxt : x.taken with
  | false =>
    obtain ⟨t, A', hrun, hgap, hkept, hsize, hfixed⟩ := hg.absorb_left hxt
    obtain ⟨k, -, hk, hstop⟩ := tiles_append.mp hg.below
    have hstop : x.stop = i := hstop
    simp only [Block.stop] at hstop
    have htaken : ∀ y, y.taken = true → (y ∈ l ↔ y ∈ l ++ [x]) := by
      intro y hy
      have hne : y ≠ x := fun e => by simp [e, hxt] at hy
      simp [hne]
    refine ⟨t, l, x.start, A', fun f => ?_, hgap, fun y hy => ?_, fun y hy hyt => hkept y ?_ hyt, hfixed, htaken⟩
    · rw [if_pos (((hg.blocks.marked x hx).isAvail hok.even).mpr hxt), Prog.bind_run hrun, Prog.get_bind_run, hsize,
        uint64_int32 (by omega), add64_eq (by omega)]
      have hsum : j - i + x.size = j - x.start := by omega
      rw [hsum, pure_bind]
    · have := (List.isChain_append.mp hg.loose_below).2.2 y hy x (by simp)
      exact this.resolve_right (by simp [hxt])
    · rcases List.mem_append.mp hy with hy | hy
      · exact List.mem_append_left _ ((htaken y hyt).mpr hy)
      · exact List.mem_append_right _ hy
  | true =>
    refine ⟨h, l ++ [x], i, A, fun f => ?_, hg, fun y hy => ?_, fun _ _ _ _ _ _ => rfl, rfl, fun _ _ => Iff.rfl⟩
    · rw [if_neg fun ha => by simp [((hg.blocks.marked x hx).isAvail hok.even).mp ha] at hxt]
      rfl
    · rw [List.getLast?_concat, Option.mem_some_iff] at hy
      rw [← hy, hxt]

theorem free_right {l r : List Block} {y : Block} {i j : Nat} (hg : Gap h l i j (y :: r) A) :
    ∃ t j' r' A', (∀ {β : Type} (f : Int → H β), (if h.isAvail y.start then do
        remove y.start
        let h ← get
        let sz ← pure (int32 (add64 (uint64 (int32 (j - i))) (h.size y.start)))
        f sz
      else do
        let sz ← pure (int32 (j - i))
        f sz : H β).run h = (f (int32 (j' - i))).run t) ∧
      Gap t l i j' r' A' ∧ (∀ x ∈ r'.head?, x.taken = true) ∧ h.Kept t (l ++ y :: r) ∧ t.fixed = h.fixed ∧
      ∀ x, x.taken = true → (x ∈ r' ↔ x ∈ y :: r) := by
  have hy : y ∈ l ++ y :: r := by simp
  have hok := hg.blocks.ok y hy
  have hsmall := hg.blocks.small
  obtain ⟨hi, hij, hj, -⟩ := hg.room
  cases hyt : y.taken with
  | false =>
    obtain ⟨t, A', hrun, hgap, hkept, hsize, hfixed⟩ := hg.absorb_right hyt
    have hstart : y.start = j := hg.above.1
    have hstop : y.stop = y.start + y.size := rfl
    have hin := hg.blocks.inside y hy
    have htaken : ∀ x, x.taken = true → (x ∈ r ↔ x ∈ y :: r) := by
      intro x hx
      have hne : x ≠ y := fun e => by simp [e, hyt] at hx
      simp [hne]
    refine ⟨t, y.stop, r, A', fun f => ?_, hgap, fun x hx => ?_, fun x hx hxt => hkept x ?_ hxt, hfixed, htaken⟩
    · rw [if_pos (((hg.blocks.marked y hy).isAvail hok.even).mpr hyt), Prog.bind_run hrun, Prog.get_bind_run, hsize,
        uint64_int32 (by omega), add64_eq (by omega)]
      have hsum : j - i + y.size = y.stop - i := by omega
      rw [hsum, pure_bind]
    · have := (List.isChain_cons.mp hg.loose_above).1 x hx
      exact this.resolve_left (by simp [hyt])
    · rcases List.mem_append.mp hx with hx | hx
      · exact List.mem_append_left _ hx
      · exact List.mem_append_right _ ((htaken x hxt).mpr hx)
  | true =>
    refine ⟨h, j, y :: r, A, fun f => ?_, hg, fun x hx => ?_, fun _ _ _ _ _ _ => rfl, rfl, fun _ _ => Iff.rfl⟩
    · rw [if_neg fun ha => by simp [((hg.blocks.marked y hy).isAvail hok.even).mp ha] at hyt]
      rfl
    · obtain rfl := Option.some.inj hx
      exact hyt

/-- Block `b` is gone, and every other taken block is as it was. -/
structure Released (h : Heap) (L : List Block) (b : Block) (t : Heap) (L' : List Block) (A' : List Nat) : Prop where
  wf : HeapWf t L' A'
  fixed : t.fixed = h.fixed
  taken : ∀ x, x.taken = true → (x ∈ L' ↔ x ∈ L ∧ x ≠ b)
  kept : ∀ x ∈ L, x ≠ b → x.taken = true → ∀ w, x.start ≤ w → w < x.stop → t.array w = h.array w

theorem mem_merge {l l' r r' : List Block} {b m z : Block} (hl : z ∈ l' ↔ z ∈ l) (hr : z ∈ r' ↔ z ∈ r)
    (hb : b ∉ l ++ r) (hm : z ≠ m) : z ∈ l' ++ m :: r' ↔ z ∈ l ++ b :: r ∧ z ≠ b := by
  rw [mem_around, or_iff_right hm, List.mem_append, hl, hr, ← List.mem_append]
  exact mem_without hb

theorem free_returns {b : Block} (hw : HeapWf h L A) (hb : h.base + 8 * h.len ≤ 2 ^ 64) (hbL : b ∈ L)
    (ht : b.taken = true) (hs : b.start ≠ 0) (he : b.stop ≠ h.len) :
    ∃ t L' A', (free (h.base + 8 * (b.start + 1))).run h = some ((), t) ∧ Released h L b t L' A' := by
  obtain ⟨l, r, rfl⟩ := List.append_of_mem hbL
  have hw₁ := hw.counters h.n_malloc (add64 h.n_free 1)
  generalize hh : ({ h with n_malloc := h.n_malloc, n_free := add64 h.n_free 1 } : Heap) = u at hw₁
  have hulen : u.len = h.len := by rw [← hh]
  have huarr : u.array = h.array := by rw [← hh]
  have hsmall := hw.blocks.small
  have hok := hw.blocks.ok b hbL
  have hgap := hw₁.open_taken ht hs (by rw [hulen]; exact he)
  have hmid := hw.middle
  obtain ⟨hl, hr, -, -⟩ := hw₁.split
  have hin := hw.blocks.inside b hbL
  have hstop : b.stop = b.start + b.size := rfl
  have hpos := hok.size_pos
  -- A block on each side.
  obtain ⟨l, x, rfl⟩ : ∃ l' x, l = l' ++ [x] := by
    rcases List.eq_nil_or_concat l with rfl | ⟨l', x, rfl⟩
    · exact absurd hl.symm hs
    · exact ⟨l', x, List.concat_eq_append⟩
  obtain ⟨y, r, rfl⟩ : ∃ y r', r = y :: r' := by
    cases r with
    | nil =>
      have : b.stop = u.len := hr
      omega
    | cons y r => exact ⟨y, r, rfl⟩
  obtain ⟨k, -, rfl, hxstop⟩ := tiles_append.mp hl
  have hxstop : x.stop = b.start := hxstop
  have hystart : y.start = b.stop := hr.1
  have hx := hw₁.blocks.marked x (by simp)
  have hxok := hw₁.blocks.ok x (by simp)
  have hyin := hw₁.blocks.inside y (by simp)
  have hypos := (hw₁.blocks.ok y (by simp)).size_pos
  have hxsum : x.stop = x.start + x.size := rfl
  have hxpos := hxok.size_pos
  have hysum : y.stop = y.start + y.size := rfl
  obtain ⟨t₁, l', i', A₁, hrun₁, hgap₁, hclosed₁, hkept₁, hfixed₁, htaken₁⟩ := free_left hgap
  obtain ⟨t₂, j', r', A₂, hrun₂, hgap₂, hclosed₂, hkept₂, hfixed₂, htaken₂⟩ := free_right hgap₁
  obtain ⟨-, hij, hj, -⟩ := hgap₂.room
  have hsmall₂ := hgap₂.blocks.small
  have hsum : j' = i' + (j' - i') := by omega
  rw [hsum] at hgap₂
  obtain ⟨t₃, hrun₃, hwf, hkept₃, hfixed₃⟩ := hgap₂.fill_avail ⟨hclosed₁, hclosed₂⟩
  have hufixed : u.fixed = h.fixed := by rw [← hh]; rfl
  have hsize : u.size b.start = b.stop - b.start := by
    rw [(hw₁.blocks.marked b (by simp)).size hok.even]
    omega
  have hleft : (left b.start).run u = some (x.start, u) := by
    have hfoot := hx.size_footer hxok.even
    rw [hxstop] at hfoot
    have hheader : add64 (sub64 (b.start - 1) x.size) 1 = x.start := by
      simp only [add64, sub64]
      omega
    rw [left, Prog.get_bind_run, sanity_eq, sub64_eq (by omega) (by omega), headerFromFooter, hfoot, hheader]
    rfl
  have hright : (right b.start).run u = some (y.start, u) := by
    rw [right, Prog.get_bind_run, sanity_eq, hsize, add64_eq (by omega)]
    have : b.start + (b.stop - b.start) = y.start := by omega
    rw [this]
    rfl
  have hidx : sub64 (sub64 (h.base + 8 * (b.start + 1)) h.base / 8) 1 = b.start := by
    have hoff : sub64 (h.base + 8 * (b.start + 1)) h.base = 8 * (b.start + 1) := by
      rw [sub64_eq (by omega) (by omega)]
      omega
    rw [hoff, sub64_eq (by omega) (by omega)]
    omega
  refine ⟨t₃, _, _, ?_, hwf, hfixed₃.trans (hfixed₂.trans (hfixed₁.trans hufixed)), fun z hz => ?_,
    fun z hz hne hzt w hs he => ?_⟩
  · rw [free, Prog.get_bind_run, if_neg (by omega), if_neg (by omega), Prog.modify_bind_run]
    dsimp only
    rw [hh, hidx, uint64_int32 (n := b.start) (by omega), sanity_eq, pure_bind, Prog.get_bind_run, hsize,
      Prog.bind_run hleft, Prog.bind_run hright, Prog.get_bind_run, uint64_int32 (n := x.start) (by omega)]
    refine (hrun₁ _).trans ?_
    rw [Prog.get_bind_run, uint64_int32 (n := y.start) (by omega)]
    refine (hrun₂ _).trans ?_
    rw [uint64_int32 (by omega), uint64_int32 (by omega), hrun₃]
  · have hne : z ≠ ⟨i', j' - i', false⟩ := fun e => by simp [e] at hz
    exact mem_merge (htaken₁ z hz) (htaken₂ z hz) hmid hne
  · have hz₀ : z ∈ l ++ [x] ∨ z ∈ y :: r := by
      rcases List.mem_append.mp hz with hz | hz
      · exact Or.inl hz
      · exact Or.inr ((List.mem_cons.mp hz).resolve_left hne)
    have hz₁ := hz₀.imp_left (htaken₁ z hzt).mpr
    have hz₂ := hz₁.imp_right (htaken₂ z hzt).mpr
    rw [hkept₃ z (List.mem_append.mpr hz₂) hzt w hs he, hkept₂ z (List.mem_append.mpr hz₁) hzt w hs he,
      hkept₁ z (List.mem_append.mpr hz₀) hzt w hs he, huarr]

end

end Kernel
