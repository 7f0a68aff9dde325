import Kernel.Heap.Proofs

/-!
# A heap with a gap

`malloc` and `free` take a block out of the tiling, let the gap grow over its
available neighbours, and fill it again.
-/

namespace Kernel

open Lib Heap

section

variable {h t : Heap} {B : List Block} {A : List Nat}

theorem Blocks.spread (hb : Blocks h B A) : Spread h.len A where
  inside k hk := by
    obtain ⟨b, -, -, rfl, h4, hin⟩ := hb.node hk
    simp only [Block.stop] at hin
    omega
  apart k hk m hm := by
    obtain ⟨b, hbB, -, rfl, h4, -⟩ := hb.node hk
    obtain ⟨c, hcB, -, rfl, h4', -⟩ := hb.node hm
    have := hb.apart b hbB c hcB
    simp only [Block.stop] at this
    rcases this with rfl | this | this <;> omega

/-- What `remove` leaves: the same blocks without `b`. -/
structure TakenOut (h : Heap) (B : List Block) (b : Block) (t : Heap) (A' : List Nat) : Prop where
  blocks : ∀ B', (∀ x, x ∈ B' ↔ x ∈ B ∧ x ≠ b) → Blocks t B' A'
  marked : t.Marked b
  kept : h.Kept t B
  len : t.len = h.len
  fixed : t.fixed = h.fixed

theorem Blocks.remove (hb : Blocks h B A) {b : Block} (hbB : b ∈ B) (ht : b.taken = false) :
    ∃ t A', (Heap.remove b.start).run h = some ((), t) ∧ TakenOut h B b t A' := by
  obtain ⟨A₁, A₂, rfl⟩ := List.append_of_mem ((hb.avail b.start).mpr ⟨b, hbB, ht, rfl⟩)
  obtain ⟨t, hrun, hlist, hwrote⟩ := remove_spec hb.listed (hb.small.2.trans (by omega)) hb.spread
  have hsub : ∀ k ∈ A₁ ++ A₂, k ∈ A₁ ++ b.start :: A₂ := fun k hk => mem_around.mpr (Or.inr hk)
  have hout : b.start ∉ A₁ ++ A₂ := by
    obtain ⟨-, -, hdisj, -, -⟩ := Linked.parts hb.listed
    have hnd := hb.listed.nodup
    rw [List.nodup_append, List.nodup_cons] at hnd
    rw [List.mem_append, not_or]
    exact ⟨fun hmem => hnd.2.2 _ hmem _ List.mem_cons_self rfl, hnd.2.1.1⟩
  have hsame : ∀ {c w}, c ∈ B → (w = c.start ∨ w = c.stop - 1 ∨ c.taken = true ∧ c.start ≤ w ∧ w < c.stop) →
      t.array w = h.array w := fun hc hw =>
    hwrote.same _ (fun k hk => hb.off_links hc hw (hsub k hk)) not_false
  have hmarked : ∀ c ∈ B, t.Marked c := fun c hc =>
    (hb.marked c hc).congr (hsame hc (Or.inl rfl)) (hsame hc (Or.inr (Or.inl rfl)))
  refine ⟨t, A₁ ++ A₂, hrun, fun B' hB' => ?_, hmarked b hbB,
    fun c hc hct w hs he => hsame hc (Or.inr (Or.inr ⟨hct, hs, he⟩)), hwrote.len, hwrote.fixed⟩
  have hsub' : ∀ x ∈ B', x ∈ B := fun x hx => ((hB' x).mp hx).1
  refine ⟨by rw [hwrote.len]; exact hb.small, fun x hx => by rw [hwrote.len]; exact hb.inside x (hsub' x hx),
    fun x hx y hy => hb.apart x (hsub' x hx) y (hsub' y hy), fun x hx => by rw [hwrote.len]; exact hb.ok x (hsub' x hx),
    fun x hx => hmarked x (hsub' x hx), hlist, fun k => ?_⟩
  constructor
  · intro hk
    obtain ⟨c, hcB, hct, rfl⟩ := (hb.avail k).mp (hsub k hk)
    exact ⟨c, (hB' c).mpr ⟨hcB, fun e => hout (e ▸ hk)⟩, hct, rfl⟩
  · rintro ⟨c, hc, hct, rfl⟩
    obtain ⟨hcB, hne⟩ := (hB' c).mp hc
    have hk := (hb.avail c.start).mpr ⟨c, hcB, hct, rfl⟩
    have hstart : c.start ≠ b.start := fun e => by
      have h4 := ((hb.ok c hcB).avail hct).1
      have h4' := ((hb.ok b hbB).avail ht).1
      have := hb.apart c hcB b hbB
      simp only [Block.stop] at this
      rcases this with rfl | this | this
      · exact hne rfl
      · omega
      · omega
    exact (mem_around.mp hk).resolve_left hstart

/-! ## Opening a gap -/

/-- The blocks on both sides of the gap are taken. -/
def Closed (l r : List Block) : Prop :=
  (∀ x ∈ l.getLast?, x.taken = true) ∧ ∀ y ∈ r.head?, y.taken = true

section

variable {l r : List Block} {b : Block}

theorem HeapWf.split (hw : HeapWf h (l ++ b :: r) A) :
    Tiles 0 b.start l ∧ Tiles b.stop h.len r ∧ l.IsChain Block.Loose ∧ r.IsChain Block.Loose := by
  obtain ⟨k, hl, rfl, hr⟩ := tiles_append.mp hw.tiles
  obtain ⟨hcl, hcr, -⟩ := List.isChain_append.mp hw.loose
  exact ⟨hl, hr, hcl, (List.isChain_cons.mp hcr).2⟩

theorem HeapWf.middle (hw : HeapWf h (l ++ b :: r) A) : b ∉ l ++ r := by
  obtain ⟨hl, hr, -, -⟩ := hw.split
  have h2 := (hw.blocks.ok b (by simp)).size_pos
  intro hb
  rcases List.mem_append.mp hb with hb | hb
  · have := (hl.mem hb).2
    simp only [Block.stop] at this
    omega
  · have := (hr.mem hb).1
    simp only [Block.stop] at this
    omega

theorem HeapWf.closed (hw : HeapWf h (l ++ b :: r) A) (ht : b.taken = false) : Closed l r := by
  obtain ⟨-, hcr, hlb⟩ := List.isChain_append.mp hw.loose
  have hbr := (List.isChain_cons.mp hcr).1
  refine ⟨fun x hx => ?_, fun y hy => ?_⟩
  · exact (hlb x hx b (by simp)).resolve_right (by simp [ht])
  · exact (hbr y hy).resolve_left (by simp [ht])

theorem HeapWf.room (hw : HeapWf h (l ++ b :: r) A) (hs : b.start ≠ 0) (he : b.stop ≠ h.len) :
    0 < b.start ∧ b.start + 4 ≤ b.stop ∧ b.stop < h.len ∧ (b.stop - b.start) % 2 = 0 := by
  have hb : b ∈ l ++ b :: r := by simp
  have hok := hw.blocks.ok b hb
  have h4 := hok.inner hs he
  have heven := hok.even
  have hin := hw.blocks.inside b hb
  simp only [Block.stop] at *
  omega

theorem HeapWf.open_taken (hw : HeapWf h (l ++ b :: r) A) (ht : b.taken = true) (hs : b.start ≠ 0)
    (he : b.stop ≠ h.len) : Gap h l b.start b.stop r A := by
  obtain ⟨hl, hr, hcl, hcr⟩ := hw.split
  have hb := hw.blocks
  have hsub : ∀ x ∈ l ++ r, x ∈ l ++ b :: r := fun x hx => mem_around.mpr (Or.inr hx)
  refine ⟨⟨hb.small, fun x hx => hb.inside x (hsub x hx), fun x hx y hy => hb.apart x (hsub x hx) y (hsub y hy),
    fun x hx => hb.ok x (hsub x hx), fun x hx => hb.marked x (hsub x hx), hb.listed, fun k => ?_⟩, hl, hr,
      hw.room hs he,
    hcl, hcr⟩
  rw [hb.avail]
  constructor
  · rintro ⟨c, hc, hct, rfl⟩
    have hne : c ≠ b := fun e => by simp [e, ht] at hct
    exact ⟨c, (mem_around.mp hc).resolve_left hne, hct, rfl⟩
  · rintro ⟨c, hc, hct, rfl⟩
    exact ⟨c, hsub c hc, hct, rfl⟩

theorem HeapWf.open_avail (hw : HeapWf h (l ++ b :: r) A) (ht : b.taken = false) :
    ∃ t A', (Heap.remove b.start).run h = some ((), t) ∧ Gap t l b.start b.stop r A' ∧ h.Kept t (l ++ r) ∧
      t.fixed = h.fixed := by
  obtain ⟨hl, hr, hcl, hcr⟩ := hw.split
  have hb : b ∈ l ++ b :: r := by simp
  obtain ⟨-, hs, he⟩ := (hw.blocks.ok b hb).avail ht
  obtain ⟨t, A', hrun, hout⟩ := hw.blocks.remove hb ht
  have hroom := hw.room hs he
  have hmem : ∀ x, x ∈ l ++ r ↔ x ∈ l ++ b :: r ∧ x ≠ b := fun x => mem_without hw.middle
  refine ⟨t, A', hrun, ⟨hout.blocks _ hmem, hl, by rw [hout.len]; exact hr, by rw [hout.len]; exact hroom, hcl, hcr⟩,
    hout.kept.mono fun x hx => ((hmem x).mp hx).1, hout.fixed⟩

/-! ## Widening the gap -/

theorem Gap.absorb_left {i j : Nat} (hg : Gap h (l ++ [b]) i j r A) (ht : b.taken = false) :
    ∃ t A', (Heap.remove b.start).run h = some ((), t) ∧ Gap t l b.start j r A' ∧ h.Kept t (l ++ r) ∧
      t.size b.start = b.size ∧ t.fixed = h.fixed := by
  have hb : b ∈ l ++ [b] ++ r := by simp
  have hok := hg.blocks.ok b hb
  obtain ⟨h4, hs, -⟩ := hok.avail ht
  obtain ⟨k, hl, rfl, hstop⟩ := tiles_append.mp hg.below
  have hstop : b.stop = i := hstop
  obtain ⟨t, A', hrun, hout⟩ := hg.blocks.remove hb ht
  obtain ⟨-, hij, hj, heven⟩ := hg.room
  have hroom : 0 < b.start ∧ b.start + 4 ≤ j ∧ j < h.len ∧ (j - b.start) % 2 = 0 := by
    have := hok.even
    simp only [Block.stop] at hstop
    omega
  have hnl : b ∉ l := fun hbl => by
    have := (hl.mem hbl).2
    simp only [Block.stop] at this
    omega
  have hnr : b ∉ r := fun hbr => by
    have := (hg.above.mem hbr).1
    simp only [Block.stop] at hstop
    omega
  have hmem : ∀ x, x ∈ l ++ r ↔ x ∈ l ++ [b] ++ r ∧ x ≠ b := by
    intro x
    rw [← List.append_cons]
    exact mem_without (List.not_mem_append hnl hnr)
  refine ⟨t, A', hrun, ⟨hout.blocks _ hmem, hl, by rw [hout.len]; exact hg.above, by rw [hout.len]; exact hroom,
    hg.loose_below.left_of_append, hg.loose_above⟩, hout.kept.mono fun x hx => ((hmem x).mp hx).1,
    hout.marked.size hok.even, hout.fixed⟩

theorem Gap.absorb_right {i j : Nat} (hg : Gap h l i j (b :: r) A) (ht : b.taken = false) :
    ∃ t A', (Heap.remove b.start).run h = some ((), t) ∧ Gap t l i b.stop r A' ∧ h.Kept t (l ++ r) ∧
      t.size b.start = b.size ∧ t.fixed = h.fixed := by
  have hb : b ∈ l ++ b :: r := by simp
  have hok := hg.blocks.ok b hb
  obtain ⟨h4, -, he⟩ := hok.avail ht
  obtain ⟨rfl, hr⟩ := hg.above
  obtain ⟨t, A', hrun, hout⟩ := hg.blocks.remove hb ht
  obtain ⟨hi, hij, hj, heven⟩ := hg.room
  have hin := hg.blocks.inside b hb
  have hroom : 0 < i ∧ i + 4 ≤ b.stop ∧ b.stop < h.len ∧ (b.stop - i) % 2 = 0 := by
    have := hok.even
    simp only [Block.stop] at *
    omega
  have hnl : b ∉ l := fun hbl => by
    have := (hg.below.mem hbl).2
    simp only [Block.stop] at this
    omega
  have hnr : b ∉ r := fun hbr => by
    have := (hr.mem hbr).1
    simp only [Block.stop] at this
    omega
  have hmem : ∀ x, x ∈ l ++ r ↔ x ∈ l ++ b :: r ∧ x ≠ b := fun x => mem_without (List.not_mem_append hnl hnr)
  refine ⟨t, A', hrun, ⟨hout.blocks _ hmem, hg.below, by rw [hout.len]; exact hr, by rw [hout.len]; exact hroom,
    hg.loose_below, (List.isChain_cons.mp hg.loose_above).2⟩, hout.kept.mono fun x hx => ((hmem x).mp hx).1,
    hout.marked.size hok.even, hout.fixed⟩

/-! ## Filling the gap -/

theorem Gap.write {i j : Nat} (hg : Gap h l i j r A) {P : Nat → Prop} (hP : ∀ w, P w → i ≤ w ∧ w < j)
    (ht : Wrote h t [] P) (ha : t.avail = h.avail) :
    Gap t l i j r A ∧ ∀ b ∈ l ++ r, ∀ w, b.start ≤ w → w < b.stop → t.array w = h.array w := by
  have hb := hg.blocks
  have hsame : ∀ b ∈ l ++ r, ∀ w, b.start ≤ w → w < b.stop → t.array w = h.array w := by
    intro b hbB w hs he
    refine ht.same w (by simp) fun hw => ?_
    have := hP w hw
    have := hg.outside hbB
    omega
  refine ⟨⟨⟨by rw [ht.len]; exact hb.small, by rw [ht.len]; exact hb.inside, hb.apart, by rw [ht.len]; exact hb.ok,
    fun b hbB => (hb.marked b hbB).congr ?_ ?_, ?_, hb.avail⟩, hg.below, by rw [ht.len]; exact hg.above,
    by rw [ht.len]; exact hg.room, hg.loose_below, hg.loose_above⟩, hsame⟩
  · have := (hb.ok b hbB).size_pos
    exact hsame b hbB _ le_rfl (by simp only [Block.stop]; omega)
  · have := (hb.ok b hbB).size_pos
    exact hsame b hbB _ (by simp only [Block.stop]; omega) (by simp only [Block.stop]; omega)
  · have hnode : ∀ k ∈ A, t.array (k + 1) = h.array (k + 1) ∧ t.array (k + 2) = h.array (k + 2) := by
      intro k hk
      obtain ⟨b, hbB, -, rfl, h4, -⟩ := hb.node hk
      exact ⟨hsame b hbB _ (by omega) (by simp only [Block.stop]; omega),
        hsame b hbB _ (by omega) (by simp only [Block.stop]; omega)⟩
    rw [Heap.Listed, ha]
    exact Linked.congr hb.listed (fun k hk => (hnode k hk).1) fun k hk => (hnode k hk).2

theorem Blocks.insert (hb : Blocks h (l ++ r) A) {A' : List Nat} (hlen : t.len = h.len) (hin : b.stop ≤ h.len)
    (hok : b.Ok h.len) (hm : t.Marked b) (hout : ∀ x ∈ l ++ r, x.stop ≤ b.start ∨ b.stop ≤ x.start)
    (hmarked : ∀ x ∈ l ++ r, t.Marked x) (hl : t.Listed A') (hA : ∀ k, k ∈ A' ↔ k ∈ A ∨ b.taken = false ∧ b.start = k) :
    Blocks t (l ++ b :: r) A' := by
  refine ⟨by rw [hlen]; exact hb.small, fun x hx => ?_, fun x hx y hy => ?_, fun x hx => ?_, fun x hx => ?_, hl,
    fun k => ?_⟩
  · rw [hlen]
    rcases mem_around.mp hx with rfl | hx
    · exact hin
    · exact hb.inside x hx
  · rcases mem_around.mp hx with hxb | hx' <;> rcases mem_around.mp hy with hyb | hy'
    · exact Or.inl (hxb.trans hyb.symm)
    · exact hxb ▸ Or.inr (hout y hy').symm
    · exact hyb ▸ Or.inr (hout x hx')
    · exact hb.apart x hx' y hy'
  · rw [hlen]
    rcases mem_around.mp hx with rfl | hx
    · exact hok
    · exact hb.ok x hx
  · rcases mem_around.mp hx with rfl | hx
    · exact hm
    · exact hmarked x hx
  · rw [hA, hb.avail]
    constructor
    · rintro (⟨x, hx, hxt, rfl⟩ | ⟨hbt, rfl⟩)
      · exact ⟨x, mem_around.mpr (Or.inr hx), hxt, rfl⟩
      · exact ⟨b, by simp, hbt, rfl⟩
    · rintro ⟨x, hx, hxt, rfl⟩
      rcases mem_around.mp hx with rfl | hx
      · exact Or.inr ⟨hxt, rfl⟩
      · exact Or.inl ⟨x, hx, hxt, rfl⟩

theorem Gap.fill_taken {i n : Nat} (hg : Gap h l i (i + n) r A) :
    ∃ t, (makeTaken i n).run h = some ((), t) ∧ HeapWf t (l ++ ⟨i, n, true⟩ :: r) A ∧ h.Kept t (l ++ r) ∧
      t.fixed = h.fixed := by
  obtain ⟨hi, h4, hj, heven⟩ := hg.room
  have hsmall := hg.blocks.small
  obtain ⟨t, hrun, hm, ha, hwrote⟩ := makeTaken_spec (h := h) (i := i) (n := n) (by omega) (by omega) (by omega)
  obtain ⟨hgt, hsame⟩ := hg.write (by rintro w (rfl | rfl) <;> omega) hwrote ha
  have hlen := hwrote.len
  refine ⟨t, hrun, ⟨hgt.blocks.insert rfl ?_ ⟨?_, ?_, ?_⟩ hm (fun x hx => ?_) hgt.blocks.marked hgt.blocks.listed
    fun k => ?_, ?_, ?_⟩, fun x hx _ => hsame x hx, hwrote.fixed⟩
  · simp only [Block.stop]
    omega
  · exact show n % 2 = 0 by omega
  · simp only [Block.stop]
    omega
  · intro _ _
    exact show 4 ≤ n by omega
  · exact hgt.outside hx
  · simp
  · exact tiles_append.mpr ⟨i, hgt.below, rfl, hgt.above⟩
  · refine List.isChain_append.mpr ⟨hgt.loose_below, List.isChain_cons.mpr ⟨fun _ _ => Or.inl rfl, hgt.loose_above⟩, ?_⟩
    intro x _ y hy
    obtain rfl := Option.some.inj hy
    exact Or.inr rfl

theorem Gap.split {i j m : Nat} (hg : Gap h l i j r A) (hm : m % 2 = 0) (h4 : 4 ≤ m) (hj : i + m + 4 ≤ j) :
    ∃ t, (makeTaken i m).run h = some ((), t) ∧ Gap t (l ++ [⟨i, m, true⟩]) (i + m) j r A ∧ h.Kept t (l ++ r) ∧
      t.fixed = h.fixed := by
  obtain ⟨hi, -, hjl, heven⟩ := hg.room
  have hsmall := hg.blocks.small
  obtain ⟨t, hrun, hmark, ha, hwrote⟩ := makeTaken_spec (h := h) (i := i) (n := m) hm (by omega) (by omega)
  obtain ⟨hgt, hsame⟩ := hg.write (by rintro w (rfl | rfl) <;> omega) hwrote ha
  have hlen := hwrote.len
  refine ⟨t, hrun, ⟨?_, tiles_append.mpr ⟨i, hgt.below, rfl, rfl⟩, hgt.above, by omega, ?_, hgt.loose_above⟩,
    fun x hx _ => hsame x hx, hwrote.fixed⟩
  · rw [List.append_assoc]
    refine hgt.blocks.insert rfl ?_ ⟨hm, ?_, fun _ _ => h4⟩ hmark (fun x hx => ?_) hgt.blocks.marked
      hgt.blocks.listed fun k => ?_
    · simp only [Block.stop]
      omega
    · simp only [Block.stop]
      omega
    · have := hgt.outside hx
      simp only [Block.stop] at *
      omega
    · simp
  · refine List.isChain_append.mpr ⟨hgt.loose_below, List.isChain_singleton _, ?_⟩
    intro x _ y hy
    obtain rfl := Option.some.inj hy
    exact Or.inr rfl

theorem Gap.fill_avail {i n : Nat} (hg : Gap h l i (i + n) r A) (hc : Closed l r) :
    ∃ t, (makeAvail i n).run h = some ((), t) ∧ HeapWf t (l ++ ⟨i, n, false⟩ :: r) (i :: A) ∧ h.Kept t (l ++ r) ∧
      t.fixed = h.fixed := by
  obtain ⟨hi, h4, hj, heven⟩ := hg.room
  have hb := hg.blocks
  have hout : ∀ k ∈ A, k + 4 ≤ i ∨ i + n ≤ k := by
    intro k hk
    obtain ⟨b, hbB, -, rfl, hb4, -⟩ := hb.node hk
    have := hg.outside hbB
    simp only [Block.stop] at this
    omega
  obtain ⟨t, hrun, hm, hlist, hwrote⟩ :=
    makeAvail_spec hb.listed (hb.small.2.trans (by omega)) hb.spread (by omega) (by omega) (by omega)
    (by omega) hout
  have hlen := hwrote.len
  have hsame : ∀ {c w}, c ∈ l ++ r → c.start ≤ w → w < c.stop →
      (w = c.start ∨ w = c.stop - 1 ∨ c.taken = true ∧ c.start ≤ w ∧ w < c.stop) → t.array w = h.array w := by
    intro c w hc hs he hw
    refine hwrote.same w (fun k hk => hb.off_links hc hw hk) fun hw' => ?_
    have := hg.outside hc
    omega
  have hmarked : ∀ x ∈ l ++ r, t.Marked x := by
    intro x hx
    have h2 := (hb.ok x hx).size_pos
    have hstop : x.stop = x.start + x.size := rfl
    exact (hb.marked x hx).congr (hsame hx le_rfl (by omega) (Or.inl rfl))
      (hsame hx (by omega) (by omega) (Or.inr (Or.inl rfl)))
  refine ⟨t, hrun, ⟨hb.insert hlen ?_ ⟨?_, ?_, ?_⟩ hm (fun x hx => hg.outside hx) hmarked hlist fun k => ?_, ?_, ?_⟩,
    fun x hx hxt w hs he => hsame hx hs he (Or.inr (Or.inr ⟨hxt, hs, he⟩)), hwrote.fixed⟩
  · simp only [Block.stop]
    omega
  · exact show n % 2 = 0 by omega
  · simp only [Block.stop]
    omega
  · intro _ _
    exact show 4 ≤ n by omega
  · rw [List.mem_cons, or_comm, eq_comm]
    simp
  · rw [hlen]
    exact tiles_append.mpr ⟨i, hg.below, rfl, hg.above⟩
  · refine List.isChain_append.mpr ⟨hg.loose_below,
      List.isChain_cons.mpr ⟨fun y hy => Or.inr (hc.2 y hy), hg.loose_above⟩, ?_⟩
    intro x hx y _
    exact Or.inl (hc.1 x hx)

end

end

end Kernel
