import Kernel.Heap.Calls
import Kernel.Lib.Transition
import Mathlib.Data.Set.BooleanAlgebra
import Mathlib.Data.Set.Disjoint
import Mathlib.Order.CompletePartialOrder

/-!
# The heap in every run

Any run of `malloc` and `free` after `heap::init`, with the owners of blocks
writing to them in between.
-/

namespace Kernel

open Lib Heap

/-! ## Runs -/

/-- The heap, and the pointers to blocks that `malloc` returned and nobody freed. -/
structure HeapState where
  heap : Heap
  live : List Nat

inductive HeapOp where
  | malloc (bytes : Nat)
  | free (p : Nat)
  | write (p i w : Nat)
deriving DecidableEq

/-- The header of the block that `p` points to. -/
def Heap.headerOf (h : Heap) (p : Nat) : Nat := (p - h.base) / 8 - 1

/-- The words between the header and the footer. -/
def HeapState.payload (s : HeapState) (p : Nat) : Set Nat :=
  {i | s.heap.headerOf p < i ∧ i + 1 < s.heap.headerOf p + s.heap.size (s.heap.headerOf p)}

inductive HeapStep : HeapState → HeapOp → HeapState → Prop where
  | malloc {s : HeapState} {bytes p : Nat} {h : Heap} : (malloc bytes).run s.heap = some (p, h) →
      HeapStep s (.malloc bytes) ⟨h, if p = 0 ∨ p = s.heap.base then s.live else p :: s.live⟩
  | free {s : HeapState} {p : Nat} {h : Heap} : p ∈ s.live ∨ p = 0 ∨ p = s.heap.base →
      (free p).run s.heap = some ((), h) → HeapStep s (.free p) ⟨h, s.live.erase p⟩
  | write {s : HeapState} {p i w : Nat} : p ∈ s.live → i ∈ s.payload p →
      HeapStep s (.write p i w) ⟨s.heap.set i w, s.live⟩

/-- `heap::init` ran on `bytes` bytes of memory at `base`, while `avail` still had its first value. -/
def HeapBooted (h : Heap) : Prop :=
  ∃ base bytes h₀, bytes < 2 ^ 64 ∧ base + bytes ≤ 2 ^ 64 ∧ h₀.avail = 0 ∧ (init base bytes).run h₀ = some ((), h) ∧
    h.len < 2 ^ 31

def heapSystem : System HeapState HeapOp where
  init s := HeapBooted s.heap ∧ s.live = []
  step := HeapStep

/-! ## The invariant -/

/-- The pointer that `malloc` returned for block `b`. -/
def Heap.pointer (h : Heap) (b : Block) : Nat := h.base + 8 * (b.start + 1)

/-- A taken block that is not at an end. -/
structure Used (h : Heap) (L : List Block) (b : Block) : Prop where
  mem : b ∈ L
  taken : b.taken = true
  start : b.start ≠ 0
  stop : b.stop ≠ h.len

/-- The heap is in order, and the live pointers are those of its used blocks. -/
structure HeapInv (s : HeapState) (L : List Block) (A : List Nat) : Prop where
  wf : HeapWf s.heap L A
  align : s.heap.base % 16 = 8
  fits : s.heap.base + 8 * s.heap.len ≤ 2 ^ 64
  live : ∀ p, p ∈ s.live ↔ ∃ b, Used s.heap L b ∧ s.heap.pointer b = p
  nodup : s.live.Nodup

/-! ### Boot -/

/-- The heap that `heap::init` leaves. -/
def freshBlocks (len : Nat) : List Block := [⟨0, 2, true⟩, ⟨2, len - 4, false⟩, ⟨len - 2, 2, true⟩]

theorem init_spec {h₀ h : Heap} {base bytes : Nat} (h64 : bytes < 2 ^ 64) (hfit : base + bytes ≤ 2 ^ 64) (havail :
    h₀.avail = 0)
    (hrun : (init base bytes).run h₀ = some ((), h)) (hlen : h.len < 2 ^ 31) :
    HeapWf h (freshBlocks h.len) [2] ∧ h.base % 16 = 8 ∧ h.base + 8 * h.len ≤ 2 ^ 64 := by
  obtain ⟨halign, hrun⟩ := Prog.assert_bind_some hrun
  obtain ⟨hge, hrun⟩ := Prog.assert_bind_some hrun
  obtain ⟨hdelta, hrun⟩ := Prog.assert_bind_some hrun
  obtain ⟨hbytes, hrun⟩ := Prog.assert_bind_some hrun
  obtain ⟨-, hrun⟩ := Prog.assert_bind_some hrun
  obtain ⟨hbig, hrun⟩ := Prog.assert_bind_some hrun
  rw [Prog.modify_bind_run, Prog.modify_bind_run] at hrun
  generalize hb : sub64 (add64 (add64 base 8) 15 / 16 * 16) 8 = b at *
  have hb64 : b < 2 ^ 64 := by
    rw [← hb]
    exact Nat.mod_lt _ (by omega)
  have hd : sub64 b base = b - base := sub64_eq hb64 hge
  have hr : sub64 bytes (sub64 b base) = bytes - (b - base) := by
    rw [hd, sub64_eq h64 (by omega)]
  rw [hr] at hbig hrun
  generalize hn : (bytes - (b - base)) / 16 * 16 / 8 = n at hrun
  have hroom : b + 8 * n ≤ 2 ^ 64 ∧ 10 ≤ n ∧ n % 2 = 0 := by omega
  obtain ⟨hfits, h10, heven⟩ := hroom
  -- The sentinel in front, the block between, the sentinel at the end.
  obtain ⟨t₁, h₁, hm₁, ha₁, hw₁⟩ := makeTaken_spec (h := ({ h₀ with base := b, len := n } : Heap)) (i := 0) (n := 2)
    rfl le_rfl (by omega)
  rw [Prog.bind_run h₁, Prog.get_bind_run] at hrun
  have hlen₁ : t₁.len = n := hw₁.len
  have hlisted : t₁.Listed [] := ⟨List.nodup_nil, by simp, 0, rfl, ha₁.trans havail⟩
  rw [hlen₁, sub64_eq (by omega) (by omega)] at hrun
  obtain ⟨t₂, h₂, hm₂, hlisted₂, hw₂⟩ := makeAvail_spec (i := 2) (n := n - 4) hlisted (by omega) ⟨by simp, by simp⟩
    (by omega) (by omega) (by omega) (by omega) (by simp)
  rw [Prog.bind_run h₂, Prog.get_bind_run, hw₂.len, hlen₁, sub64_eq (by omega) (by omega)] at hrun
  obtain ⟨t₃, h₃, hm₃, ha₃, hw₃⟩ := makeTaken_spec (h := t₂) (i := n - 2) (n := 2) rfl le_rfl (by omega)
  rw [h₃, Option.some.injEq, Prod.mk.injEq] at hrun
  obtain ⟨-, rfl⟩ := hrun
  have hlen₃ : t₃.len = n := hw₃.len.trans (hw₂.len.trans hlen₁)
  have hbase₃ : t₃.base = b := hw₃.base.trans (hw₂.base.trans hw₁.base)
  have hsame₃ : ∀ w, w + 2 < n → t₃.array w = t₂.array w := fun w hw => hw₃.same w (by simp) (by omega)
  have hsame₂ : ∀ w, w < 2 → t₂.array w = t₁.array w := fun w hw => hw₂.same w (by simp) (by omega)
  rw [hlen₃, hbase₃]
  have hmem : ∀ x, x ∈ freshBlocks n → x = ⟨0, 2, true⟩ ∨ x = ⟨2, n - 4, false⟩ ∨ x = ⟨n - 2, 2, true⟩ := by
    simp [freshBlocks]
  refine ⟨⟨⟨by omega, ?_, ?_, ?_, ?_, ?_, ?_⟩, ?_, ?_⟩, halign, hfits⟩
  · intro x hx
    rcases hmem x hx with rfl | rfl | rfl <;> simp only [Block.stop] <;> omega
  · intro x hx y hy
    rcases hmem x hx with rfl | rfl | rfl <;> rcases hmem y hy with rfl | rfl | rfl <;>
      simp only [Block.stop, true_or] <;> omega
  · intro x hx
    rcases hmem x hx with rfl | rfl | rfl
    · exact ⟨rfl, fun _ => ⟨rfl, rfl⟩, fun h => absurd rfl h⟩
    · refine ⟨?_, ?_, ?_⟩ <;> simp only [Block.stop] <;> omega
    · refine ⟨show 2 % 2 = 0 from rfl, fun _ => ⟨rfl, rfl⟩, fun _ h => absurd ?_ h⟩
      simp only [Block.stop]
      omega
  · intro x hx
    rcases hmem x hx with rfl | rfl | rfl
    · refine (hm₁.congr (hsame₂ _ ?_) (hsame₂ _ ?_)).congr (hsame₃ _ ?_) (hsame₃ _ ?_) <;>
        simp only [Block.stop] <;> omega
    · refine hm₂.congr (hsame₃ _ ?_) (hsame₃ _ ?_) <;> simp only [Block.stop] <;> omega
    · exact hm₃
  · rw [Heap.Listed, ha₃]
    refine Linked.congr hlisted₂ (fun k hk => hsame₃ _ ?_) (fun k hk => hsame₃ _ ?_)
    · rw [List.mem_singleton.mp hk]
      omega
    · rw [List.mem_singleton.mp hk]
      omega
  · intro k
    rw [List.mem_singleton]
    constructor
    · rintro rfl
      exact ⟨⟨2, n - 4, false⟩, List.mem_cons_of_mem _ List.mem_cons_self, rfl, rfl⟩
    · rintro ⟨x, hx, ht, rfl⟩
      rcases hmem x hx with rfl | rfl | rfl
      · cases ht
      · rfl
      · cases ht
  · refine ⟨rfl, rfl, ?_, ?_⟩ <;> simp only [Block.stop, Tiles] <;> omega
  · simp [freshBlocks, Block.Loose]

/-! ### What a live pointer means -/

section

variable {s t : HeapState} {L L' : List Block} {A A' : List Nat} {b c : Block}

theorem Used.congr (hu : Used s.heap L b) (hf : t.heap.fixed = s.heap.fixed) (hb : b ∈ L') : Used t.heap L' b :=
  ⟨hb, hu.taken, hu.start, by rw [Heap.fixed_len hf]; exact hu.stop⟩

theorem pointer_congr (hf : t.heap.fixed = s.heap.fixed) : t.heap.pointer b = s.heap.pointer b := by
  rw [Heap.pointer, Heap.pointer, Heap.fixed_base hf]

theorem HeapInv.pointer_inj (hi : HeapInv s L A) (hb : b ∈ L) (hc : c ∈ L) (hp : s.heap.pointer b = s.heap.pointer c) :
    b = c := by
  have hbpos := (hi.wf.blocks.ok b hb).size_pos
  have hcpos := (hi.wf.blocks.ok c hc).size_pos
  simp only [Heap.pointer] at hp
  rcases hi.wf.blocks.apart b hb c hc with heq | hlt | hlt
  · exact heq
  · simp only [Block.stop] at hlt
    omega
  · simp only [Block.stop] at hlt
    omega

theorem HeapInv.payload_eq (hi : HeapInv s L A) (hu : Used s.heap L b) :
    s.payload (s.heap.pointer b) = {i | b.start < i ∧ i + 1 < b.stop} := by
  have hheader : s.heap.headerOf (s.heap.pointer b) = b.start := by
    simp only [Heap.headerOf, Heap.pointer]
    omega
  have hsize := (hi.wf.blocks.marked b hu.mem).size (hi.wf.blocks.ok b hu.mem).even
  rw [HeapState.payload, hheader, hsize]
  rfl

/-- The data of pointer `p` is the same in both states. -/
structure Frames (s t : HeapState) (p : Nat) : Prop where
  live : p ∈ t.live
  payload : t.payload p = s.payload p
  same : ∀ i ∈ s.payload p, t.heap.array i = s.heap.array i

theorem HeapInv.frames (hi : HeapInv s L A) (hi' : HeapInv t L' A') (hf : t.heap.fixed = s.heap.fixed)
    (hu : Used s.heap L b) (hb : b ∈ L') (hkept : ∀ i, b.start < i → i + 1 < b.stop → t.heap.array i = s.heap.array i) :
    Frames s t (s.heap.pointer b) := by
  have hu' := hu.congr hf hb
  have hp := pointer_congr (b := b) hf
  have hpay := hi.payload_eq hu
  refine ⟨(hi'.live _).mpr ⟨b, hu', hp⟩, ?_, fun i hip => ?_⟩
  · rw [← hp, hi'.payload_eq hu', hp, hpay]
  · rw [hpay] at hip
    exact hkept i hip.1 hip.2

/-! ### The steps -/

theorem HeapInv.allocated (hi : HeapInv s L A) {entries : Nat} {h : Heap} (ha : Allocated s.heap L entries c h L' A') :
    HeapInv ⟨h, s.heap.pointer c :: s.live⟩ L' A' := by
  have hbase := Heap.fixed_base ha.fixed
  have hlen := Heap.fixed_len ha.fixed
  have hsub : ∀ {x}, Used s.heap L x → Used h L' x := fun {x} hu =>
    ⟨(ha.taken x hu.taken).mpr (Or.inl hu.mem), hu.taken, hu.start, by rw [hlen]; exact hu.stop⟩
  have hpointer : ∀ x, h.pointer x = s.heap.pointer x := fun x => by
    rw [Heap.pointer, Heap.pointer, hbase]
  refine ⟨ha.wf, by rw [hbase]; exact hi.align, by rw [hbase, hlen]; exact hi.fits, fun p => ?_, ?_⟩
  · rw [List.mem_cons, hi.live]
    constructor
    · rintro (rfl | ⟨x, hu, rfl⟩)
      · exact ⟨c, ⟨(ha.taken c ha.inner.1).mpr (Or.inr rfl), ha.inner.1, ha.inner.2.1, ha.inner.2.2⟩, hpointer c⟩
      · exact ⟨x, hsub hu, hpointer x⟩
    · rintro ⟨x, hu, rfl⟩
      rcases (ha.taken x hu.taken).mp hu.mem with hx | rfl
      · exact Or.inr ⟨x, ⟨hx, hu.taken, hu.start, by rw [← hlen]; exact hu.stop⟩, (hpointer x).symm⟩
      · exact Or.inl (hpointer x)
  · refine List.nodup_cons.mpr ⟨fun hmem => ?_, hi.nodup⟩
    obtain ⟨x, hu, hp⟩ := (hi.live _).mp hmem
    have := ha.fresh x hu.mem hu.taken
    simp only [Heap.pointer] at hp
    omega

theorem HeapInv.malloc (hi : HeapInv s L A) {bytes p : Nat} {h : Heap}
    (hrun : (malloc bytes).run s.heap = some (p, h)) :
    ∃ L' A', HeapInv ⟨h, if p = 0 ∨ p = s.heap.base then s.live else p :: s.live⟩ L' A' ∧
      ∀ q ∈ s.live, Frames s ⟨h, if p = 0 ∨ p = s.heap.base then s.live else p :: s.live⟩ q := by
  by_cases hbytes : bytes = 0
  · rw [Heap.malloc, Prog.get_bind_run, if_pos hbytes, Prog.run_pure] at hrun
    obtain ⟨rfl, rfl⟩ := hrun
    rw [if_pos (Or.inr rfl)]
    exact ⟨L, A, hi, fun q hq => ⟨hq, rfl, fun _ _ => rfl⟩⟩
  rcases malloc_returns hi.wf hi.fits hbytes with ⟨t, c, l, b, r, A', hrun', -, -, -, -, ha⟩ | ⟨hrun', -⟩
  · rw [hrun', Option.some.injEq, Prod.mk.injEq] at hrun
    obtain ⟨rfl, rfl⟩ := hrun
    have hnot : ¬ (s.heap.pointer c = 0 ∨ s.heap.pointer c = s.heap.base) := by
      simp only [Heap.pointer]
      omega
    have hpc : s.heap.base + 8 * (c.start + 1) = s.heap.pointer c := rfl
    rw [hpc, if_neg hnot]
    have hi' := hi.allocated ha
    refine ⟨_, A', hi', fun q hq => ?_⟩
    obtain ⟨x, hu, rfl⟩ := (hi.live q).mp hq
    refine hi.frames hi' ha.fixed hu ((ha.taken x hu.taken).mpr (Or.inl hu.mem)) fun i h₁ h₂ => ?_
    exact ha.kept x hu.mem hu.taken i (by omega) (by omega)
  · rw [hrun', Option.some.injEq, Prod.mk.injEq] at hrun
    obtain ⟨rfl, rfl⟩ := hrun
    rw [if_pos (Or.inl rfl)]
    exact ⟨L, A, hi, fun q hq => ⟨hq, rfl, fun _ _ => rfl⟩⟩

theorem HeapInv.released (hi : HeapInv s L A) {h : Heap} (hu : Used s.heap L b) (hr : Released s.heap L b h L' A') :
    HeapInv ⟨h, s.live.erase (s.heap.pointer b)⟩ L' A' := by
  have hbase := Heap.fixed_base hr.fixed
  have hlen := Heap.fixed_len hr.fixed
  have hpointer : ∀ x, h.pointer x = s.heap.pointer x := fun x => by
    rw [Heap.pointer, Heap.pointer, hbase]
  refine ⟨hr.wf, by rw [hbase]; exact hi.align, by rw [hbase, hlen]; exact hi.fits, fun p => ?_, hi.nodup.erase _⟩
  rw [hi.nodup.mem_erase_iff, hi.live]
  constructor
  · rintro ⟨hne, x, hx, rfl⟩
    refine ⟨x, ⟨(hr.taken x hx.taken).mpr ⟨hx.mem, ?_⟩, hx.taken, hx.start, by rw [hlen]; exact hx.stop⟩, hpointer x⟩
    rintro rfl
    exact hne rfl
  · rintro ⟨x, hx, rfl⟩
    obtain ⟨hxL, hne⟩ := (hr.taken x hx.taken).mp hx.mem
    rw [hpointer]
    refine ⟨fun e => hne (hi.pointer_inj hxL hu.mem e), x,
      ⟨hxL, hx.taken, hx.start, by rw [← hlen]; exact hx.stop⟩, rfl⟩

theorem HeapInv.free (hi : HeapInv s L A) {p : Nat} {h : Heap} (hp : p ∈ s.live ∨ p = 0 ∨ p = s.heap.base)
    (hrun : (free p).run s.heap = some ((), h)) :
    ∃ L' A', HeapInv ⟨h, s.live.erase p⟩ L' A' ∧ ∀ q ∈ s.live, q ≠ p → Frames s ⟨h, s.live.erase p⟩ q := by
  by_cases hlive : p ∈ s.live
  · obtain ⟨b, hu, rfl⟩ := (hi.live p).mp hlive
    obtain ⟨t, L', A', hrun', hr⟩ := free_returns hi.wf hi.fits hu.mem hu.taken hu.start hu.stop
    rw [Heap.pointer, hrun', Option.some.injEq, Prod.mk.injEq] at hrun
    obtain ⟨-, rfl⟩ := hrun
    have hi' := hi.released hu hr
    refine ⟨L', A', hi', fun q hq hne => ?_⟩
    obtain ⟨x, hx, rfl⟩ := (hi.live q).mp hq
    have hxb : x ≠ b := fun e => hne (e ▸ rfl)
    refine hi.frames hi' hr.fixed hx ((hr.taken x hx.taken).mpr ⟨hx.mem, hxb⟩) fun i h₁ h₂ => ?_
    exact hr.kept x hx.mem hxb hx.taken i (by omega) (by omega)
  · have hsame : h = s.heap := by
      rw [Heap.free, Prog.get_bind_run] at hrun
      rcases hp.resolve_left hlive with rfl | rfl
      · rw [if_pos rfl, Prog.run_pure] at hrun
        exact hrun.2
      · by_cases h0 : s.heap.base = 0
        · rw [if_pos h0, Prog.run_pure] at hrun
          exact hrun.2
        · rw [if_neg h0, if_pos rfl, Prog.run_pure] at hrun
          exact hrun.2
    rw [hsame, List.erase_of_not_mem hlive]
    exact ⟨L, A, hi, fun q hq _ => ⟨hq, rfl, fun _ _ => rfl⟩⟩

theorem HeapInv.write (hi : HeapInv s L A) {p i w : Nat} (hp : p ∈ s.live) (hip : i ∈ s.payload p) :
    HeapInv ⟨s.heap.set i w, s.live⟩ L A ∧ ∀ q ∈ s.live, q ≠ p → Frames s ⟨s.heap.set i w, s.live⟩ q := by
  obtain ⟨b, hu, rfl⟩ := (hi.live p).mp hp
  rw [hi.payload_eq hu] at hip
  obtain ⟨his, hie⟩ := hip
  have hb := hi.wf.blocks
  have hother : ∀ {x j}, x ∈ L → (j = x.start ∨ j = x.stop - 1 ∨ x ≠ b ∧ x.start ≤ j ∧ j < x.stop) →
      (s.heap.set i w).array j = s.heap.array j := by
    intro x j hx hj
    rw [set_array, if_neg]
    rintro rfl
    have := (hb.ok x hx).size_pos
    rcases hb.apart x hx b hu.mem with rfl | hlt | hlt
    · rcases hj with hj | hj | ⟨hne, -⟩
      · omega
      · omega
      · exact hne rfl
    · simp only [Block.stop] at *
      omega
    · simp only [Block.stop] at *
      omega
  have hlinks : ∀ k ∈ A, i ≠ k + 1 ∧ i ≠ k + 2 := fun k hk =>
    hb.off_links hu.mem (Or.inr (Or.inr ⟨hu.taken, by omega, by omega⟩)) hk
  have hwf : HeapWf (s.heap.set i w) L A := by
    refine ⟨⟨hb.small, hb.inside, hb.apart, hb.ok, fun x hx => ?_, ?_, hb.avail⟩, hi.wf.tiles, hi.wf.loose⟩
    · exact (hb.marked x hx).congr (hother hx (Or.inl rfl)) (hother hx (Or.inr (Or.inl rfl)))
    · refine Linked.congr hb.listed (fun k hk => ?_) fun k hk => ?_
      · exact if_neg (hlinks k hk).1.symm
      · exact if_neg (hlinks k hk).2.symm
  have hi' : HeapInv ⟨s.heap.set i w, s.live⟩ L A := by
    refine ⟨hwf, hi.align, hi.fits, fun p => ?_, hi.nodup⟩
    rw [hi.live]
    exact exists_congr fun x => and_congr_left fun _ =>
      ⟨fun hx => ⟨hx.mem, hx.taken, hx.start, hx.stop⟩, fun hx => ⟨hx.mem, hx.taken, hx.start, hx.stop⟩⟩
  refine ⟨hi', fun q hq hne => ?_⟩
  obtain ⟨x, hx, rfl⟩ := (hi.live q).mp hq
  have hxb : x ≠ b := fun e => hne (e ▸ rfl)
  exact hi.frames hi' rfl hx hx.mem fun j h₁ h₂ => hother hx.mem (Or.inr (Or.inr ⟨hxb, by omega, by omega⟩))

theorem HeapInv.step (hi : HeapInv s L A) {op : HeapOp} (hstep : HeapStep s op t) :
    ∃ L' A', HeapInv t L' A' ∧ ∀ q ∈ s.live, op ≠ .free q → (∀ i w, op ≠ .write q i w) → Frames s t q := by
  cases hstep with
  | malloc hrun =>
    obtain ⟨L', A', hi', hframes⟩ := hi.malloc hrun
    exact ⟨L', A', hi', fun q hq _ _ => hframes q hq⟩
  | @free p h hp hrun =>
    obtain ⟨L', A', hi', hframes⟩ := hi.free hp hrun
    exact ⟨L', A', hi', fun q hq hne _ => hframes q hq fun e => hne (e ▸ rfl)⟩
  | @write p i w hp hip =>
    obtain ⟨hi', hframes⟩ := hi.write (w := w) hp hip
    exact ⟨L, A, hi', fun q hq _ hne => hframes q hq fun e => hne i w (e ▸ rfl)⟩

theorem HeapInv.run (hi : HeapInv s L A) {ops : List HeapOp} (hrun : heapSystem.Run s ops t) :
    ∃ L' A', HeapInv t L' A' ∧
      ∀ p ∈ s.live, .free p ∉ ops → (∀ i w, .write p i w ∉ ops) → Frames s t p := by
  induction hrun with
  | nil => exact ⟨L, A, hi, fun p hp _ _ => ⟨hp, rfl, fun _ _ => rfl⟩⟩
  | snoc _ hstep ih =>
    obtain ⟨L₁, A₁, hi₁, hframes₁⟩ := ih
    obtain ⟨L₂, A₂, hi₂, hframes₂⟩ := hi₁.step hstep
    refine ⟨L₂, A₂, hi₂, fun p hp hfree hwrite => ?_⟩
    have h₁ := hframes₁ p hp (fun h => hfree (List.mem_append_left _ h))
      fun i w h => hwrite i w (List.mem_append_left _ h)
    have h₂ := hframes₂ p h₁.live (fun e => hfree (by simp [e])) fun i w e => hwrite i w (by simp [e])
    refine ⟨h₂.live, h₂.payload.trans h₁.payload, fun i hip => ?_⟩
    rw [h₂.same i (h₁.payload ▸ hip), h₁.same i hip]

theorem heapInv_of_reachable (h : heapSystem.Reachable s) : ∃ L A, HeapInv s L A := by
  obtain ⟨s₀, ops, ⟨⟨base, bytes, h₀, h64, hfit, havail, hinit, hlen⟩, hlive⟩, hrun⟩ := h
  refine hrun.preserves (I := fun s => ∃ L A, HeapInv s L A) ?_ ?_
  · rintro s op t ⟨L, A, hi⟩ hstep
    obtain ⟨L', A', hi', -⟩ := hi.step hstep
    exact ⟨L', A', hi'⟩
  · obtain ⟨hwf, halign, hfits⟩ := init_spec h64 hfit havail hinit hlen
    refine ⟨_, _, hwf, halign, hfits, fun p => ?_, by rw [hlive]; exact List.nodup_nil⟩
    rw [hlive]
    refine ⟨fun h => absurd h (by simp), ?_⟩
    rintro ⟨b, hu, -⟩
    have hb := hu.mem
    have ht := hu.taken
    simp only [freshBlocks, List.mem_cons, List.not_mem_nil, or_false] at hb
    rcases hb with rfl | rfl | rfl
    · exact absurd rfl hu.start
    · cases ht
    · refine absurd ?_ hu.stop
      have := hwf.blocks.small.1
      simp only [Block.stop]
      omega

/-! ## The blocks in every run -/

/-- The array is tiled by blocks, and the list goes through the available ones. -/
structure HeapTiled (h : Heap) (L : List Block) (A : List Nat) : Prop where
  tiles : Tiles 0 h.len L
  first : L.head? = some ⟨0, 2, true⟩
  last : L.getLast? = some ⟨h.len - 2, 2, true⟩
  even : ∀ b ∈ L, b.size % 2 = 0
  large : ∀ b ∈ L, b.start ≠ 0 → b.stop ≠ h.len → 4 ≤ b.size
  /-- The header and the footer are both the size plus the taken bit. -/
  marked : ∀ b ∈ L, h.Marked b
  /-- Of two neighbours one is taken. -/
  loose : L.IsChain Block.Loose
  /-- `next` and `prev` link the nodes of `A` from `avail`, each node once. -/
  listed : Linked (fun i => h.array (i + 1)) (fun i => h.array (i + 2)) 0 h.avail A
  avail : ∀ i, i ∈ A ↔ ∃ b ∈ L, b.taken = false ∧ b.start = i

theorem HeapWf.first {h : Heap} (hw : HeapWf h L A) : ∃ l, L = ⟨0, 2, true⟩ :: l := by
  have hsmall := hw.blocks.small
  have htiles := hw.tiles
  cases L with
  | nil =>
    have : 0 = h.len := htiles
    omega
  | cons b l =>
    obtain ⟨hsize, ht⟩ := (hw.blocks.ok b List.mem_cons_self).sentinel (Or.inl htiles.1)
    have hstart := htiles.1
    exact ⟨l, by rw [← hstart, ← hsize, ← ht]⟩

theorem HeapWf.last {h : Heap} (hw : HeapWf h L A) : ∃ l, L = l ++ [⟨h.len - 2, 2, true⟩] := by
  have hsmall := hw.blocks.small
  have htiles := hw.tiles
  rcases List.eq_nil_or_concat L with rfl | ⟨l, b, rfl⟩
  · have : 0 = h.len := htiles
    omega
  · rw [List.concat_eq_append] at *
    obtain ⟨k, -, -, hstop⟩ := tiles_append.mp htiles
    have hstop : b.stop = h.len := hstop
    obtain ⟨hsize, ht⟩ := (hw.blocks.ok b (by simp)).sentinel (Or.inr hstop)
    refine ⟨l, ?_⟩
    have hstart : h.len - 2 = b.start := by
      simp only [Block.stop] at hstop
      omega
    rw [hstart, ← hsize, ← ht]

theorem HeapWf.tiled {h : Heap} (hw : HeapWf h L A) : HeapTiled h L A := by
  have hb := hw.blocks
  refine ⟨hw.tiles, ?_, ?_, fun b hbL => (hb.ok b hbL).even, fun b hbL => (hb.ok b hbL).inner, hb.marked, hw.loose,
    hb.listed, hb.avail⟩
  · obtain ⟨l, rfl⟩ := hw.first
    rfl
  · obtain ⟨l, hl⟩ := hw.last
    rw [hl, List.getLast?_concat]

theorem HeapWf.fresh {h : Heap} (hw : HeapWf h L A) (hnone : ∀ b, ¬ Used h L b) : L = freshBlocks h.len := by
  have hsmall := hw.blocks.small
  have hfree : ∀ b ∈ L, b.start ≠ 0 → b.stop ≠ h.len → b.taken = false := by
    intro b hbL hs he
    by_contra ht
    exact hnone b ⟨hbL, by simpa using ht, hs, he⟩
  obtain ⟨l, rfl⟩ := hw.first
  have hok := hw.blocks.ok
  obtain ⟨-, htiles⟩ := hw.tiles
  have htiles : Tiles 2 h.len l := htiles
  have hloose := (List.isChain_cons.mp hw.loose).2
  cases l with
  | nil =>
    have : 2 = h.len := htiles
    omega
  | cons b l =>
    obtain ⟨hs, htiles⟩ := htiles
    have hbok := hok b (by simp)
    have hbstop : b.stop ≠ h.len := fun e => by
      have := (hbok.sentinel (Or.inr e)).1
      simp only [Block.stop] at e
      omega
    have hbt := hfree b (by simp) (by omega) hbstop
    cases l with
    | nil => exact absurd htiles hbstop
    | cons c l =>
      obtain ⟨hcs, htiles⟩ := htiles
      have hcok := hok c (by simp)
      have hct : c.taken = true := by
        have := (List.isChain_cons.mp hloose).1 c rfl
        exact this.resolve_left (by simp [hbt])
      have hbpos := hbok.size_pos
      have hcstop : c.stop = h.len := by
        by_contra hne
        have := hfree c (by simp) (by simp only [Block.stop] at hcs; omega) hne
        simp [hct] at this
      have hcsize := (hcok.sentinel (Or.inr hcstop)).1
      cases l with
      | nil =>
        simp only [Block.stop] at hcs hcstop
        have hb : b = ⟨2, h.len - 4, false⟩ := by
          rw [← hs, ← hbt]
          have : h.len - 4 = b.size := by omega
          rw [this]
        have hc : c = ⟨h.len - 2, 2, true⟩ := by
          rw [← hcsize, ← hct]
          have : h.len - c.size = c.start := by omega
          rw [this]
        rw [hb, hc]
        rfl
      | cons d l =>
        obtain ⟨hds, htiles⟩ := htiles
        have hdpos := (hok d (by simp)).size_pos
        have hle := htiles.le
        simp only [Block.stop] at *
        omega

/-- **Blocks.** In every run the array is tiled by blocks, and once every pointer is freed it is one available
block again. The calls return. -/
theorem heap_tiled (h : heapSystem.Reachable s) :
    (∃ L A, HeapTiled s.heap L A ∧ (s.live = [] → L = freshBlocks s.heap.len)) ∧
    (∀ bytes, ∃ p t, (malloc bytes).run s.heap = some (p, t)) ∧
    ∀ p ∈ s.live, ∃ t, (free p).run s.heap = some ((), t) := by
  obtain ⟨L, A, hi⟩ := heapInv_of_reachable h
  refine ⟨⟨L, A, hi.wf.tiled, fun hlive => hi.wf.fresh fun b hu => ?_⟩, fun bytes => ?_, fun p hp => ?_⟩
  · have := (hi.live _).mpr ⟨b, hu, rfl⟩
    rw [hlive] at this
    cases this
  · by_cases hbytes : bytes = 0
    · refine ⟨s.heap.base, s.heap, ?_⟩
      rw [Heap.malloc, Prog.get_bind_run, if_pos hbytes]
      rfl
    · rcases malloc_returns hi.wf hi.fits hbytes with ⟨t, c, l, b, r, A', hrun, -⟩ | ⟨hrun, -⟩
      · exact ⟨_, t, hrun⟩
      · exact ⟨_, _, hrun⟩
  · obtain ⟨b, hu, rfl⟩ := (hi.live p).mp hp
    obtain ⟨t, -, -, hrun, -⟩ := free_returns hi.wf hi.fits hu.mem hu.taken hu.start hu.stop
    exact ⟨t, hrun⟩

theorem reachable_malloc {h h' : Heap} {live : List Nat} {bytes p : Nat} (hs : heapSystem.Reachable ⟨h, live⟩)
    (hrun : (malloc bytes).run h = some (p, h')) (hp : p ≠ 0) (hbase : p ≠ h.base) :
    heapSystem.Reachable ⟨h', p :: live⟩ := by
  have hstep := HeapStep.malloc (s := ⟨h, live⟩) hrun
  rw [if_neg (not_or.mpr ⟨hp, hbase⟩)] at hstep
  exact hs.step hstep

/-- Three blocks fill the heap, and the one between the others is freed. -/
def smallCalls : H (List Nat) := do
  init 8 128
  let h₀ ← get
  let a ← malloc 8
  let h₁ ← get
  let b ← malloc 8
  let h₂ ← get
  let c ← malloc 8
  free b
  pure [h₀.len, a, h₀.base, b, h₁.base, c, h₂.base]

theorem smallHeap_reachable : ∃ s, heapSystem.Reachable s ∧ s.live = [96, 32] := by
  have hcalls : (smallCalls.run ⟨0, fun _ => 0, 0, 0, 0, 0⟩).map Prod.fst = some [16, 32, 8, 64, 8, 96, 8] := by
    decide +kernel
  obtain ⟨⟨l, h⟩, hrun, hl⟩ := Option.map_eq_some_iff.mp hcalls
  obtain ⟨_, h₀, hinit, hrun⟩ := Prog.run_bind.mp hrun
  rw [Prog.get_bind_run] at hrun
  obtain ⟨a, h₁, hmalloc₁, hrun⟩ := Prog.run_bind.mp hrun
  rw [Prog.get_bind_run] at hrun
  obtain ⟨b, h₂, hmalloc₂, hrun⟩ := Prog.run_bind.mp hrun
  rw [Prog.get_bind_run] at hrun
  obtain ⟨c, h₃, hmalloc₃, hrun⟩ := Prog.run_bind.mp hrun
  obtain ⟨_, h₄, hfree, hrun⟩ := Prog.run_bind.mp hrun
  obtain ⟨rfl, rfl⟩ := Prog.run_pure.mp hrun
  simp only [List.cons.injEq, and_true] at hl
  obtain ⟨hlen, rfl, hbase₀, rfl, hbase₁, rfl, hbase₂⟩ := hl
  have hboot : HeapBooted h₀ := ⟨8, 128, _, by decide, by decide, rfl, hinit, by rw [hlen]; decide⟩
  have hr₀ : heapSystem.Reachable ⟨h₀, []⟩ := ⟨_, _, ⟨hboot, rfl⟩, .nil _⟩
  have hr₁ := reachable_malloc hr₀ hmalloc₁ (by decide) (by rw [hbase₀]; decide)
  have hr₂ := reachable_malloc hr₁ hmalloc₂ (by decide) (by rw [hbase₁]; decide)
  have hr₃ := reachable_malloc hr₂ hmalloc₃ (by decide) (by rw [hbase₂]; decide)
  have hlive : 64 ∈ [96, 64, 32] := by decide
  exact ⟨_, hr₃.step (.free (Or.inl hlive) hfree), rfl⟩

theorem smallHeap_tiled : ∃ (s : HeapState) (L : List Block) (A : List Nat),
    s.live = [96, 32] ∧ HeapTiled s.heap L A := by
  obtain ⟨s, hs, hlive⟩ := smallHeap_reachable
  obtain ⟨⟨L, A, htiled, -⟩, -⟩ := heap_tiled hs
  exact ⟨s, L, A, hlive, htiled⟩

/-! ## Data in every run -/

theorem HeapInv.payload_off (hi : HeapInv s L A) {p i : Nat} (hp : p ∈ s.live) (hip : i ∈ s.payload p) {b : Block}
    (hb : b ∈ L) : i ≠ b.start ∧ i ≠ b.stop - 1 := by
  obtain ⟨c, hu, rfl⟩ := (hi.live p).mp hp
  rw [hi.payload_eq hu] at hip
  obtain ⟨his, hie⟩ := hip
  have := (hi.wf.blocks.ok b hb).size_pos
  rcases hi.wf.blocks.apart b hb c hu.mem with rfl | hlt | hlt
  · omega
  · simp only [Block.stop] at *
    omega
  · simp only [Block.stop] at *
    omega

theorem HeapInv.payload_disjoint (hi : HeapInv s L A) {p q : Nat} (hp : p ∈ s.live) (hq : q ∈ s.live) (hpq : p ≠ q) :
    Disjoint (s.payload p) (s.payload q) := by
  obtain ⟨b, hb, rfl⟩ := (hi.live p).mp hp
  obtain ⟨c, hc, rfl⟩ := (hi.live q).mp hq
  rw [hi.payload_eq hb, hi.payload_eq hc]
  refine Set.disjoint_left.mpr ?_
  rintro i ⟨h₁, h₂⟩ ⟨h₃, h₄⟩
  rcases hi.wf.blocks.apart b hb.mem c hc.mem with rfl | hlt | hlt
  · exact hpq rfl
  · omega
  · omega

theorem HeapInv.pointer_align (hi : HeapInv s L A) (hb : b ∈ L) : s.heap.pointer b % 16 = 0 := by
  have halign := hi.align
  have heven : b.start % 2 = 0 := by
    obtain ⟨l, r, rfl⟩ := List.append_of_mem hb
    obtain ⟨k, hl, rfl, -⟩ := tiles_append.mp hi.wf.tiles
    have : ∀ {i j : Nat} {l : List Block}, (∀ x ∈ l, x.size % 2 = 0) → Tiles i j l → i % 2 = 0 → j % 2 = 0 := by
      intro i j l
      induction l generalizing i with
      | nil =>
        rintro - rfl h
        exact h
      | cons x l ih =>
        rintro hok ⟨rfl, htiles⟩ h
        have := hok x List.mem_cons_self
        refine ih (fun y hy => hok y (List.mem_cons_of_mem _ hy)) htiles ?_
        simp only [Block.stop]
        omega
    exact this (fun x hx => (hi.wf.blocks.ok x (List.mem_append_left _ hx)).even) hl rfl
  simp only [Heap.pointer]
  omega

/-- **Non-interference.** In every run the payloads are disjoint and hold no header and no footer, pointers
are aligned, and a payload stays as it is until its owner writes to it or frees it. -/
theorem heap_apart (h : heapSystem.Reachable s) :
    (∀ p ∈ s.live, ∀ q ∈ s.live, p ≠ q → Disjoint (s.payload p) (s.payload q)) ∧
    (∃ L A, HeapTiled s.heap L A ∧ ∀ p ∈ s.live, ∀ i ∈ s.payload p, ∀ b ∈ L, i ≠ b.start ∧ i ≠ b.stop - 1) ∧
    (∀ p ∈ s.live, p % 16 = 0) ∧
    (∀ bytes p t, bytes ≠ 0 → (malloc bytes).run s.heap = some (p, t) → p % 16 = 0) ∧
    ∀ ops t, heapSystem.Run s ops t → ∀ p ∈ s.live, .free p ∉ ops → (∀ i w, .write p i w ∉ ops) →
      p ∈ t.live ∧ t.payload p = s.payload p ∧ ∀ i ∈ s.payload p, t.heap.array i = s.heap.array i := by
  obtain ⟨L, A, hi⟩ := heapInv_of_reachable h
  refine ⟨fun p hp q hq => hi.payload_disjoint hp hq,
    ⟨L, A, hi.wf.tiled, fun p hp i hip b hb => hi.payload_off hp hip hb⟩,
    fun p hp => ?_, fun bytes p t hne hrun => ?_, fun ops t hrun p hp hfree hwrite => ?_⟩
  · obtain ⟨b, hu, rfl⟩ := (hi.live p).mp hp
    exact hi.pointer_align hu.mem
  · rcases malloc_returns hi.wf hi.fits hne with ⟨u, c, l, b, r, A', hrun', -, -, -, -, ha⟩ | ⟨hrun', -⟩
    · rw [hrun', Option.some.injEq, Prod.mk.injEq] at hrun
      obtain ⟨rfl, -⟩ := hrun
      have hi' := hi.allocated ha
      have := hi'.pointer_align ((ha.taken c ha.inner.1).mpr (Or.inr rfl))
      rwa [Heap.pointer, Heap.fixed_base ha.fixed] at this
    · rw [hrun', Option.some.injEq, Prod.mk.injEq] at hrun
      rw [← hrun.1]
  · obtain ⟨-, -, -, hframes⟩ := hi.run hrun
    obtain ⟨hlive, hpay, hsame⟩ := hframes p hp hfree hwrite
    exact ⟨hlive, hpay, hsame⟩

theorem smallHeap_apart : ∃ s : HeapState, s.live = [96, 32] ∧ Disjoint (s.payload 96) (s.payload 32) ∧
    ∀ ops t, heapSystem.Run s ops t → .free 32 ∉ ops → (∀ i w, .write 32 i w ∉ ops) →
      ∀ i ∈ s.payload 32, t.heap.array i = s.heap.array i := by
  obtain ⟨s, hs, hlive⟩ := smallHeap_reachable
  obtain ⟨hdisjoint, -, -, -, hkept⟩ := heap_apart hs
  have h32 : 32 ∈ s.live := by simp [hlive]
  exact ⟨s, hlive, hdisjoint 96 (by simp [hlive]) 32 h32 (by decide),
    fun ops t hrun hfree hwrite => (hkept ops t hrun 32 h32 hfree hwrite).2.2⟩

end

end Kernel
