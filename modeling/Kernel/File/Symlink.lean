import Kernel.File.Stores
import Mathlib.Data.List.GetD

/-!
# Symbolic links (`Node::get_symbol`)

A short target lies in the inode, over the block pointers. A longer one is the
content of the node.
-/

namespace Kernel

open Lib

/-- A node with all of the 128 bytes that `get_node` reads. -/
structure RawNode where
  number : Nat
  block_size : Nat
  raw : List Byte
  device : BlockIO
  raw_length : raw.length = 128

def RawNode.node (node : RawNode) : Node := ⟨node.number, node.block_size, NodeData.ofBytes node.raw, node.device⟩

/-- The bytes from `&data.direct0` on. -/
def RawNode.direct0 (node : RawNode) : List Byte := node.raw.drop 40

def NodeData.is_symlink (data : NodeData) : Bool := data.get_type = 0xa

def RawNode.get_symbol (node : RawNode) (buffer : Nat) : Prog Memory Unit := do
  Prog.assert node.node.data.is_symlink
  let sz := node.node.data.size_low
  if sz ≤ 60 then memcpy buffer (node.direct0.take sz)
  else do
    let cnt ← node.node.io.read_all 0 sz buffer
    Prog.assert (cnt = sz)

/-- The layout of a symbolic link: a target of fewer than 60 bytes is in the inode, any other in data blocks. -/
structure RawNode.LinksTo (node : RawNode) (target : List Byte) : Prop where
  is_symlink : node.node.data.is_symlink = true
  size : node.node.data.size_low = target.length
  short : target.length < 60 → node.direct0.take target.length = target
  long : 60 ≤ target.length → ∃ content, node.node.Stores content ∧ bytesOf content 0 target.length = target

/-- `get_symbol` fills the buffer with the target, and nothing else is written. -/
def RawNode.ReadsTarget (node : RawNode) (target : List Byte) : Prop :=
  ∀ buffer m, (node.get_symbol buffer).run m = some ((), m.fill buffer target.length fun i => target.getD i 0)

section

variable {node : RawNode} {content : Nat → Byte} {target : List Byte} {buffer : Nat} {m : Memory}

theorem fill_bytes_inj {s t : List Byte} (hlen : s.length = t.length) :
    (m.fill buffer s.length fun i => s.getD i 0) = (m.fill buffer t.length fun i => t.getD i 0) ↔ s = t := by
  constructor
  · intro h
    refine List.ext_getElem hlen fun i hs ht => ?_
    have hi := congrFun h (buffer + i)
    rw [Memory.fill_self _ hs, Memory.fill_self _ ht] at hi
    simpa [hs, ht] using hi
  · rintro rfl
    rfl

theorem RawNode.length_direct0 : node.direct0.length = 88 := by
  unfold RawNode.direct0
  rw [List.length_drop, node.raw_length]

theorem RawNode.get_symbol_short (hlink : node.node.data.is_symlink = true) (hsz : node.node.data.size_low ≤ 60) :
    (node.get_symbol buffer).run m = some ((), m.fill buffer node.node.data.size_low fun i =>
      (node.direct0.take node.node.data.size_low).getD i 0) := by
  have hlen : (node.direct0.take node.node.data.size_low).length = node.node.data.size_low := by
    rw [List.length_take, RawNode.length_direct0]
    omega
  unfold RawNode.get_symbol
  rw [Prog.assert_bind_run hlink, if_pos hsz, memcpy_run, hlen]

theorem RawNode.get_symbol_long (hlink : node.node.data.is_symlink = true) (hsz : 60 < node.node.data.size_low)
    (h : node.node.Stores content) (hblock : node.node.data.size_low ≤ node.block_size) :
    (node.get_symbol buffer).run m = some ((), m.fill buffer node.node.data.size_low content) := by
  have hreach : node.node.data.size_low ≤ node.node.reach := by
    have hle : 1 * node.block_size ≤ node.node.reach := Nat.mul_le_mul_right _ (by omega)
    omega
  have hread : (node.node.io.read_all 0 node.node.data.size_low buffer).run m = _ :=
    h.deliversTo.read_all_run (by omega) m
  unfold RawNode.get_symbol
  rw [Prog.assert_bind_run hlink, if_neg (by omega), Prog.bind_run hread]
  refine Prog.run_assert.mpr ⟨rfl, ?_⟩
  refine Memory.fill_congr fun i hi => ?_
  rw [Nat.zero_add, h.byte hi (by omega)]

theorem direct0_has_nul {content : Nat → Byte} (h : node.node.Stores content) : 0 ∈ node.direct0.take 60 := by
  obtain ⟨k, hk⟩ := h.block_size
  have hdirect := h.direct 0 (by omega)
  have hsize := h.device.size_lt
  have hbs : 1024 ≤ node.node.block_size := by
    rw [hk, Nat.pow_add]
    exact Nat.le_mul_of_pos_left _ (Nat.pow_pos (by omega))
  have hnumber : node.node.data.direct 0 < 2 ^ 22 := by
    have hmul := Nat.mul_le_mul_left (node.node.data.direct 0 + 1) hbs
    omega
  have hlen := node.length_direct0
  match hraw : node.direct0, hlen with
  | b₀ :: b₁ :: b₂ :: b₃ :: rest, _ =>
    have hvalue : node.node.data.direct 0 = little [b₀, b₁, b₂, b₃] := by
      show little ((node.raw.drop 40).take 4) = _
      have hdrop : node.raw.drop 40 = b₀ :: b₁ :: b₂ :: b₃ :: rest := hraw
      rw [hdrop]
      rfl
    have hlittle : little [b₀, b₁, b₂, b₃] =
        b₀.toNat + 256 * (b₁.toNat + 256 * (b₂.toNat + 256 * (b₃.toNat + 256 * 0))) := rfl
    have hzero : b₃ = 0 := BitVec.eq_of_toNat_eq (by
      show b₃.toNat = 0
      omega)
    rw [hzero]
    simp

end

variable {node : RawNode} {target : List Byte}

/--
A target is read unless it has 60 bytes: those are looked for in the inode, where the block pointers are. A name
cannot be spelled by them, as it has no NUL.
-/
theorem get_symbol_iff (h : node.LinksTo target) (hpos : 1 ≤ target.length) (hblock : target.length ≤ node.block_size) :
    (node.ReadsTarget target ↔ (target.length = 60 → node.direct0.take 60 = target)) ∧
    (0 ∉ target → (node.ReadsTarget target ↔ target.length ≠ 60)) := by
  have hsize := h.size
  have hiff : node.ReadsTarget target ↔ (target.length = 60 → node.direct0.take 60 = target) := by
    unfold RawNode.ReadsTarget
    rcases Nat.lt_or_ge 60 target.length with hlong | hshort
    · obtain ⟨content, hstores, hbytes⟩ := h.long (by omega)
      refine ⟨fun _ h60 => absurd h60 (by omega), fun _ buffer m => ?_⟩
      rw [RawNode.get_symbol_long h.is_symlink (by omega) hstores (by omega), hsize]
      refine congrArg (fun u => some ((), u)) (Memory.fill_congr fun i hi => ?_)
      rw [← hbytes]
      unfold bytesOf
      simp [hi]
    · have hrun : ∀ buffer m, (node.get_symbol buffer).run m = some ((), m.fill buffer target.length fun i =>
          (node.direct0.take target.length).getD i 0) := fun buffer m => by
        rw [RawNode.get_symbol_short h.is_symlink (by omega), hsize]
      have hlen : (node.direct0.take target.length).length = target.length := by
        rw [List.length_take, RawNode.length_direct0]
        omega
      have hfill : ∀ buffer (m : Memory), (m.fill buffer target.length fun i =>
          (node.direct0.take target.length).getD i 0) = (m.fill buffer target.length fun i => target.getD i 0) ↔
          node.direct0.take target.length = target := fun buffer m => by
        have hinj := @fill_bytes_inj buffer m _ _ hlen
        rwa [hlen] at hinj
      simp only [hrun, Option.some.injEq, Prod.mk.injEq, true_and, hfill, forall_const]
      rcases Nat.lt_or_ge target.length 60 with hlt | hge
      · exact ⟨fun _ h60 => absurd h60 (by omega), fun _ => h.short hlt⟩
      · have h60 : target.length = 60 := by omega
        rw [h60]
        exact ⟨fun heq _ => heq, fun heq => heq rfl⟩
  refine ⟨hiff, fun hnul => hiff.trans ⟨fun hspell h60 => ?_, fun hne h60 => absurd h60 hne⟩⟩
  obtain ⟨content, hstores, -⟩ := h.long (by omega)
  rw [← hspell h60] at hnul
  exact hnul (direct0_has_nul hstores)

/-! ## A target of 60 bytes -/

/-- The inode of a link whose target, if it has a block, is in block 1. -/
def linkBytes (size : Byte) (text : List Byte) : List Byte :=
  [0, 0xa0, 0, 0] ++ [size, 0, 0, 0] ++ List.replicate 20 0 ++ [2, 0, 0, 0] ++ List.replicate 8 0 ++
    (text ++ List.replicate (88 - text.length) 0)

def link (size : Byte) (text : List Byte) (h : text.length ≤ 88) : RawNode where
  number := 12
  block_size := 1024
  raw := linkBytes size text
  device := ⟨1024, 2048, fun _ => some (List.replicate 1024 97)⟩
  raw_length := by
    simp [linkBytes]
    omega

/-- A target of 60 letters, in block 1. -/
def sixtyLink : RawNode := link 60 [1, 0, 0, 0] (by decide)

def sixtyTarget : List Byte := List.replicate 60 97

theorem sixtyLink_direct {i : Nat} (hi : i < 12) : sixtyLink.node.data.direct i = if i = 0 then 1 else 0 := by
  revert i
  decide

theorem sixtyLink_pointer (i : Nat) : sixtyLink.node.pointer i = if i = 0 then 1 else 0 := by
  unfold Node.pointer
  by_cases hi : i < 12
  · rw [if_pos hi, sixtyLink_direct hi]
  · have hindirect : sixtyLink.node.data.indirect_1 = 0 := by decide
    rw [if_neg hi, if_pos hindirect, if_neg (by omega)]

theorem sixtyLink_stores : sixtyLink.node.Stores fun _ => 97 := by
  have hblock : ∀ i, i * 1024 < 60 → i = 0 := fun i hi => by omega
  refine ⟨⟨⟨by decide, by decide, by decide, fun _ _ => ⟨_, rfl, List.length_replicate⟩⟩, ⟨0, rfl⟩, ?_, by decide, ?_⟩,
    by decide, ?_, ?_, ?_⟩
  · intro i hi
    rw [sixtyLink_direct hi]
    show (((if i = 0 then 1 else 0) : Nat) + 1) * 1024 ≤ 2048
    split_ifs <;> decide
  · intro i _
    rw [sixtyLink_pointer]
    show (((if i = 0 then 1 else 0) : Nat) + 1) * 1024 ≤ 2048
    split_ifs <;> decide
  · intro i hi
    rw [hblock i hi]
    decide
  · intro i _ hi
    rw [hblock i hi, sixtyLink_pointer]
    decide
  · intro i _ hi j hj
    have hj : j < 1024 := hj
    rw [hblock i hi, sixtyLink_pointer]
    show 97 = (List.replicate 1024 97 : List Byte).getD ((1 * 1024 + j) % 1024) 0
    rw [List.getD_replicate _ (Nat.mod_lt _ (by decide))]

theorem sixtyLink_links : sixtyLink.LinksTo sixtyTarget where
  is_symlink := by decide
  size := by decide
  short h := absurd h (by decide)
  long _ := ⟨_, sixtyLink_stores, by decide⟩

theorem sixtyLink_not_read : ¬ ∀ (node : RawNode) (target : List Byte), node.LinksTo target → 1 ≤ target.length →
    target.length ≤ node.block_size → node.ReadsTarget target := by
  intro h
  have hread := h sixtyLink sixtyTarget sixtyLink_links (by decide) (by decide) 0 fun _ => 0
  rw [RawNode.get_symbol_short (by decide) (by decide)] at hread
  have hfill := congrArg Prod.snd (Option.some.inj hread)
  have hbyte := congrFun hfill 0
  exact absurd hbyte (by decide)

theorem sixtyLink_iff : sixtyLink.ReadsTarget sixtyTarget ↔ sixtyTarget.length ≠ 60 :=
  (get_symbol_iff sixtyLink_links (by decide) (by decide)).2 (by decide)

end Kernel
