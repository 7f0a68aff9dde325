import Kernel.Lib.Simulation
import Kernel.Vmm.Calls

/-!
# Processes with memories of their own

What the address spaces are for. A process has bytes, a heap and places for files, and
no call of another reaches them. Frames and tables do not occur.
-/

namespace Kernel

open Lib

/-- Where the page of an address begins: a file, or 0, and a position in it. -/
abbrev Backing := Nat → Option (Nat × Nat)

/-- What a process has. -/
structure Private where
  image : Image
  backing : Backing
  heapStart : Nat
  heapBreak : Nat

structure Memories where
  procs : Nat → Option Private
  shared : Backing
  sharedStart : Nat
  born : Nat

def Memories.put (M : Memories) (p : Nat) (P : Private) : Memories :=
  { M with procs := Function.update M.procs p (some P) }

/-- No address of the range has a place in a file. -/
def Backing.Free (B : Backing) (i j : Nat) : Prop := ∀ va, i ≤ va → va < j → B va = none

def Backing.map (B : Backing) (a length file offset : Nat) : Backing := fun va =>
  if a ≤ va ∧ va < a + length then some (file, add64 offset (sub64 va a)) else B va

/-- Without the range from `i` up to `j`. -/
def Backing.cut (B : Backing) (i j : Nat) : Backing := fun va => if i ≤ va ∧ va < j then none else B va

/-- The bytes of a page that begins at `src`: the file, as far as it goes, and then zeros. -/
def pageByte (nodes : Nat → BlockIO) (src : Nat × Nat) (j : Nat) : Byte :=
  if src.1 ≠ 0 ∧ src.2 % 2 ^ 32 + j < (nodes src.1).size_in_bytes then (nodes src.1).byte (src.2 % 2 ^ 32 + j) else 0

/-- The bytes with the page of `va`. -/
def Image.fill (M : Image) (va : Nat) (page : Nat → Byte) : Image := fun a =>
  if a / FRAME_SIZE = va / FRAME_SIZE then some (page (a % FRAME_SIZE)) else M a

def Private.mayBreak (P : Private) (new_break : Nat) : Prop :=
  P.heapStart ≠ 0 ∧ P.heapBreak ≠ 0 ∧ P.heapStart ≤ new_break ∧ new_break < 2 ^ 47

/-- A range of whole pages outside the shared range that has a place somewhere. -/
def Memories.mayUnmap (M : Memories) (P : Private) (start length : Nat) : Prop :=
  start % FRAME_SIZE = 0 ∧ ¬ (M.sharedStart ≤ start ∧ start < sharedEnd) ∧ 0 < length ∧
    start + pagesLength length < 2 ^ 64 ∧ ¬ P.backing.Free start (start + pagesLength length)

inductive MemoriesStep (nodes : Nat → BlockIO) : Memories → UserCall → Memories → Prop where
  | load {M : Memories} {p start size : Nat} {P : Private} {image : Image} :
      M.procs p = some P → Grown P.image image (touches start size) →
      MemoriesStep nodes M (.load p start size) (M.put p { P with image := image })
  | init_heap {M : Memories} {p initial_break : Nat} {P : Private} :
      M.procs p = some P → MemoriesStep nodes M (.init_heap p initial_break)
        (M.put p { P with heapStart := max 0x1000 initial_break, heapBreak := max 0x1000 initial_break })
  | brk {M : Memories} {p new_break : Nat} {P : Private} {image : Image} :
      M.procs p = some P → P.mayBreak new_break →
      Moved P.image (roundUpPage P.heapBreak) (roundUpPage new_break) image →
      MemoriesStep nodes M (.brk p new_break 0) (M.put p { P with image := image, heapBreak := new_break })
  | brk_refused {M : Memories} {p new_break : Nat} {P : Private} :
      M.procs p = some P → ¬ P.mayBreak new_break → MemoriesStep nodes M (.brk p new_break (-1)) M
  | mmap_private {M : Memories} {p length file offset a : Nat} {flags : BitVec 32} {P : Private} :
      M.procs p = some P → MayMap length flags file offset → flags &&& MAP_SHARED = 0 →
      0x1000 ≤ a → a + pagesLength length ≤ 2 ^ 47 → a % FRAME_SIZE = 0 → P.backing.Free a (a + pagesLength length) →
      MemoriesStep nodes M (.mmap p length flags file offset a)
        (M.put p { P with backing := P.backing.map a (pagesLength length) file offset })
  | mmap_shared {M : Memories} {p length file offset a : Nat} {flags : BitVec 32} {P : Private} :
      M.procs p = some P → MayMap length flags file offset → flags &&& MAP_SHARED ≠ 0 →
      M.sharedStart ≤ a → a + pagesLength length ≤ sharedEnd → a % FRAME_SIZE = 0 →
      M.shared.Free a (a + pagesLength length) →
      MemoriesStep nodes M (.mmap p length flags file offset a)
        { M with shared := M.shared.map a (pagesLength length) file offset }
  | mmap_full {M : Memories} {p length file offset : Nat} {flags : BitVec 32} {P : Private} :
      M.procs p = some P → MayMap length flags file offset → flags &&& MAP_SHARED ≠ 0 →
      (∀ a, M.sharedStart ≤ a → a + pagesLength length ≤ sharedEnd → ¬ M.shared.Free a (a + pagesLength length)) →
      MemoriesStep nodes M (.mmap p length flags file offset MAP_FAILED) M
  | mmap_refused {M : Memories} {p length file offset : Nat} {flags : BitVec 32} {P : Private} :
      M.procs p = some P → ¬ MayMap length flags file offset →
      MemoriesStep nodes M (.mmap p length flags file offset MAP_FAILED) M
  | munmap {M : Memories} {p start length : Nat} {P : Private} :
      M.procs p = some P → M.mayUnmap P start length →
      MemoriesStep nodes M (.munmap p start length 0) (M.put p { P with
        image := fun a => if start ≤ a ∧ a < start + pagesLength length ∧ (P.backing a).isSome then none else P.image a
        backing := P.backing.cut start (start + pagesLength length) })
  | munmap_refused {M : Memories} {p start length : Nat} {P : Private} :
      M.procs p = some P → ¬ M.mayUnmap P start length → MemoriesStep nodes M (.munmap p start length (-1)) M
  | fault {M : Memories} {p cr2 : Nat} {P : Private} {src : Nat × Nat} :
      M.procs p = some P → P.image (cr2 / FRAME_SIZE * FRAME_SIZE) = none →
      (P.backing (cr2 / FRAME_SIZE * FRAME_SIZE)).or (M.shared (cr2 / FRAME_SIZE * FRAME_SIZE)) = some src →
      MemoriesStep nodes M (.fault p cr2) (M.put p { P with image := P.image.fill cr2 (pageByte nodes src) })
  | fault_again {M : Memories} {p cr2 : Nat} {P : Private} :
      M.procs p = some P → (P.image (cr2 / FRAME_SIZE * FRAME_SIZE)).isSome → MemoriesStep nodes M (.fault p cr2) M
  | read {M : Memories} {p a : Nat} {P : Private} :
      M.procs p = some P → MemoriesStep nodes M (.read p a (P.image a)) M
  | store {M : Memories} {p vpn j : Nat} {v : Word} {P : Private} :
      M.procs p = some P → MemoriesStep nodes M (.store p vpn j v) (M.put p { P with image := P.image.write vpn j v })
  | fork {M : Memories} {p : Nat} {P : Private} :
      M.procs p = some P → MemoriesStep nodes M (.fork p M.born) { M.put M.born P with born := M.born + 1 }
  | fork_fails {M : Memories} {p : Nat} {P : Private} :
      M.procs p = some P → MemoriesStep nodes M (.fork_fails p) { M with born := M.born + 1 }
  | exit {M : Memories} {p n_active : Nat} {P : Private} :
      M.procs p = some P → MemoriesStep nodes M (.exit p n_active)
        { M with
          procs := Function.update M.procs p none
          shared := if n_active = 1 then fun _ => none else M.shared }

/-- One process, with nothing in its memory. -/
def memoriesSystem (nodes : Nat → BlockIO) : System Memories UserCall where
  init M := M.procs = Function.update (fun _ => none) 0 (some ⟨fun _ => none, fun _ => none, 0, 0⟩) ∧
    M.shared = (fun _ => none) ∧ M.born = 1
  step := MemoriesStep nodes

/-! ## Each for itself -/

def Memories.Numbered (M : Memories) : Prop := ∀ p P, M.procs p = some P → p < M.born

section

variable {nodes : Nat → BlockIO} {M M' : Memories} {p q : Nat} {P : Private} {c : UserCall}

theorem Memories.put_other (h : q ≠ p) : (M.put p P).procs q = M.procs q := Function.update_of_ne h _ _

theorem Memories.Numbered.put (h : M.Numbered) (hp : p < M.born) : (M.put p P).Numbered := by
  intro q Q hq
  by_cases hqp : q = p
  · rw [hqp]
    exact hp
  · rw [Memories.put_other hqp] at hq
    exact h q Q hq

theorem MemoriesStep.numbered (hstep : MemoriesStep nodes M c M') (h : M.Numbered) : M'.Numbered := by
  cases hstep with
  | load hp _ => exact h.put (h _ _ hp)
  | init_heap hp => exact h.put (h _ _ hp)
  | brk hp _ _ => exact h.put (h _ _ hp)
  | brk_refused _ _ => exact h
  | mmap_private hp _ _ _ _ _ _ => exact h.put (h _ _ hp)
  | mmap_shared _ _ _ _ _ _ _ => exact h
  | mmap_full _ _ _ _ => exact h
  | mmap_refused _ _ => exact h
  | munmap hp _ => exact h.put (h _ _ hp)
  | munmap_refused _ _ => exact h
  | fault hp _ _ => exact h.put (h _ _ hp)
  | fault_again _ _ => exact h
  | read _ => exact h
  | store hp => exact h.put (h _ _ hp)
  | fork hp =>
    intro q Q hq
    by_cases hqb : q = M.born
    · rw [hqb]
      exact Nat.lt_succ_self _
    · exact Nat.lt_succ_of_lt (h q Q ((Memories.put_other hqb).symm.trans hq))
  | fork_fails _ => exact fun q Q hq => Nat.lt_succ_of_lt (h q Q hq)
  | @exit p _ _ _ =>
    intro q Q hq
    by_cases hqp : q = p
    · rw [hqp] at hq
      simp at hq
    · exact h q Q ((Function.update_of_ne hqp _ _).symm.trans hq)

theorem MemoriesStep.born_le (hstep : MemoriesStep nodes M c M') : M.born ≤ M'.born := by
  cases hstep with
  | fork _ | fork_fails _ => exact Nat.le_succ _
  | _ => exact Nat.le_refl _

theorem MemoriesStep.others (hstep : MemoriesStep nodes M c M') (hq : q < M.born) (hne : c.actor ≠ q) :
    M'.procs q = M.procs q := by
  cases hstep with
  | load _ _ => exact Memories.put_other hne.symm
  | init_heap _ => exact Memories.put_other hne.symm
  | brk _ _ _ => exact Memories.put_other hne.symm
  | brk_refused _ _ => rfl
  | mmap_private _ _ _ _ _ _ _ => exact Memories.put_other hne.symm
  | mmap_shared _ _ _ _ _ _ _ => rfl
  | mmap_full _ _ _ _ => rfl
  | mmap_refused _ _ => rfl
  | munmap _ _ => exact Memories.put_other hne.symm
  | munmap_refused _ _ => rfl
  | fault _ _ _ => exact Memories.put_other hne.symm
  | fault_again _ _ => rfl
  | read _ => rfl
  | store _ => exact Memories.put_other hne.symm
  | fork _ => exact Memories.put_other (Nat.ne_of_lt hq)
  | fork_fails _ => rfl
  | exit _ => exact Function.update_of_ne hne.symm _ _

theorem MemoriesStep.shared_kept {a : Nat} {src : Nat × Nat} (hstep : MemoriesStep nodes M c M')
    (hc : ∀ p, c ≠ .exit p 1) (h : M.shared a = some src) : M'.shared a = some src := by
  cases hstep with
  | mmap_shared _ _ _ _ _ _ hfree =>
    refine (if_neg ?_).trans h
    rintro ⟨hlo, hhi⟩
    rw [hfree a hlo hhi] at h
    cases h
  | @exit p n_active _ _ =>
    have hne : n_active ≠ 1 := by
      rintro rfl
      exact hc p rfl
    exact (congrFun (if_neg hne) a).trans h
  | _ => exact h

theorem MemoriesStep.mmap_placed {p length file offset a : Nat} {flags : BitVec 32}
    (hstep : MemoriesStep nodes M (.mmap p length flags file offset a) M') (hflags : flags &&& MAP_SHARED ≠ 0)
    (ha : a ≠ MAP_FAILED) :
    0 < length ∧ M.shared.Free a (a + pagesLength length) ∧
      M'.shared = M.shared.map a (pagesLength length) file offset := by
  cases hstep with
  | mmap_private _ _ hprivate _ _ _ _ => exact absurd hprivate hflags
  | mmap_shared _ hmay _ _ _ _ hfree => exact ⟨Nat.pos_of_ne_zero hmay.1, hfree, rfl⟩
  | mmap_full _ _ _ _ => exact absurd rfl ha
  | mmap_refused _ _ => exact absurd rfl ha

end

end Kernel
