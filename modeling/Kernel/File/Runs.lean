import Kernel.File.Descriptors
import Kernel.Lib.Transition

/-!
# Runs of descriptor calls

The calls of one process, in any order, on an image that does not change.
Between two calls the process may write its memory.
-/

namespace Kernel

open Lib

/-- A call and what it returns. `opened` has the inode of the new descriptor, and `read` the bytes it stores. -/
inductive FileOp where
  | opened (rdi inode : Nat) (r : Int)
  | read (rdi rsi rdx : Nat) (r : Int) (data : List Byte)
  | close (rdi : Nat) (r : Int)
  | lseek (rdi rsi rdx : Nat) (r : Int)
  | user
deriving DecidableEq, Repr

/-- The descriptor that a call is about. -/
def FileOp.fd : FileOp → Option Int
  | opened _ _ r => some r
  | read rdi _ _ _ _ | close rdi _ | lseek rdi _ _ _ => some (int32 rdi)
  | user => none

def FileOp.result : FileOp → Option Int
  | opened _ _ r | read _ _ _ r _ | close _ r | lseek _ _ _ r => some r
  | user => none

/-- What a call reads from `fd`. -/
def FileOp.dataOf (fd : Int) : FileOp → List Byte
  | read rdi _ _ _ data => if int32 rdi = fd then data else []
  | _ => []

/-- The call seeks `fd`, or closes it. -/
def FileOp.moves (fd : Int) : FileOp → Prop
  | close rdi _ | lseek rdi _ _ _ => int32 rdi = fd
  | _ => False

inductive FileStep (fs : Ext2) : Caller → FileOp → Caller → Prop where
  | opened {s t : Caller} {mapped : Nat → Nat → Bool} {turns rdi : Nat} {r : Int}
      (hrun : (sys_open (some fs) mapped turns rdi).run s = some (r, t)) :
      FileStep fs s (.opened rdi (t.fdTable r).inode r) t
  | read {s t : Caller} {mapped : Nat → Nat → Bool} {rdi rsi rdx : Nat} {r : Int}
      (hrun : (sys_read (some fs) mapped rdi rsi rdx).run s = some (r, t)) :
      FileStep fs s (.read rdi rsi rdx r ((List.range r.toNat).map fun i => t.memory (rsi + i))) t
  | close {s t : Caller} {rdi : Nat} {r : Int} (hrun : (sys_close rdi).run s = some (r, t)) :
      FileStep fs s (.close rdi r) t
  | lseek {s t : Caller} {rdi rsi rdx : Nat} {r : Int} (hrun : (sys_lseek (some fs) rdi rsi rdx).run s = some (r, t)) :
      FileStep fs s (.lseek rdi rsi rdx r) t
  | user {s : Caller} (memory : Memory) : FileStep fs s .user { s with memory := memory }

/-- At the start the thread-local variables are the zeros of the template. -/
def fileSystem (fs : Ext2) : System Caller FileOp where
  init s := s.fdTableInitialized = false ∧ ∀ i, s.fdTable i = ⟨false, 0, 0⟩
  step := FileStep fs

/-- What is opened is a file whose blocks `read_block` delivers. -/
def OnDelivered (fs : Ext2) (_ : Caller) : FileOp → Prop
  | .opened _ inode _ => ∀ node, fs.get_node inode = some node → node.io.Delivers
  | _ => True

/-- A descriptor in use has a file, and its offset is inside. -/
structure FilesInv (fs : Ext2) (s : Caller) : Prop extends s.Ok where
  file : ∀ i, (s.fdTable i).used = true → (s.fdTable i).inode ≠ 0 ∧ ∃ node,
    fs.get_node (s.fdTable i).inode = some node ∧ node.io.Delivers ∧ (s.fdTable i).offset ≤ node.data.size_low

section

variable {fs : Ext2} {s t : Caller} {a : FileOp}

theorem Caller.each_set {P : FileDescriptor → Prop} (h : ∀ j, (s.fdTable j).used = true → P (s.fdTable j)) {i : Int}
    {e : FileDescriptor} (he : e.used = true → P e) (j : Int) (hj : ((s.ready.set i e).fdTable j).used = true) :
    P ((s.ready.set i e).fdTable j) := by
  rw [Caller.set_fdTable, Function.update_apply] at hj ⊢
  split_ifs at hj ⊢
  · exact he hj
  · exact h j hj

theorem FilesInv.ready (h : FilesInv fs s) : FilesInv fs s.ready := ⟨h.toOk.ready, h.file⟩

theorem FilesInv.set (h : FilesInv fs s) {i : Int} (hi : 3 ≤ i ∧ i < maxFds) {e : FileDescriptor}
    (he : e.used = true → e.inode ≠ 0 ∧ ∃ node, fs.get_node e.inode = some node ∧ node.io.Delivers ∧
      e.offset ≤ node.data.size_low) : FilesInv fs (s.ready.set i e) :=
  ⟨h.toOk.set hi e, Caller.each_set (P := fun e => e.inode ≠ 0 ∧ ∃ node, fs.get_node e.inode = some node ∧
    node.io.Delivers ∧ e.offset ≤ node.data.size_low) h.file he⟩

theorem FilesInv.memory (h : FilesInv fs s) (memory : Memory) : FilesInv fs { s with memory := memory } :=
  ⟨⟨h.fresh, h.range⟩, h.file⟩

/-- What a call does: it fails, or makes one change to the descriptor it is about. -/
inductive FileEffect (fs : Ext2) (s : Caller) : FileOp → Caller → Prop where
  | failed {a : FileOp} {t : Caller} (hr : a.result = some (-1)) (hdata : ∀ fd, a.dataOf fd = [])
      (ht : t = s ∨ t = s.ready) :
      FileEffect fs s a t
  | user (memory : Memory) : FileEffect fs s .user { s with memory := memory }
  | opened {rdi : Nat} {r : Int} {node : Node} (hnode : fs.get_node node.number = some node) (hne : node.number ≠ 0)
      (hr : 3 ≤ r ∧ r < maxFds) (hfree : (s.fdTable r).used = false) :
      FileEffect fs s (.opened rdi node.number r) (s.ready.set r ⟨true, node.number, 0⟩)
  | read {rdi rsi rdx got : Nat} {node : Node} (hused : (s.fdTable (int32 rdi)).used = true)
      (hnode : fs.get_node (s.fdTable (int32 rdi)).inode = some node)
      (hgot : got = min rdx (node.data.size_low - (s.fdTable (int32 rdi)).offset)) :
      FileEffect fs s
        (.read rdi rsi rdx got ((List.range got).map fun i => node.io.byte ((s.fdTable (int32 rdi)).offset + i)))
        (s.took (int32 rdi) rsi got fun i => node.io.byte ((s.fdTable (int32 rdi)).offset + i))
  | close {rdi : Nat} (hused : (s.fdTable (int32 rdi)).used = true) :
      FileEffect fs s (.close rdi 0) (s.ready.set (int32 rdi) ⟨false, 0, 0⟩)
  | lseek {rdi rsi rdx : Nat} {node : Node} (hused : (s.fdTable (int32 rdi)).used = true)
      (hnode : fs.get_node (s.fdTable (int32 rdi)).inode = some node) (hle : rsi ≤ node.data.size_low) :
      FileEffect fs s (.lseek rdi rsi rdx rsi) (s.ready.set (int32 rdi) { s.fdTable (int32 rdi) with offset := rsi })

theorem FilesInv.read_effect (h : FilesInv fs s) {mapped : Nat → Nat → Bool} {rdi rsi rdx : Nat} {r : Int}
    (hrun : (sys_read (some fs) mapped rdi rsi rdx).run s = some (r, t)) :
    FileEffect fs s (.read rdi rsi rdx r ((List.range r.toNat).map fun i => t.memory (rsi + i))) t := by
  by_cases hused : (s.fdTable (int32 rdi)).used = true
  · obtain ⟨hinode, node, hnode, hdelivers, hoffset⟩ := h.file _ hused
    rw [sys_read_spec h.toOk node fun _ => ⟨hinode, hnode, hdelivers, hoffset⟩] at hrun
    split_ifs at hrun with hall
    · simp only [Option.some.injEq, Prod.mk.injEq] at hrun
      obtain ⟨rfl, rfl⟩ := hrun
      have hdata : ∀ got f, (List.range got).map (fun i => (s.took (int32 rdi) rsi got f).memory (rsi + i)) =
          (List.range got).map f := by
        intro got f
        apply List.map_congr_left
        intro i hi
        exact Memory.fill_self f (List.mem_range.mp hi)
      rw [Int.toNat_natCast, hdata]
      exact .read hused hnode rfl
    · simp only [Option.some.injEq, Prod.mk.injEq] at hrun
      obtain ⟨rfl, rfl⟩ := hrun
      exact .failed rfl (fun fd => by simp [FileOp.dataOf]) (Or.inr rfl)
  · rw [sys_read_spec h.toOk fs.root fun hu => absurd hu hused, if_neg fun hall => hused hall.1] at hrun
    simp only [Option.some.injEq, Prod.mk.injEq] at hrun
    obtain ⟨rfl, rfl⟩ := hrun
    exact .failed rfl (fun fd => by simp [FileOp.dataOf]) (Or.inr rfl)

theorem FilesInv.lseek_effect (h : FilesInv fs s) {rdi rsi rdx : Nat} {r : Int}
    (hrun : (sys_lseek (some fs) rdi rsi rdx).run s = some (r, t)) : FileEffect fs s (.lseek rdi rsi rdx r) t := by
  by_cases hused : (s.fdTable (int32 rdi)).used = true
  · obtain ⟨hinode, node, hnode, -, -⟩ := h.file _ hused
    rw [sys_lseek_spec h.toOk node fun _ => ⟨hinode, hnode⟩] at hrun
    split_ifs at hrun with hall
    · simp only [Option.some.injEq, Prod.mk.injEq] at hrun
      obtain ⟨rfl, rfl⟩ := hrun
      exact .lseek hused hnode hall.2.2
    · simp only [Option.some.injEq, Prod.mk.injEq] at hrun
      obtain ⟨rfl, rfl⟩ := hrun
      exact .failed rfl (fun fd => rfl) (Or.inr rfl)
  · rw [sys_lseek_spec h.toOk fs.root fun hu => absurd hu hused, if_neg fun hall => hused hall.1] at hrun
    simp only [Option.some.injEq, Prod.mk.injEq] at hrun
    obtain ⟨rfl, rfl⟩ := hrun
    exact .failed rfl (fun fd => rfl) (Or.inr rfl)

theorem FilesInv.effect (h : FilesInv fs s) (hstep : FileStep fs s a t) : FileEffect fs s a t := by
  cases hstep with
  | opened hrun =>
    rcases sys_open_spec h.toOk hrun with ⟨rfl, ht⟩ | ⟨node, hnode, hne, -, hlow, hhigh, hfree, rfl⟩
    · exact .failed rfl (fun _ => rfl) ht
    · rw [Caller.set_fdTable, Function.update_self]
      exact .opened hnode hne ⟨hlow, hhigh⟩ hfree
  | read hrun => exact h.read_effect hrun
  | close hrun =>
    rw [sys_close_spec h.toOk] at hrun
    split_ifs at hrun with hused
    · simp only [Option.some.injEq, Prod.mk.injEq] at hrun
      obtain ⟨rfl, rfl⟩ := hrun
      exact .close hused
    · simp only [Option.some.injEq, Prod.mk.injEq] at hrun
      obtain ⟨rfl, rfl⟩ := hrun
      exact .failed rfl (fun _ => rfl) (Or.inr rfl)
  | lseek hrun => exact h.lseek_effect hrun
  | user memory => exact .user memory

theorem FilesInv.step (h : FilesInv fs s) (hg : OnDelivered fs s a) (hstep : FileStep fs s a t) : FilesInv fs t := by
  cases h.effect hstep with
  | failed _ _ ht =>
    rcases ht with rfl | rfl
    · exact h
    · exact h.ready
  | user memory => exact h.memory memory
  | opened hnode hne hr hfree => exact h.set hr fun _ => ⟨hne, _, hnode, hg _ hnode, Nat.zero_le _⟩
  | read hused hnode hgot =>
    refine (h.set (h.range _ hused) fun _ => ?_).memory _
    obtain ⟨hne, node, hnode', hdelivers, hle⟩ := h.file _ hused
    obtain rfl : node = _ := Option.some.inj (hnode'.symm.trans hnode)
    exact ⟨hne, node, hnode, hdelivers, by dsimp only; omega⟩
  | close hused => exact h.set (h.range _ hused) nofun
  | lseek hused hnode hle =>
    refine h.set (h.range _ hused) fun _ => ?_
    obtain ⟨hne, node, hnode', hdelivers, -⟩ := h.file _ hused
    obtain rfl : node = _ := Option.some.inj (hnode'.symm.trans hnode)
    exact ⟨hne, node, hnode, hdelivers, hle⟩

theorem filesInv_of_reachable (h : (fileSystem fs).GuardedReachable (OnDelivered fs) s) : FilesInv fs s := by
  obtain ⟨s₀, l, ⟨hinit, hzero⟩, hrun⟩ := h
  refine hrun.preserves (fun _ _ _ hi hg hstep => hi.step hg hstep) ⟨⟨fun _ => hzero, fun i hi => ?_⟩, fun i hi => ?_⟩
  · simp [hzero i] at hi
  · simp [hzero i] at hi

end

end Kernel
