import Kernel.File.Ext2
import Kernel.Syscall.Buffer
import Mathlib.Logic.Function.Basic

/-!
# Descriptors (`syscall.cc`)

`mapped` is what `VMM::is_user_range_mapped` says of an address and a length.
-/

namespace Kernel

open Lib

structure FileDescriptor where
  used : Bool
  inode : Nat
  offset : Nat
deriving DecidableEq, Repr

def maxFds : Nat := 32

/-- The process that makes the calls: its thread-local variables and the memory it sees. -/
structure Caller where
  fdTable : Int → FileDescriptor
  fdTableInitialized : Bool
  memory : Memory

def onMemory {α : Type} (c : Prog Memory α) : Prog Caller α := fun s =>
  (c.run s.memory).map fun r => (r.1, { s with memory := r.2 })

def orPanic {σ α : Type} : Option α → Prog σ α
  | none => Prog.panic
  | some a => pure a

/-- `fdTable[i] = e`. -/
def Caller.set (s : Caller) (i : Int) (e : FileDescriptor) : Caller :=
  { s with fdTable := Function.update s.fdTable i e }

def init_fd_table : Prog Caller Unit := do
  let s ← get
  if s.fdTableInitialized then pure ()
  else do
    Prog.forRange maxFds fun i => modify fun s => s.set i ⟨false, 0, 0⟩
    modify fun s => { s with fdTableInitialized := true }

/-- The loop of `copy_user_cstring`, for `turns` more turns: the bytes of the string. -/
def copy_user_cstring_loop (memory : Memory) (mapped : Nat → Nat → Bool) (ptr maxLen : Nat) :
    Nat → List Byte → Option (List Byte)
  | 0, out => some (out.take (maxLen - 1))
  | turns + 1, out =>
    if ¬ mapped (add64 ptr out.length) 1 then none
    else
      let ch := memory (add64 ptr out.length)
      if ch = 0 then some out else copy_user_cstring_loop memory mapped ptr maxLen turns (out ++ [ch])

def copy_user_cstring (memory : Memory) (mapped : Nat → Nat → Bool) (ptr maxLen : Nat) : Option (List Byte) :=
  if ptr = 0 ∨ maxLen = 0 then none else copy_user_cstring_loop memory mapped ptr maxLen maxLen []

def allocate_fd (inode : Nat) : Prog Caller Int := do
  init_fd_table
  let s ← get
  match ((List.range maxFds).drop 3).find? fun i : Nat => !(s.fdTable i).used with
  | some i => do
    modify fun s => s.set i ⟨true, inode, 0⟩
    pure i
  | none => pure (-1)

/-! ## System calls -/

def sys_read (fs : Option Ext2) (mapped : Nat → Nat → Bool) (rdi rsi rdx : Nat) : Prog Caller Int := do
  let fd := int32 rdi
  let buf := rsi
  let len := rdx
  init_fd_table
  let s ← get
  if fd < 0 ∨ fd ≥ maxFds ∨ ¬ (s.fdTable fd).used then pure (-1)
  else if ¬ is_valid_user_buffer buf len ∨ ¬ mapped buf len then pure (-1)
  else match fs with
    | none => pure (-1)
    | some fs =>
      if (s.fdTable fd).inode = 0 then pure (-1)
      else do
        let node ← orPanic (fs.get_node (s.fdTable fd).inode)
        let fileSize := node.data.size_low
        let off := (s.fdTable fd).offset
        if off ≥ fileSize then pure 0
        else do
          let remaining := fileSize - off
          let toRead := if len < remaining then len else remaining
          let got ← onMemory (node.io.read_all (off % 2 ^ 32) (toRead % 2 ^ 32) buf)
          modify fun s => s.set fd { s.fdTable fd with offset := add64 (s.fdTable fd).offset (uint64 got) }
          pure got

/-- `turns` bounds the scan of the root directory. -/
def sys_open (fs : Option Ext2) (mapped : Nat → Nat → Bool) (turns rdi : Nat) : Prog Caller Int :=
  match fs with
  | none => pure (-1)
  | some fs => do
    let s ← get
    match copy_user_cstring s.memory mapped rdi 256 with
    | none => pure (-1)
    | some path => do
      let node ← orPanic (fs.find turns fs.root path)
      match node with
      | none => pure (-1)
      | some node => if ¬ node.data.is_file then pure (-1) else allocate_fd node.number

def sys_close (rdi : Nat) : Prog Caller Int := do
  let fd := int32 rdi
  init_fd_table
  let s ← get
  if fd < 0 ∨ fd ≥ maxFds ∨ ¬ (s.fdTable fd).used then pure (-1)
  else do
    modify fun s => s.set fd ⟨false, 0, 0⟩
    pure 0

def sys_lseek (fs : Option Ext2) (rdi rsi rdx : Nat) : Prog Caller Int := do
  let fd := int32 rdi
  let offset := rsi
  let whence := int32 rdx
  init_fd_table
  let s ← get
  if fd < 0 ∨ fd ≥ maxFds ∨ ¬ (s.fdTable fd).used then pure (-1)
  else if whence ≠ 0 then pure (-1)
  else match fs with
    | none => pure (-1)
    | some fs =>
      if (s.fdTable fd).inode = 0 then pure (-1)
      else do
        let node ← orPanic (fs.get_node (s.fdTable fd).inode)
        let fileSize := node.data.size_low
        if offset > fileSize then pure (-1)
        else do
          modify fun s => s.set fd { s.fdTable fd with offset := offset }
          pure offset

/-! ## What each call does -/

/-- A table not yet initialised is all zeros. A descriptor in use is one that `open` gives. -/
structure Caller.Ok (s : Caller) : Prop where
  fresh : s.fdTableInitialized = false → ∀ i, s.fdTable i = ⟨false, 0, 0⟩
  range : ∀ i, (s.fdTable i).used = true → 3 ≤ i ∧ i < maxFds

section

variable {s t : Caller} {fs : Option Ext2} {mapped : Nat → Nat → Bool} {rdi rsi rdx : Nat} {r : Int}

/-- `init_fd_table` changes no descriptor. -/
def Caller.ready (s : Caller) : Caller := { s with fdTableInitialized := true }

@[simp] theorem Caller.ready_fdTable : s.ready.fdTable = s.fdTable := rfl

@[simp] theorem Caller.ready_memory : s.ready.memory = s.memory := rfl

@[simp] theorem Caller.set_fdTable (i : Int) (e : FileDescriptor) :
    (s.set i e).fdTable = Function.update s.fdTable i e := rfl

@[simp] theorem Caller.set_memory (i : Int) (e : FileDescriptor) : (s.set i e).memory = s.memory := rfl

theorem Caller.Ok.ready (h : s.Ok) : s.ready.Ok := ⟨nofun, h.range⟩

theorem Caller.Ok.init_run (h : s.Ok) : init_fd_table.run s = some ((), s.ready) := by
  unfold init_fd_table
  rw [Prog.get_bind_run]
  split_ifs with hinit
  · apply Prog.run_pure.mpr
    refine ⟨rfl, ?_⟩
    unfold Caller.ready
    rw [← hinit]
  · have hzero := h.fresh (by simpa using hinit)
    have hsame : ∀ i, s.set i ⟨false, 0, 0⟩ = s := by
      intro i
      unfold Caller.set
      rw [← hzero i, Function.update_eq_self]
    let clear : Nat → Prog Caller Unit := fun i => modify fun s => s.set i ⟨false, 0, 0⟩
    have hturn : ∀ i, i < maxFds → (clear i).run s = some ((), s) := by
      intro i _
      rw [Prog.modify_run, hsame]
    rw [Prog.bind_run (Prog.forRange_trace (fun _ => s) hturn)]
    rfl

theorem orPanic_run {α σ : Type} {o : Option α} {a : α} {s t : σ} :
    (orPanic o : Prog σ α).run s = some (a, t) ↔ o = some a ∧ t = s := by
  unfold orPanic
  cases o with
  | none => simp
  | some b => simp [eq_comm]

theorem Caller.Ok.set (h : s.Ok) {i : Int} (hi : 3 ≤ i ∧ i < maxFds) (e : FileDescriptor) : (s.ready.set i e).Ok := by
  refine ⟨nofun, fun j hj => ?_⟩
  rw [Caller.set_fdTable, Function.update_apply] at hj
  split_ifs at hj with hij
  · rwa [hij]
  · exact h.range j hj

theorem allocate_fd_run (h : s.Ok) (inode : Nat) :
    (∀ i : Int, 3 ≤ i → i < maxFds → (s.fdTable i).used = true) ∧ (allocate_fd inode).run s = some (-1, s.ready) ∨
    ∃ r : Int, 3 ≤ r ∧ r < maxFds ∧ (s.fdTable r).used = false ∧
      (allocate_fd inode).run s = some (r, s.ready.set r ⟨true, inode, 0⟩) := by
  unfold allocate_fd
  rw [Prog.bind_run h.init_run, Prog.get_bind_run]
  cases hfind : ((List.range maxFds).drop 3).find? fun i : Nat => !(s.ready.fdTable i).used with
  | none =>
    refine Or.inl ⟨fun i hlow hhigh => ?_, rfl⟩
    have hnone := List.find?_eq_none.mp hfind i.toNat
    have hmem : i.toNat ∈ (List.range maxFds).drop 3 := by
      rw [List.mem_iff_getElem]
      refine ⟨i.toNat - 3, by simp only [List.length_drop, List.length_range]; omega, ?_⟩
      simp only [List.getElem_drop, List.getElem_range]
      omega
    have hi : ((i.toNat : Nat) : Int) = i := by omega
    have hused := hnone hmem
    rw [hi] at hused
    simpa using hused
  | some i =>
    have hunused := List.find?_some hfind
    have hmem := List.mem_of_find?_eq_some hfind
    rw [List.mem_iff_getElem] at hmem
    obtain ⟨k, hk, hki⟩ := hmem
    simp only [List.length_drop, List.length_range, List.getElem_drop, List.getElem_range] at hk hki
    exact Or.inr ⟨i, by omega, by omega, by simpa using hunused, rfl⟩

theorem allocate_fd_spec (h : s.Ok) {inode : Nat} (hrun : (allocate_fd inode).run s = some (r, t)) :
    r = -1 ∧ t = s.ready ∨
    3 ≤ r ∧ r < maxFds ∧ (s.fdTable r).used = false ∧ t = s.ready.set r ⟨true, inode, 0⟩ := by
  rcases allocate_fd_run h inode with ⟨-, hfull⟩ | ⟨i, hlow, hhigh, hfree, htaken⟩
  · rw [hfull] at hrun
    obtain ⟨rfl, rfl⟩ := Prod.mk.inj (Option.some.inj hrun)
    exact Or.inl ⟨rfl, rfl⟩
  · rw [htaken] at hrun
    obtain ⟨rfl, rfl⟩ := Prod.mk.inj (Option.some.inj hrun)
    exact Or.inr ⟨hlow, hhigh, hfree, rfl⟩

theorem sys_open_spec (h : s.Ok) {fs : Ext2} {turns : Nat} (hrun : (sys_open (some fs) mapped turns rdi).run s =
    some (r, t)) :
    r = -1 ∧ (t = s ∨ t = s.ready) ∨
    ∃ node, fs.get_node node.number = some node ∧ node.number ≠ 0 ∧ node.data.is_file = true ∧
      3 ≤ r ∧ r < maxFds ∧ (s.fdTable r).used = false ∧ t = s.ready.set r ⟨true, node.number, 0⟩ := by
  unfold sys_open at hrun
  rw [Prog.get_bind_run] at hrun
  cases hpath : copy_user_cstring s.memory mapped rdi 256 with
  | none =>
    rw [hpath, Prog.run_pure] at hrun
    exact Or.inl ⟨hrun.1, Or.inl hrun.2⟩
  | some path =>
    simp only [hpath, Prog.run_bind, orPanic_run] at hrun
    obtain ⟨node, u, ⟨hnode, rfl⟩, hrun⟩ := hrun
    cases node with
    | none => exact Or.inl ⟨(Prog.run_pure.mp hrun).1, Or.inl (Prog.run_pure.mp hrun).2⟩
    | some node =>
      dsimp only at hrun
      split_ifs at hrun with hfile
      · obtain ⟨hget, hnumber⟩ := Ext2.find_node hnode
        rcases allocate_fd_spec h hrun with ⟨hr, ht⟩ | hopened
        · exact Or.inl ⟨hr, Or.inr ht⟩
        · exact Or.inr ⟨node, hget, hnumber, hfile, hopened⟩
      · exact Or.inl ⟨(Prog.run_pure.mp hrun).1, Or.inl (Prog.run_pure.mp hrun).2⟩

theorem sys_close_spec (h : s.Ok) : (sys_close rdi).run s =
    if (s.fdTable (int32 rdi)).used then some (0, s.ready.set (int32 rdi) ⟨false, 0, 0⟩) else some (-1, s.ready) := by
  unfold sys_close
  rw [Prog.bind_run h.init_run, Prog.get_bind_run]
  split_ifs with hbad hused hused
  · have := h.range _ hused
    simp only [Caller.ready_fdTable, hused, not_true, or_false] at hbad
    omega
  · rfl
  · rfl
  · simp [hused] at hbad

theorem sys_lseek_spec (h : s.Ok) {fs : Ext2} (node : Node) (hnode : (s.fdTable (int32 rdi)).used = true →
      (s.fdTable (int32 rdi)).inode ≠ 0 ∧ fs.get_node (s.fdTable (int32 rdi)).inode = some node) :
    (sys_lseek (some fs) rdi rsi rdx).run s =
      if (s.fdTable (int32 rdi)).used = true ∧ int32 rdx = 0 ∧ rsi ≤ node.data.size_low then
        some ((rsi : Int), s.ready.set (int32 rdi) { s.fdTable (int32 rdi) with offset := rsi })
      else some (-1, s.ready) := by
  unfold sys_lseek
  rw [Prog.bind_run h.init_run, Prog.get_bind_run]
  by_cases hused : (s.fdTable (int32 rdi)).used = true
  · obtain ⟨hinode, hget⟩ := hnode hused
    have hrange := h.range _ hused
    rw [if_neg (by simp only [Caller.ready_fdTable, hused, not_true, or_false]; omega)]
    by_cases hwhence : int32 rdx = 0
    · rw [if_neg (not_not.mpr hwhence), Caller.ready_fdTable]
      dsimp only
      rw [if_neg hinode, Prog.bind_run (orPanic_run.mpr ⟨hget, rfl⟩)]
      by_cases hle : rsi ≤ node.data.size_low
      · rw [if_neg (by omega), if_pos ⟨hused, hwhence, hle⟩]
        rfl
      · rw [if_pos (by omega), if_neg fun hall => hle hall.2.2]
        rfl
    · rw [if_pos hwhence, if_neg fun hall => hwhence hall.2.1]
      rfl
  · rw [Caller.ready_fdTable, if_pos (Or.inr (Or.inr hused)), if_neg fun hall => hused hall.1]
    rfl

/-- The state after a read of `got` bytes. -/
def Caller.took (s : Caller) (fd : Int) (buf got : Nat) (f : Nat → Byte) : Caller :=
  { s.ready.set fd { s.fdTable fd with offset := (s.fdTable fd).offset + got } with memory := s.memory.fill buf got f }

theorem Caller.took_zero (fd : Int) (buf : Nat) (f : Nat → Byte) : s.took fd buf 0 f = s.ready := by
  unfold Caller.took Caller.set
  simp only [Caller.ready_fdTable, Memory.fill_zero, Nat.add_zero, Function.update_eq_self]
  rfl

theorem sys_read_spec (h : s.Ok) {fs : Ext2} (node : Node) (hnode : (s.fdTable (int32 rdi)).used = true →
      (s.fdTable (int32 rdi)).inode ≠ 0 ∧ fs.get_node (s.fdTable (int32 rdi)).inode = some node ∧
      node.io.Delivers ∧ (s.fdTable (int32 rdi)).offset ≤ node.data.size_low) :
    (sys_read (some fs) mapped rdi rsi rdx).run s =
      if (s.fdTable (int32 rdi)).used = true ∧ is_valid_user_buffer rsi rdx = true ∧ mapped rsi rdx = true then
        let got := min rdx (node.data.size_low - (s.fdTable (int32 rdi)).offset)
        some ((got : Int), s.took (int32 rdi) rsi got fun i => node.io.byte ((s.fdTable (int32 rdi)).offset + i))
      else some (-1, s.ready) := by
  unfold sys_read
  rw [Prog.bind_run h.init_run, Prog.get_bind_run]
  by_cases hused : (s.fdTable (int32 rdi)).used = true
  · obtain ⟨hinode, hget, hdelivers, hoffset⟩ := hnode hused
    have hrange := h.range _ hused
    have hsize : node.data.size_low < 2 ^ 32 := hdelivers.size_lt
    rw [if_neg (by simp only [Caller.ready_fdTable, hused, not_true, or_false]; omega)]
    by_cases hbuffer : is_valid_user_buffer rsi rdx = true ∧ mapped rsi rdx = true
    · rw [if_neg (by simp [hbuffer.1, hbuffer.2]), if_pos ⟨hused, hbuffer⟩, Caller.ready_fdTable]
      dsimp only
      rw [if_neg hinode, Prog.bind_run (orPanic_run.mpr ⟨hget, rfl⟩)]
      set off := (s.fdTable (int32 rdi)).offset with hoff
      by_cases hend : off ≥ node.data.size_low
      · have hgot : min rdx (node.data.size_low - off) = 0 := by omega
        rw [if_pos hend, hgot, Caller.took_zero]
        rfl
      · have htoRead : (if rdx < node.data.size_low - off then rdx else node.data.size_low - off) =
            min rdx (node.data.size_low - off) := by split_ifs <;> omega
        rw [if_neg hend, htoRead]
        set got := min rdx (node.data.size_low - off) with hgot
        have hread : (onMemory (node.io.read_all (off % 2 ^ 32) (got % 2 ^ 32) rsi)).run s.ready =
            some ((got : Int), { s.ready with memory := s.memory.fill rsi got fun i => node.io.byte (off + i) }) := by
          have hlast : min got (node.io.size_in_bytes - off) = got := by
            have : node.io.size_in_bytes = node.data.size_low := rfl
            omega
          have hall := hdelivers.read_all_spec rsi (show got < 2 ^ 32 by omega) hoffset s.memory
          rw [hlast] at hall
          rw [Nat.mod_eq_of_lt (by omega), Nat.mod_eq_of_lt (by omega)]
          show Option.map _ ((node.io.read_all off got rsi).run s.ready.memory) = _
          rw [Caller.ready_memory, hall]
          rfl
        have hadd : add64 off (uint64 got) = off + got := by
          unfold add64 uint64
          omega
        rw [Prog.bind_run hread, Prog.modify_bind_run]
        apply Prog.run_pure.mpr
        refine ⟨rfl, ?_⟩
        unfold Caller.took
        rw [← hoff, ← hadd]
        rfl
    · rw [if_pos ?_, if_neg fun hall => hbuffer hall.2]
      · rfl
      · by_contra hno
        simp only [not_or, not_not] at hno
        exact hbuffer hno
  · rw [Caller.ready_fdTable, if_pos (Or.inr (Or.inr hused)), if_neg fun hall => hused hall.1]
    rfl

end

end Kernel
