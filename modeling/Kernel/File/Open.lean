import Kernel.File.Directory
import Kernel.File.Seek
import Mathlib.Data.List.Nodup
import Mathlib.Data.List.TakeWhile

/-!
# `open` and the path (`copy_user_cstring`)

The buffer for the path has 256 bytes. A longer string is cut there, and `open` looks for what is left.
-/

namespace Kernel

open Lib

/-- The string `path` is at `ptr`, with a NUL after it, in memory that the user has. -/
structure UserString (memory : Memory) (mapped : Nat → Nat → Bool) (ptr : Nat) (path : List Byte) : Prop where
  user : 0x1000 ≤ ptr ∧ ptr + path.length < 2 ^ 47
  mapped : ∀ i ≤ path.length, mapped (ptr + i) 1 = true
  bytes : ∀ i (h : i < path.length), memory (ptr + i) = path[i]
  nonzero : ∀ c ∈ path, c ≠ 0
  nul : memory (ptr + path.length) = 0

def Ext2.IsFile (fs : Ext2) (inode : Nat) : Prop := ∃ node, fs.get_node inode = some node ∧ node.data.is_file = true

/-- The entries of the root directory are live. -/
structure LiveRoot (fs : Ext2) (content : Nat → Byte) (l : List DirRecord) : Prop where
  directory : fs.root.Directory content l
  live : ∀ e ∈ l, e.Live
  node : ∀ e ∈ l, ∃ node, fs.get_node e.inode = some node

/-- `open` fails and changes no descriptor, or the new descriptor has the file that `path` is the name of. -/
def OpensWhole (fs : Ext2) (l : List DirRecord) (s : Caller) (mapped : Nat → Nat → Bool) (rdi : Nat)
    (path : List Byte) : Prop :=
  ∃ turns r t, (sys_open (some fs) mapped turns rdi).run s = some (r, t) ∧
    (r = -1 ∧ t.fdTable = s.fdTable ∨
      r ≠ -1 ∧ ∃ e ∈ l, e.Live ∧ path = cstring e.name ∧ fs.IsFile e.inode ∧
        t.fdTable = Function.update s.fdTable r ⟨true, e.inode, 0⟩)

section

variable {fs : Ext2} {content : Nat → Byte} {l : List DirRecord} {s : Caller} {mapped : Nat → Nat → Bool}
  {turns rdi : Nat} {path : List Byte} {memory : Memory}

/-! ## The copy -/

theorem copy_loop_run (h : UserString memory mapped rdi path) {k : Nat} (hk : k + turns = 256)
    (hlen : k ≤ path.length) :
    copy_user_cstring_loop memory mapped rdi 256 turns (path.take k) = some (path.take 255) := by
  induction turns generalizing k with
  | zero =>
    unfold copy_user_cstring_loop
    rw [List.take_take]
    congr 2
    omega
  | succ turns ih =>
    have hout : (path.take k).length = k := List.length_take_of_le hlen
    have hadd : add64 rdi k = rdi + k := by
      have := h.user
      unfold add64
      omega
    unfold copy_user_cstring_loop
    rw [hout, hadd, if_neg (by simp [h.mapped k hlen])]
    dsimp only
    by_cases hend : k = path.length
    · rw [hend, if_pos h.nul, List.take_of_length_le (Nat.le_refl _), List.take_of_length_le (by omega)]
    · have hin : k < path.length := by omega
      rw [h.bytes k hin, if_neg (h.nonzero _ (List.getElem_mem hin))]
      have hnext : path.take k ++ [path[k]] = path.take (k + 1) := by
        rw [List.take_add_one, List.getElem?_eq_getElem hin]
        rfl
      rw [hnext]
      exact ih (by omega) hin

theorem copy_run (h : UserString memory mapped rdi path) :
    copy_user_cstring memory mapped rdi 256 = some (path.take 255) := by
  have hptr := h.user.1
  unfold copy_user_cstring
  rw [if_neg (by omega)]
  exact copy_loop_run h (k := 0) rfl (Nat.zero_le _)

theorem UserString.cstring_take (h : UserString memory mapped rdi path) : cstring (path.take 255) = path.take 255 :=
  List.takeWhile_eq_self_iff.mpr fun c hc => by simpa using h.nonzero c (List.mem_of_mem_take hc)

/-! ## The search -/

theorem Records.name_le {block_size size offset : Nat} (h : Records content block_size size offset l) {e : DirRecord}
    (he : e ∈ l) : e.name.length ≤ 255 := by
  induction l generalizing offset with
  | nil => cases he
  | cons r l ih =>
    obtain ⟨hat, -, hrest⟩ := h
    rcases List.mem_cons.mp he with rfl | he
    · have hlt := little_lt (bytesOf content (offset + 6) 1)
      rw [hat.name_length, length_bytesOf] at hlt
      omega
    · exact ih hrest he

theorem cstring_length_le (bytes : List Byte) : (cstring bytes).length ≤ bytes.length :=
  (List.takeWhile_prefix _).length_le

theorem LiveRoot.name_inj (h : LiveRoot fs content l) {e e' : DirRecord} (he : e ∈ l) (he' : e' ∈ l)
    (hname : cstring e.name = cstring e'.name) : e = e' := by
  have hnodup : (l.map fun e => cstring e.name).Nodup :=
    List.pairwise_map.mpr (h.directory.names.imp_of_mem fun ha hb hne => hne (h.live _ ha) (h.live _ hb))
  exact List.inj_on_of_nodup_map hnodup he he' hname

theorem LiveRoot.find (h : LiveRoot fs content l) (name : List Byte)
    (hscan : fs.root.entries turns = some (l.map fun r => (r.inode, r.name))) :
    ∃ v, fs.root.find turns name = some v ∧ Lookup l name v := by
  refine ⟨lastCalled name 0 l, ?_, (lookup_lastCalled h.directory.names).mpr ?_⟩
  · have hfold : (l.map fun r => (r.inode, r.name)).foldl
        (fun out e => if cstring name = cstring e.2 then e.1 else out) 0 = lastCalled name 0 l := List.foldl_map
    unfold Node.find
    rw [hscan]
    simp only [Option.bind_eq_bind, Option.bind_some, hfold, Option.pure_def]
  · rintro l₁ r l₂ rfl - - e he hunused
    exact absurd (h.live e (by simp [he])) hunused

theorem open_found (h : LiveRoot fs content l) (hp : UserString s.memory mapped rdi path)
    (hscan : fs.root.entries turns = some (l.map fun r => (r.inode, r.name))) {e : DirRecord} (he : e ∈ l)
    (hname : cstring e.name = path.take 255) (hfile : fs.IsFile e.inode) :
    (sys_open (some fs) mapped turns rdi).run s = (allocate_fd e.inode).run s := by
  obtain ⟨v, hfind, hlook⟩ := h.find (path.take 255) hscan
  obtain ⟨node, hnode, hregular⟩ := hfile
  have hv : v = e.inode := by
    rcases hlook with ⟨r, hr, hlive, hcalled, rfl⟩ | ⟨hnone, -⟩
    · have hsame : cstring r.name = cstring e.name := by
        rw [hname, ← hp.cstring_take]
        exact hcalled.symm
      rw [h.name_inj hr he hsame]
    · exact absurd (hp.cstring_take.trans hname.symm) (hnone e he (h.live e he))
  have hne : v ≠ 0 := by
    rw [hv]
    exact h.live e he
  unfold sys_open
  rw [Prog.get_bind_run, copy_run hp]
  dsimp only
  unfold Ext2.find
  simp only [hfind, Option.bind_eq_bind, Option.bind_some, if_neg hne]
  rw [hv, hnode, Option.bind_some, Option.pure_def, Prog.bind_run (orPanic_run.mpr ⟨rfl, rfl⟩)]
  dsimp only
  rw [if_neg (by simp [hregular]), (Ext2.get_node_number hnode).1]

theorem open_missing (h : LiveRoot fs content l) (hp : UserString s.memory mapped rdi path)
    (hscan : fs.root.entries turns = some (l.map fun r => (r.inode, r.name)))
    (hno : ∀ e ∈ l, fs.IsFile e.inode → cstring e.name ≠ path.take 255) :
    (sys_open (some fs) mapped turns rdi).run s = some (-1, s) := by
  obtain ⟨v, hfind, hlook⟩ := h.find (path.take 255) hscan
  unfold sys_open
  rw [Prog.get_bind_run, copy_run hp]
  dsimp only
  unfold Ext2.find
  simp only [hfind, Option.bind_eq_bind, Option.bind_some]
  rcases hlook with ⟨e, he, hlive, hcalled, rfl⟩ | ⟨-, rfl⟩
  · obtain ⟨node, hnode⟩ := h.node e he
    have hdir : ¬ node.data.is_file = true := fun hfile =>
      hno e he ⟨node, hnode, hfile⟩ (hcalled.symm.trans hp.cstring_take)
    have hlive : e.inode ≠ 0 := hlive
    rw [if_neg hlive, hnode, Option.bind_some, Option.pure_def, Prog.bind_run (orPanic_run.mpr ⟨rfl, rfl⟩)]
    dsimp only
    rw [if_pos hdir]
    rfl
  · rw [if_pos rfl, Option.pure_def, Prog.bind_run (orPanic_run.mpr ⟨rfl, rfl⟩)]
    rfl

theorem open_scanned (h : LiveRoot fs content l) (hp : UserString s.memory mapped rdi path) {r : Int} {t : Caller}
    (hrun : (sys_open (some fs) mapped turns rdi).run s = some (r, t)) :
    fs.root.data.size_low ≤ fs.root.reach ∧ fs.root.entries turns = some (l.map fun r => (r.inode, r.name)) := by
  unfold sys_open at hrun
  rw [Prog.get_bind_run, copy_run hp] at hrun
  dsimp only at hrun
  obtain ⟨node, u, hnode, -⟩ := Prog.run_bind.mp hrun
  have hfind := (orPanic_run.mp hnode).1
  unfold Ext2.find Node.find at hfind
  simp only [Option.bind_eq_bind, Option.bind_eq_some_iff] at hfind
  obtain ⟨-, ⟨res, hres, -⟩, -⟩ := hfind
  obtain ⟨hsize, rfl⟩ := h.directory.entries_reach hres
  exact ⟨hsize, hres⟩

/-- A longer string opens the file that its first 255 bytes are the name of. -/
theorem open_cut (hok : s.Ok) (h : LiveRoot fs content l) (hp : UserString s.memory mapped rdi path)
    (hlong : 255 < path.length) {e : DirRecord} (he : e ∈ l) (hfile : fs.IsFile e.inode)
    (hname : cstring e.name = path.take 255) {i : Int} (hi : 3 ≤ i ∧ i < maxFds) (hfree : ¬ (s.fdTable i).used = true) :
    ¬ OpensWhole fs l s mapped rdi path := by
  rintro ⟨turns, r, t, hrun, hres⟩
  obtain ⟨-, hscan⟩ := open_scanned h hp hrun
  rw [open_found h hp hscan he hname hfile] at hrun
  rcases allocate_fd_run hok e.inode with ⟨hfull, -⟩ | ⟨j, hj, -, -, hnew⟩
  · exact hfree (hfull i hi.1 hi.2)
  · rw [hnew] at hrun
    obtain ⟨rfl, rfl⟩ := Prod.mk.inj (Option.some.inj hrun)
    rcases hres with ⟨rfl, -⟩ | ⟨-, e', he', -, rfl, -⟩
    · omega
    · have := cstring_length_le e'.name
      have := h.directory.records.name_le he'
      omega

/-- **Opening.** `open` takes the whole string exactly when it is short enough for the buffer, when what is left of it
is no file, or when there is no descriptor for the file. The directory has to be one that can be read. -/
theorem open_whole_iff (hs : (fileSystem fs).Reachable s) (h : LiveRoot fs content l)
    (hp : UserString s.memory mapped rdi path) :
    OpensWhole fs l s mapped rdi path ↔
      fs.root.data.size_low ≤ fs.root.reach ∧
      (path.length ≤ 255 ∨ (∀ e ∈ l, fs.IsFile e.inode → cstring e.name ≠ path.take 255) ∨
        ∀ i : Int, 3 ≤ i → i < maxFds → (s.fdTable i).used = true) := by
  have hok := (opened_of_reachable hs).toOk
  constructor
  · intro hopens
    obtain ⟨turns, r, t, hrun, -⟩ := id hopens
    refine ⟨(open_scanned h hp hrun).1, ?_⟩
    by_contra hcon
    simp only [not_or, not_forall, not_not] at hcon
    obtain ⟨hlong, ⟨e, he, hfile, hname⟩, i, hlow, hhigh, hfree⟩ := hcon
    exact open_cut hok h hp (by omega) he hfile hname ⟨hlow, hhigh⟩ hfree hopens
  · rintro ⟨hsize, hcond⟩
    have hscan := h.directory.entries_run hsize (Nat.lt_succ_self _)
    refine ⟨l.length + 1, ?_⟩
    by_cases hex : ∃ e ∈ l, fs.IsFile e.inode ∧ cstring e.name = path.take 255
    · obtain ⟨e, he, hfile, hname⟩ := hex
      rw [open_found h hp hscan he hname hfile]
      rcases allocate_fd_run hok e.inode with ⟨-, hnone⟩ | ⟨i, hlow, hhigh, hfree, hnew⟩
      · exact ⟨-1, s.ready, hnone, Or.inl ⟨rfl, rfl⟩⟩
      · refine ⟨i, _, hnew, Or.inr ⟨by omega, e, he, h.live e he, ?_, hfile, rfl⟩⟩
        rcases hcond with hshort | hno | hfull
        · rw [hname, List.take_of_length_le hshort]
        · exact absurd hname (hno e he hfile)
        · rw [hfull i hlow hhigh] at hfree
          cases hfree
    · have hno : ∀ e ∈ l, fs.IsFile e.inode → cstring e.name ≠ path.take 255 := fun e he hfile hname =>
        hex ⟨e, he, hfile, hname⟩
      exact ⟨-1, s, open_missing h hp hscan hno, Or.inl ⟨rfl, rfl⟩⟩

end

/-! ## A name of 255 bytes -/

/-- One record, and inode 4 in the bytes behind its name. -/
def longBlock : List Byte :=
  [4, 0, 0, 0, 0, 4, 255, 1] ++ List.replicate 255 97 ++ List.replicate 121 0 ++ [0, 0x80] ++ List.replicate 638 0

def longName : List Byte := List.replicate 255 97

def longFs : Ext2 where
  device := (blockDir longBlock).device
  root := blockDir longBlock
  blockSize := 1024
  numberOfNodes := 16
  numberOfBlocks := 8
  iNodeSize := 128
  nGroups := 1
  iNodeTables _ := 0
  iNodesPerGroup := 16

def longRecords : List DirRecord := [⟨4, 1024, longName⟩]

theorem longBlock_length : longBlock.length = 1024 := by
  simp only [longBlock, List.length_append, List.length_replicate, List.length_cons, List.length_nil]

theorem longFs_file : longFs.IsFile 4 := by
  have hread : (longFs.get_node 4).map (fun node => node.data.is_file) = some true := by decide +kernel
  exact Option.map_eq_some_iff.mp hread

theorem longFs_live : LiveRoot longFs (fun j => longBlock.getD j 0) longRecords := by
  refine ⟨⟨blockDir_stores longBlock_length, rfl, ?_, List.pairwise_singleton _ _⟩, ?_, ?_⟩
  · refine ⟨⟨by decide, by decide, ?_, ?_, ?_⟩, by decide, rfl⟩
    · decide +kernel
    · decide +kernel
    · decide +kernel
  · intro e he
    rw [List.mem_singleton.mp he]
    exact Nat.succ_ne_zero 3
  · intro e he
    rw [List.mem_singleton.mp he]
    obtain ⟨node, hnode, -⟩ := longFs_file
    exact ⟨node, hnode⟩

/-- A process whose string has `n` bytes. -/
def longCaller (n : Nat) : Caller := ⟨fun _ => ⟨false, 0, 0⟩, false, fun a => if 4096 ≤ a ∧ a < 4096 + n then 97 else 0⟩

theorem longCaller_reachable (n : Nat) : (fileSystem longFs).Reachable (longCaller n) :=
  ⟨_, [], ⟨rfl, fun _ => rfl⟩, .nil _⟩

theorem longCaller_string {n : Nat} (hn : n < 2 ^ 46) :
    UserString (longCaller n).memory (fun _ _ => true) 4096 (List.replicate n 97) := by
  refine ⟨?_, fun _ _ => rfl, fun i hi => ?_, fun c hc => ?_, ?_⟩
  · rw [List.length_replicate]
    omega
  · rw [List.length_replicate] at hi
    rw [List.getElem_replicate]
    exact if_pos (by omega)
  · rw [List.eq_of_mem_replicate hc]
    decide
  · rw [List.length_replicate]
    exact if_neg (by omega)

/-- A string of 256 bytes opens the file whose name has 255. -/
theorem longFs_cut : ¬ ∀ (fs : Ext2) (content : Nat → Byte) (l : List DirRecord) (s : Caller)
    (mapped : Nat → Nat → Bool) (rdi : Nat) (path : List Byte), (fileSystem fs).Reachable s → LiveRoot fs content l →
    UserString s.memory mapped rdi path → OpensWhole fs l s mapped rdi path := by
  intro hall
  have hs := longCaller_reachable 256
  have hp := longCaller_string (n := 256) (by decide)
  refine open_cut (opened_of_reachable hs).toOk longFs_live hp ?_ (List.mem_singleton.mpr rfl) longFs_file ?_
    (i := 3) (by decide) (by decide) (hall _ _ _ _ _ _ _ hs longFs_live hp)
  · rw [List.length_replicate]
    decide
  · rw [List.take_replicate]
    decide +kernel

theorem longFs_whole : OpensWhole longFs longRecords (longCaller 255)
    (fun _ _ => true) 4096 (List.replicate 255 97) := by
  refine (open_whole_iff (longCaller_reachable 255) longFs_live (longCaller_string (by decide))).mpr
    ⟨by decide, Or.inl ?_⟩
  rw [List.length_replicate]

end Kernel
