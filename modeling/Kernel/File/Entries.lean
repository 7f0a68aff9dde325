import Kernel.File.Directory
import Mathlib.Algebra.GroupWithZero.Nat

/-!
# Directory records on the disk (`Node::entries`)

A record may cross blocks. The name is given to `work` in a new buffer, whose
bytes can be any before it is filled.
-/

namespace Kernel

open Lib

/-- `name`, as `work` gets it: `name_length + 1` bytes of a new buffer. -/
def Node.entry_name (node : Node) (offset name_length : Nat) : Prog Memory (List Byte) := do
  let name := 0
  modify fun m => m.fill (name + name_length) 1 fun _ => 0
  let cnt ← node.io.read_all (add32 offset 8) name_length name
  Prog.assert (cnt = name_length)
  let m ← get
  pure ((List.range (name_length + 1)).map fun i => m (name + i))

/-- One turn of the loop of `entries`: the arguments of `work`, and the next offset. -/
def Node.call (node : Node) (heap : Memory) (offset : Nat) : Option ((Nat × List Byte) × Nat) := do
  let inode ← node.io.readThing offset 4
  let total_size ← node.io.readThing (add32 offset 4) 2
  let name_length ← node.io.readThing (add32 offset 6) 1
  let (name, _) ← (node.entry_name offset (little name_length)).run heap
  pure ((little inode, name), add32 offset (little total_size))

def Node.calls_loop (node : Node) (heap : Nat → Memory) : Nat → Nat → Option (List (Nat × List Byte))
  | 0, _ => none
  | turns + 1, offset =>
    if offset < node.data.size_low then do
      let (args, next) ← node.call (heap offset) offset
      let rest ← node.calls_loop heap turns next
      pure (args :: rest)
    else pure []

/-- The calls of `work`, where the buffer of the turn at `offset` has the bytes `heap offset`. -/
def Node.calls (node : Node) (heap : Nat → Memory) (turns : Nat) : Option (List (Nat × List Byte)) := do
  guard node.data.is_dir
  node.calls_loop heap turns 0

/-! ## Records -/

def toLittle : Nat → Nat → List Byte
  | 0, _ => []
  | n + 1, v => BitVec.ofNat 8 v :: toLittle n (v / 256)

structure DirEntry where
  inode : BitVec 32
  name : List Byte
  file_type : Byte
  padding : List Byte
  name_le : name.length ≤ 255
  rec_len_lt : 8 + name.length + padding.length < 2 ^ 16

def DirEntry.rec_len (e : DirEntry) : Nat := 8 + e.name.length + e.padding.length

def DirEntry.header (e : DirEntry) : List Byte :=
  toLittle 4 e.inode.toNat ++ (toLittle 2 e.rec_len ++ (toLittle 1 e.name.length ++ [e.file_type]))

def DirEntry.encode (e : DirEntry) : List Byte := e.header ++ (e.name ++ e.padding)

def DirEntry.record (e : DirEntry) : DirRecord := ⟨e.inode.toNat, e.rec_len, e.name⟩

/-- `node` is a directory of the records, end to end. -/
structure Node.Holds (node : Node) (content : Nat → Byte) (l : List DirEntry) : Prop extends node.Stores content where
  is_dir : node.data.is_dir = true
  size : node.data.size_low = (l.map DirEntry.rec_len).sum
  encoded : bytesOf content 0 node.data.size_low = l.flatMap DirEntry.encode

/-- The headers and names of the records are in blocks that no double-indirect pointer leads to. -/
def Node.Reaches (node : Node) (l : List DirEntry) : Prop :=
  ∀ l₁ e l₂, l = l₁ ++ e :: l₂ → (l₁.map DirEntry.rec_len).sum + 8 + e.name.length ≤ node.reach

section

variable {node : Node} {content : Nat → Byte} {l : List DirEntry} {e : DirEntry} {offset turns : Nat}

@[simp] theorem length_toLittle (n v : Nat) : (toLittle n v).length = n := by
  induction n generalizing v with
  | zero => rfl
  | succ n ih => simp [toLittle, ih]

theorem little_toLittle {n v : Nat} (h : v < 256 ^ n) : little (toLittle n v) = v := by
  induction n generalizing v with
  | zero =>
    obtain rfl : v = 0 := by omega
    rfl
  | succ n ih =>
    have hcons : little (toLittle (n + 1) v) = (BitVec.ofNat 8 v).toNat + 256 * little (toLittle n (v / 256)) := rfl
    rw [hcons, ih (by rw [Nat.pow_succ] at h; omega), BitVec.toNat_ofNat]
    omega

theorem DirEntry.length_encode (e : DirEntry) : e.encode.length = e.rec_len := by
  simp [DirEntry.encode, DirEntry.header, DirEntry.rec_len]
  omega

theorem length_encodes (l : List DirEntry) : (l.map DirEntry.encode).flatten.length = (l.map DirEntry.rec_len).sum := by
  rw [List.length_flatten, List.map_map]
  exact congrArg List.sum (List.map_congr_left fun e _ => e.length_encode)

theorem bytesOf_append (content : Nat → Byte) (offset n k : Nat) :
    bytesOf content offset (n + k) = bytesOf content offset n ++ bytesOf content (offset + n) k := by
  unfold bytesOf
  rw [List.range_add, List.map_append, List.map_map]
  simp [Function.comp_def, Nat.add_assoc]

theorem bytesOf_split {s t : List Byte} {n : Nat} (h : bytesOf content offset n = s ++ t) :
    bytesOf content offset s.length = s ∧ bytesOf content (offset + s.length) t.length = t := by
  have hlen := congrArg List.length h
  rw [length_bytesOf, List.length_append] at hlen
  rw [hlen, bytesOf_append] at h
  exact List.append_inj h length_bytesOf

theorem DirEntry.at_of_encode (h : bytesOf content offset e.rec_len = e.encode) : e.record.At content offset := by
  have hname := e.name_le
  have hrec := e.rec_len_lt
  obtain ⟨hheader, hrest⟩ := bytesOf_split h
  obtain ⟨hinode, htail⟩ := bytesOf_split hheader
  obtain ⟨hlen, htail⟩ := bytesOf_split htail
  obtain ⟨hname_length, -⟩ := bytesOf_split htail
  obtain ⟨hbytes, -⟩ := bytesOf_split hrest
  have height : e.header.length = 8 := by simp [DirEntry.header]
  simp only [length_toLittle, height, Nat.add_assoc, Nat.reduceAdd] at hinode hlen hname_length hbytes
  refine ⟨?_, ?_, ?_, hbytes, ?_⟩
  · rw [hinode, little_toLittle e.inode.isLt]
    rfl
  · rw [hlen]
    exact little_toLittle hrec
  · rw [hname_length]
    exact little_toLittle (by omega)
  · exact Nat.le_add_right _ _

/-! ## One turn -/

theorem Node.Stores.entry_name_run (h : node.Stores content) {n : Nat} {name : List Byte}
    (hname : bytesOf content (offset + 8) n = name) (hsize : offset + 8 + n ≤ node.data.size_low)
    (hreach : offset + 8 + n ≤ node.reach) (m : Memory) :
    ∃ u, (node.entry_name offset n).run m = some (name ++ [0], u) := by
  have hlt := h.size_lt
  have hread : (node.io.read_all (offset + 8) n 0).run (m.fill (0 + n) 1 fun _ => 0) = _ :=
    h.deliversTo.read_all_run (by omega) _
  refine ⟨(m.fill (0 + n) 1 fun _ => 0).fill 0 n fun i => node.io.byte (offset + 8 + i), ?_⟩
  unfold Node.entry_name
  rw [Prog.modify_bind_run, add32_eq (by omega), Prog.bind_run hread, Prog.assert_bind_run rfl, Prog.get_bind_run]
  refine Prog.run_pure.mpr ⟨?_, rfl⟩
  rw [List.range_succ, List.map_append, List.map_singleton, ← hname, ← h.bytesAt hsize hreach]
  congr 1
  · refine (List.map_congr_left fun i hi => ?_).symm
    exact Memory.fill_self _ (List.mem_range.mp hi)
  · have hnul : m.fill (0 + n) 1 (fun _ => 0) (0 + n + 0) = 0 := Memory.fill_self _ Nat.one_pos
    rw [Memory.fill_other _ (Or.inr (by omega))]
    exact congrArg (fun b => [b]) hnul.symm

theorem Node.Stores.call_run (h : node.Stores content) (hat : bytesOf content offset e.rec_len = e.encode)
    (hsize : offset + e.rec_len ≤ node.data.size_low) (hreach : offset + 8 + e.name.length ≤ node.reach)
    (heap : Memory) :
    node.call heap offset = some ((e.inode.toNat, e.name ++ [0]), offset + e.rec_len) ∧
    node.entry offset = some ((e.inode.toNat, e.name), offset + e.rec_len) := by
  have hlt := h.size_lt
  have hrec := DirEntry.at_of_encode hat
  have hfits : 8 + e.name.length ≤ e.rec_len := hrec.fits
  have hthing : ∀ k n, k + n ≤ 8 + e.name.length →
      node.io.readThing (offset + k) n = some (bytesOf content (offset + k) n) := fun k n hk => by
    rw [h.deliversTo.readThing_run (by omega), h.bytesAt (by omega) (by omega)]
  obtain ⟨u, hname⟩ := h.entry_name_run hrec.name (by
    show offset + 8 + e.name.length ≤ _
    omega) hreach heap
  have hlen : little (bytesOf content (offset + 6) 1) = e.name.length := hrec.name_length
  have hinode := hthing 0 4 (by omega)
  rw [Nat.add_zero] at hinode
  unfold Node.call Node.entry
  rw [add32_eq (by omega), add32_eq (by omega), hinode, hthing 4 2 (by omega), hthing 6 1 (by omega)]
  simp only [Option.bind_eq_bind, Option.bind_some, Option.pure_def, hlen, hrec.inode, hrec.rec_len]
  constructor
  · have hname : (node.entry_name offset e.name.length).run heap = some (e.name ++ [0], u) := hname
    rw [hname, Option.bind_some]
    show some ((e.inode.toNat, e.name ++ [0]), add32 offset e.rec_len) = _
    rw [add32_eq (by omega)]
  · have hbytes : bytesOf content (offset + 8) e.name.length = e.name := hrec.name
    rw [add32_eq (by omega), hthing 8 _ (by omega), hbytes, Option.bind_some]
    show some ((e.inode.toNat, e.name), add32 offset e.rec_len) = _
    rw [add32_eq (by omega)]

/-! ## The loop -/

theorem Node.Stores.calls_loop_run (h : node.Stores content) (heap : Nat → Memory)
    (hsize : offset + (l.map DirEntry.rec_len).sum = node.data.size_low)
    (hl : bytesOf content offset (l.map DirEntry.rec_len).sum = l.flatMap DirEntry.encode)
    (hreach : ∀ l₁ e l₂, l = l₁ ++ e :: l₂ → offset + (l₁.map DirEntry.rec_len).sum + 8 + e.name.length ≤ node.reach)
    (ht : l.length < turns) :
    node.calls_loop heap turns offset = some (l.map fun e => (e.inode.toNat, e.name ++ [0])) ∧
    node.entries_loop turns offset = some (l.map fun e => (e.inode.toNat, e.name)) := by
  induction l generalizing offset turns with
  | nil =>
    cases turns with
    | zero => omega
    | succ turns =>
      have hend : offset = node.data.size_low := hsize
      unfold Node.calls_loop Node.entries_loop
      rw [if_neg (by omega), if_neg (by omega)]
      exact ⟨rfl, rfl⟩
  | cons e l ih =>
    cases turns with
    | zero => omega
    | succ turns =>
      rw [List.map_cons, List.sum_cons] at hsize
      obtain ⟨hhead, htail⟩ := bytesOf_split hl
      rw [e.length_encode] at hhead htail
      rw [length_encodes] at htail
      have hfirst := hreach [] e l rfl
      obtain ⟨hcall, hentry⟩ := h.call_run hhead (by omega) hfirst (heap offset)
      have hpos : 0 < e.rec_len := by
        unfold DirEntry.rec_len
        omega
      obtain ⟨hcalls, hentries⟩ := ih (by omega) htail (fun l₁ f l₂ hl => by
        have hle := hreach (e :: l₁) f l₂ (by rw [hl]; rfl)
        rw [List.map_cons, List.sum_cons] at hle
        omega) (Nat.lt_of_succ_lt_succ ht)
      unfold Node.calls_loop Node.entries_loop
      rw [if_pos (by omega), if_pos (by omega), hcall, hentry]
      simp only [Option.bind_eq_bind, Option.bind_some, hcalls, hentries, Option.pure_def, List.map_cons, and_self]

end

variable {node : Node} {content : Nat → Byte} {l : List DirEntry}

/-- `entries` gives `work` the records of the directory, whatever the heap holds. -/
theorem entries_decode (h : node.Holds content l) (hreach : node.Reaches l) (heap : Nat → Memory) {turns : Nat}
    (ht : l.length < turns) :
    node.calls heap turns = some (l.map fun e => (e.inode.toNat, e.name ++ [0])) ∧
    node.entries turns = some (l.map fun e => (e.inode.toNat, e.name)) := by
  have hsize := h.size
  have hencoded := h.encoded
  rw [hsize] at hencoded
  obtain ⟨hcalls, hentries⟩ := h.toStores.calls_loop_run heap (show 0 + _ = _ by omega) hencoded
    (fun l₁ e l₂ hl => by
      have := hreach l₁ e l₂ hl
      omega) ht
  unfold Node.calls Node.entries
  rw [hcalls, hentries]
  simp [guard, h.is_dir]

/-! ## Records of 63 blocks -/

def wideBlock : List Byte := [11, 0, 0, 0, 0, 0xfc, 0, 2] ++ List.replicate 1016 0

/-- The indirect block: all pointers are 2. -/
def wideIndirect : List Byte := (List.range 1024).map fun j => if j % 4 = 0 then 2 else 0

/-- A directory of `n` records, whose blocks are all one block of the device. -/
def wideDir (n : Nat) : Node where
  number := 2
  block_size := 1024
  data := {
    mode := 4 * 2 ^ 12, size_low := 64512 * n, n_sectors := 2 * (63 * n + 1), direct := fun _ => 2, indirect_1 := 1 }
  device := ⟨1024, 3072, fun b => some (if b = 1 then wideIndirect else wideBlock)⟩

def wideContent (j : Nat) : Byte := wideBlock.getD (j % 1024) 0

def widePadding : List Byte := bytesOf wideContent 8 64504

theorem widePadding_length : widePadding.length = 64504 := length_bytesOf

def wideEntry : DirEntry where
  inode := 11
  name := []
  file_type := 2
  padding := widePadding
  name_le := by decide
  rec_len_lt := by
    rw [widePadding_length]
    decide

theorem wideDir_pointer {n i : Nat} (hi : i < 12 + (wideDir n).block_size / 4) : (wideDir n).pointer i = 2 := by
  have hblock : (wideDir n).block_size = 1024 := rfl
  rw [hblock] at hi
  unfold Node.pointer
  by_cases hdirect : i < 12
  · rw [if_pos hdirect]
    rfl
  · have hbytes : (wideDir n).device.bytesAt (1024 + (i - 12) * 4) 4 = [2, 0, 0, 0] := by
      have hbyte : ∀ k < 4, (wideDir n).device.byte (1024 + (i - 12) * 4 + k) = if k = 0 then 2 else 0 := by
        intro k hk
        have hdiv : (1024 + (i - 12) * 4 + k) / 1024 = 1 := by omega
        have hmod : (1024 + (i - 12) * 4 + k) % 1024 = (i - 12) * 4 + k := by omega
        show ((some (if (1024 + (i - 12) * 4 + k) / 1024 = 1 then wideIndirect else wideBlock)).getD []).getD
          ((1024 + (i - 12) * 4 + k) % 1024) 0 = _
        rw [hdiv, hmod, if_pos rfl, Option.getD_some]
        unfold wideIndirect
        rw [List.getD_eq_getElem?_getD, List.getElem?_map, List.getElem?_range (by omega)]
        have hzero : ((i - 12) * 4 + k) % 4 = 0 ↔ k = 0 := by omega
        simp only [Option.map_some, Option.getD_some, hzero]
      have hfirst := hbyte 0 (by decide)
      rw [Nat.add_zero] at hfirst
      unfold BlockIO.bytesAt
      simp [List.range_succ, hbyte, hfirst]
    have hindirect : (wideDir n).data.indirect_1 = 1 := rfl
    rw [if_neg hdirect, if_neg (by rw [hindirect]; decide), hindirect, hblock, Nat.one_mul]
    unfold BlockIO.word32
    rw [hbytes]
    rfl

theorem wideBlock_length : wideBlock.length = 1024 := by
  unfold wideBlock
  rw [List.length_append, List.length_replicate]
  rfl

theorem wideDir_delivers (n : Nat) : (wideDir n).device.Delivers where
  block_size_pos := by
    show 0 < 1024
    decide
  block_size_lt := by
    show 1024 < 2 ^ 32
    decide
  size_lt := by
    show 3072 < 2 ^ 32
    decide
  block i _ := by
    refine ⟨_, rfl, ?_⟩
    show (if i = 1 then wideIndirect else wideBlock).length = 1024
    split_ifs
    · unfold wideIndirect
      rw [List.length_map, List.length_range]
    · exact wideBlock_length

theorem wideDir_stores {n : Nat} (hn : n ≤ 6) : (wideDir n).Stores wideContent := by
  refine ⟨⟨wideDir_delivers n, ⟨0, rfl⟩, fun _ _ => ?_, ?_, fun i hi => ?_⟩, ?_, fun i hi => ?_, fun i hi _ => ?_,
    fun i hi _ j hj => ?_⟩
  · show (2 + 1) * 1024 ≤ 3072
    decide
  · show (1 + 1) * 1024 ≤ 3072
    decide
  · rw [wideDir_pointer hi]
    show (2 + 1) * 1024 ≤ 3072
    decide
  · show 64512 * n < 2 ^ 32
    omega
  · have hi : i * 1024 < 64512 * n := hi
    show i < 2 * (63 * n + 1) / (1024 / 512)
    omega
  · rw [wideDir_pointer hi]
    decide
  · have hj : j < 1024 := hj
    rw [wideDir_pointer hi]
    show wideBlock.getD ((i * 1024 + j) % 1024) 0 =
      ((some (if (2 * 1024 + j) / 1024 = 1 then wideIndirect else wideBlock)).getD []).getD ((2 * 1024 + j) % 1024) 0
    rw [if_neg (by omega), Option.getD_some]
    exact congrArg (fun k => wideBlock.getD k 0) (by omega)

theorem wideEntry_padding : wideEntry.padding = bytesOf wideContent 8 64504 := by
  dsimp only [wideEntry, widePadding]

theorem wideEntry_rec_len : wideEntry.rec_len = 64512 := by
  have hname : wideEntry.name.length = 0 := rfl
  -- By its equation: to unfold the sum makes the kernel count the padding.
  rw [DirEntry.rec_len, hname, wideEntry_padding, length_bytesOf]

theorem wideEntry_encode : wideEntry.encode = bytesOf wideContent 0 64512 := by
  have hheader : wideEntry.header = bytesOf wideContent 0 8 := by
    rw [DirEntry.header, wideEntry_rec_len]
    decide
  have hname : wideEntry.name = [] := rfl
  unfold DirEntry.encode
  rw [hheader, hname, List.nil_append, wideEntry_padding]
  exact (bytesOf_append wideContent 0 8 64504).symm

theorem wideContent_encode (n : Nat) :
    bytesOf wideContent 0 (64512 * n) = (List.replicate n wideEntry).flatMap DirEntry.encode := by
  induction n with
  | zero => rfl
  | succ n ih =>
    rw [List.replicate_succ, List.flatMap_cons, ← ih, wideEntry_encode, Nat.mul_succ, Nat.add_comm, bytesOf_append]
    refine congrArg _ (List.map_congr_left fun i _ => ?_)
    exact congrArg (fun k => wideBlock.getD k 0) (by omega)

theorem wideEntry_sizes (n : Nat) : 64512 * n = ((List.replicate n wideEntry).map DirEntry.rec_len).sum := by
  induction n with
  | zero => rfl
  | succ n ih =>
    rw [List.replicate_succ, List.map_cons, List.sum_cons, ← ih, wideEntry_rec_len]
    omega

theorem wideDir_holds {n : Nat} (hn : n ≤ 6) : (wideDir n).Holds wideContent (List.replicate n wideEntry) where
  toStores := wideDir_stores hn
  is_dir := by
    have hmode : (wideDir n).data.mode = 4 * 2 ^ 12 := rfl
    unfold NodeData.is_dir NodeData.get_type
    rw [hmode]
    rfl
  size := wideEntry_sizes n
  encoded := wideContent_encode n

theorem wideDir_reaches {n : Nat} (hn : n ≤ 5) : (wideDir n).Reaches (List.replicate n wideEntry) := by
  intro l₁ e l₂ hl
  obtain ⟨hlen, hl₁, hl₂⟩ := List.append_eq_replicate_iff.mp hl.symm
  rw [List.length_cons] at hlen
  have he : e = wideEntry := by
    rw [List.length_cons] at hl₂
    exact (List.cons.inj hl₂).1
  have hblock : (wideDir n).block_size = 1024 := rfl
  have hname : wideEntry.name.length = 0 := rfl
  unfold Node.reach
  rw [hl₁, ← wideEntry_sizes, hblock, he, hname]
  omega

theorem Node.calls_loop_none {node : Node} {heap : Nat → Memory} {offset : Nat} (ho : offset < node.data.size_low)
    (h : ∀ args next, node.call (heap offset) offset = some (args, next) →
      ∀ turns, node.calls_loop heap turns next = none) (turns : Nat) : node.calls_loop heap turns offset = none := by
  cases turns with
  | zero => rfl
  | succ turns =>
    unfold Node.calls_loop
    rw [if_pos ho]
    cases hcall : node.call (heap offset) offset with
    | none => rfl
    | some r =>
      simp only [Option.bind_eq_bind, Option.bind_some, h r.1 r.2 hcall turns, Option.bind_none]

/-- The sixth record of `wideDir 6` is behind a double-indirect pointer. -/
theorem wideDir_stops (heap : Nat → Memory) (turns k : Nat) (hk : k ≤ 5) :
    (wideDir 6).calls_loop heap turns (64512 * (5 - k)) = none := by
  have hstores := wideDir_stores (n := 6) (by decide)
  have hsize : (wideDir 6).data.size_low = 64512 * 6 := rfl
  have hreach : (wideDir 6).reach = 268 * 1024 := rfl
  induction k generalizing turns with
  | zero =>
    refine Node.calls_loop_none (by omega) (fun args next hcall => ?_) turns
    have hfar := @readThing_none (wideDir 6).io (64512 * 5) 4 (read_block_far (by decide))
      (by decide) (by decide)
    unfold Node.call at hcall
    rw [hfar] at hcall
    cases hcall
  | succ k ih =>
    refine Node.calls_loop_none (by omega) (fun args next hcall turns => ?_) turns
    have hat : bytesOf wideContent (64512 * (5 - (k + 1))) wideEntry.rec_len = wideEntry.encode := by
      rw [wideEntry_encode, wideEntry_rec_len]
      exact List.map_congr_left fun i _ => congrArg (fun k => wideBlock.getD k 0) (by omega)
    have hname : wideEntry.name.length = 0 := rfl
    have hlen := wideEntry_rec_len
    have hrun := (hstores.call_run hat (by omega) (by omega) (heap (64512 * (5 - (k + 1))))).1
    rw [hcall] at hrun
    have hnext : next = 64512 * (5 - k) := by
      have hsnd : next = 64512 * (5 - (k + 1)) + wideEntry.rec_len := congrArg Prod.snd (Option.some.inj hrun)
      omega
    rw [hnext]
    exact ih turns (by omega)

theorem wideDir_not_decoded : ¬ ∀ (node : Node) (content : Nat → Byte) (l : List DirEntry) (heap : Nat → Memory),
    node.Holds content l →
    ∃ turns, node.calls heap turns = some (l.map fun e => (e.inode.toNat, e.name ++ [0])) := by
  intro h
  obtain ⟨turns, hcalls⟩ := h (wideDir 6) wideContent (List.replicate 6 wideEntry) (fun _ _ => 0)
    (wideDir_holds (by decide))
  unfold Node.calls at hcalls
  rw [wideDir_stops (fun _ _ => 0) turns 5 (Nat.le_refl 5)] at hcalls
  simp [guard, (wideDir_holds (n := 6) (by decide)).is_dir] at hcalls

theorem wideDir_decoded : (wideDir 2).calls (fun _ _ => 0xff) 3 = some [(11, [0]), (11, [0])] ∧
    (wideDir 2).entries 3 = some [(11, []), (11, [])] :=
  entries_decode (wideDir_holds (by decide)) (wideDir_reaches (by decide)) _ (by decide)

end Kernel
