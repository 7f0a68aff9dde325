import Kernel.Elf.Memory
import Kernel.File.Stores

/-!
# The script of an executable

What `ELF.load` asks for when the file is a proper executable, and the bytes that come of it.
-/

namespace Kernel

open Lib

/-! ## Operations on bytes -/

def Image.after (M : Image) : LoadOp → Image
  | .map_range start size => M.extend start size
  | .put p b => M.put p b

/-- The operation stays in the lower half, and a store finds its page. -/
def LoadOp.Fits (M : Image) : LoadOp → Prop
  | .map_range start size => start + size ≤ 2 ^ 47
  | .put p _ => p < 2 ^ 47 ∧ (M p).isSome

def FitsAll : Image → List LoadOp → Prop
  | _, [] => True
  | M, o :: ops => o.Fits M ∧ FitsAll (M.after o) ops

/-- The frames that the operation takes at most. -/
def LoadOp.cost : LoadOp → Nat
  | .map_range start size => 4 * pagesOf start size
  | .put _ _ => 0

def opsCost (ops : List LoadOp) : Nat := (ops.map LoadOp.cost).sum

theorem fitsAll_append {M : Image} {l₁ l₂ : List LoadOp} :
    FitsAll M (l₁ ++ l₂) ↔ FitsAll M l₁ ∧ FitsAll (l₁.foldl Image.after M) l₂ := by
  induction l₁ generalizing M with
  | nil => exact (and_iff_right trivial).symm
  | cons o l ih => exact (and_congr_right fun _ => ih).trans and_assoc.symm

section

variable {s t u : Machine} {F F' D : Set Nat} {root c : Nat} {M : Image} {nodes : Nat → BlockIO} {ops : List LoadOp}
  {o : LoadOp}

theorem Holding.act (h : Holding s F D root u F' M c) (hr : OnRoot s root) (hs : SmallOnly s root) (hfit : o.Fits M)
    (hrun : (o.act nodes).run u = some ((), t)) :
    ∃ F'', Holding s F D root t F'' (M.after o) (c + o.cost) := by
  cases o with
  | map_range start size =>
    obtain ⟨F'', ht⟩ := h.zeros.map_range h.next (h.onRoot hr) hfit hrun
    refine ⟨F'', (h.trans ht).congr (fun a ha => ?_) (Nat.le_refl _)⟩
    show Image.extend (u.userByte root) start size a = Image.extend M start size a
    unfold Image.extend
    rw [h.bytes a ha]
  | put p b => exact ⟨F', h.put hr hs hfit.1 hfit.2 hrun⟩

theorem Holding.act_returns (nodes : Nat → BlockIO) (h : Holding s F D root u F' M c) (hr : OnRoot s root)
    (hs : SmallOnly s root) (ho : StoreOpen s root) (hfit : o.Fits M) (hF : c + o.cost ≤ F.ncard) :
    ∃ t, (o.act nodes).run u = some ((), t) := by
  have hcost := h.cost
  cases o with
  | map_range start size =>
    have hpages : LoadOp.cost (.map_range start size) = 4 * pagesOf start size := rfl
    exact h.zeros.map_range_returns h.next (h.onRoot hr) hfit (by omega)
  | put p b => exact h.put_returns nodes b hr hs ho hfit.1 hfit.2

theorem Holding.runAll (h : Holding s F D root u F' M c) (hr : OnRoot s root) (hs : SmallOnly s root)
    (hfit : FitsAll M ops) (hrun : (Script.runAll (LoadOp.act nodes) ops).run u = some ((), t)) :
    ∃ F'', Holding s F D root t F'' (ops.foldl Image.after M) (c + opsCost ops) := by
  induction ops generalizing u F' M c with
  | nil =>
    obtain ⟨-, rfl⟩ := Prog.run_pure.mp hrun
    exact ⟨F', h⟩
  | cons o ops ih =>
    obtain ⟨_, v, hv, hrun⟩ := Prog.run_bind.mp hrun
    obtain ⟨F₁, h₁⟩ := h.act hr hs hfit.1 hv
    obtain ⟨F₂, h₂⟩ := ih h₁ hfit.2 hrun
    exact ⟨F₂, h₂.congr (fun _ _ => rfl) (by rw [opsCost, opsCost, List.map_cons, List.sum_cons, Nat.add_assoc])⟩

theorem Holding.runAll_returns (nodes : Nat → BlockIO) (h : Holding s F D root u F' M c) (hr : OnRoot s root)
    (hs : SmallOnly s root) (ho : StoreOpen s root) (hfit : FitsAll M ops) (hF : c + opsCost ops ≤ F.ncard) :
    ∃ t, (Script.runAll (LoadOp.act nodes) ops).run u = some ((), t) := by
  induction ops generalizing u F' M c with
  | nil => exact ⟨u, rfl⟩
  | cons o ops ih =>
    rw [opsCost, List.map_cons, List.sum_cons, ← opsCost, ← Nat.add_assoc] at hF
    obtain ⟨v, hv⟩ := h.act_returns nodes hr hs ho hfit.1 (by omega)
    obtain ⟨F₁, h₁⟩ := h.act hr hs hfit.1 hv
    obtain ⟨t, ht⟩ := ih h₁ hfit.2 hF
    exact ⟨t, (Prog.bind_run hv).trans ht⟩

end

/-! ## One segment -/

section

variable {file : BlockIO} {content : Nat → Byte} {offset n buffer turns : Nat} {M : Image} {f : Nat → Byte}

def putAll (buffer n : Nat) (f : Nat → Byte) : List LoadOp := (List.range n).map fun i => .put (buffer + i) (f i)

theorem putAll_append (buffer k l : Nat) (f : Nat → Byte) :
    putAll buffer k f ++ putAll (buffer + k) l (fun i => f (k + i)) = putAll buffer (k + l) f := by
  unfold putAll
  rw [List.range_add, List.map_append, List.map_map]
  simp only [Function.comp_def, Nat.add_assoc]

theorem foldl_putAll : (putAll buffer n f).foldl Image.after M =
    fun a => if buffer ≤ a ∧ a < buffer + n then some (f (a - buffer)) else M a := by
  induction n with
  | zero =>
    funext a
    rw [if_neg (by omega)]
    rfl
  | succ n ih =>
    unfold putAll at *
    rw [List.range_succ, List.map_append, List.foldl_append, ih]
    funext a
    show (if a = buffer + n then some (f n) else if _ then _ else _) = _
    by_cases ha : a = buffer + n
    · rw [if_pos ha, if_pos (by omega), ha, Nat.add_sub_cancel_left]
    · rw [if_neg ha]
      congr 1
      simp only [eq_iff_iff]
      omega

theorem fitsAll_putAll (h : ∀ i < n, buffer + i < 2 ^ 47 ∧ (M (buffer + i)).isSome) :
    FitsAll M (putAll buffer n f) := by
  induction n with
  | zero => trivial
  | succ n ih =>
    have hsplit := putAll_append buffer n 1 f
    rw [← hsplit, fitsAll_append, foldl_putAll]
    refine ⟨ih fun i hi => h i (by omega), ⟨?_, trivial⟩⟩
    obtain ⟨hlt, hsome⟩ := h n (by omega)
    refine ⟨hlt, ?_⟩
    show Option.isSome (if _ then _ else _) = true
    rw [if_neg (by omega)]
    exact hsome

@[simp] theorem opsCost_putAll : opsCost (putAll buffer n f) = 0 := by
  unfold opsCost putAll
  rw [List.map_map]
  exact List.sum_eq_zero fun x hx => by
    obtain ⟨i, -, rfl⟩ := List.mem_map.mp hx
    rfl

theorem ELF.read_all_loop_run (h : file.Delivers) (ht : n < turns) (hin : offset + n ≤ file.size_in_bytes)
    (hb : buffer + n < 2 ^ 64) (total : Int) :
    ELF.read_all_loop file turns total offset n buffer =
      ⟨putAll buffer n fun i => file.byte (offset + i), some (total + n)⟩ := by
  have hsize := h.size_lt
  induction turns generalizing total offset n buffer with
  | zero => omega
  | succ turns ih =>
    unfold ELF.read_all_loop
    split_ifs with hpos
    · have hread := h.read_spec (show offset < file.size_in_bytes by omega) n 0 fun _ => 0
      have hmod : offset % file.block_size < file.block_size := Nat.mod_lt _ h.block_size_pos
      set cnt := min (file.block_size - offset % file.block_size) (min n (file.size_in_bytes - offset)) with hcnt
      have hcpos : 0 < cnt := by omega
      have hops : ((List.range cnt).map fun i => LoadOp.put (add64 buffer i)
          ((Memory.fill (fun _ => 0) 0 cnt fun i => file.byte (offset + i)) i)) =
          putAll buffer cnt fun i => file.byte (offset + i) := by
        refine List.map_congr_left fun i hi => ?_
        have hi := List.mem_range.mp hi
        have hfill : Memory.fill (fun _ => 0) 0 cnt (fun i => file.byte (offset + i)) (0 + i) =
            file.byte (offset + i) := Memory.fill_self _ hi
        rw [Nat.zero_add] at hfill
        have hadd : add64 buffer i = buffer + i := Nat.mod_eq_of_lt (by omega)
        rw [hfill, hadd]
      rw [hread, Script.ofOption_some_bind]
      dsimp only
      rw [Script.emit_bind, Int.toNat_natCast, hops, if_neg (by omega), if_neg (by omega), add32_eq (by omega),
        sub32_eq (by omega) (by omega)]
      have hadd : add64 buffer cnt = buffer + cnt := Nat.mod_eq_of_lt (by omega)
      rw [hadd, ih (by omega) (by omega) (by omega)]
      have happend := putAll_append buffer cnt (n - cnt) fun i => file.byte (offset + i)
      have hsum : cnt + (n - cnt) = n := by omega
      simp only [← Nat.add_assoc] at happend
      show (⟨_, _⟩ : Script LoadOp Int) = _
      have htotal : total + (cnt : Int) + ((n - cnt : Nat) : Int) = total + n := by omega
      rw [happend, hsum, htotal]
    · obtain rfl : n = 0 := by omega
      show (⟨[], some total⟩ : Script LoadOp Int) = ⟨[], some (total + 0)⟩
      rw [Int.add_zero]

end

/-! ## The script -/

/-- A segment that lies in the user half. -/
structure ProgramHeader.User (phdr : ProgramHeader) : Prop where
  filesz_le : phdr.filesz ≤ phdr.memsz
  vaddr_lt : phdr.vaddr < 2 ^ 47
  end_le : phdr.vaddr + phdr.memsz ≤ 2 ^ 47

/-- The segment has address `a`. -/
def ProgramHeader.has (phdr : ProgramHeader) (a : Nat) : Prop := phdr.vaddr ≤ a ∧ a < phdr.vaddr + phdr.memsz

/-- The byte of the segment at `a`: of the file, or zero behind its end. -/
def ProgramHeader.byte (phdr : ProgramHeader) (content : Nat → Byte) (a : Nat) : Byte :=
  if a - phdr.vaddr < phdr.filesz then content (phdr.offset + (a - phdr.vaddr)) else 0

/-- What the loader asks for one segment. -/
def ProgramHeader.ops (phdr : ProgramHeader) (content : Nat → Byte) : List LoadOp :=
  .map_range phdr.vaddr phdr.memsz :: putAll phdr.vaddr phdr.filesz fun i => content (phdr.offset + i)

/-- Header `i` of the program header table. -/
def ElfHeader.segment (hdr : ElfHeader) (content : Nat → Byte) (i : Nat) : ProgramHeader :=
  ProgramHeader.ofBytes (bytesOf content (hdr.phoff + i * hdr.phentsize) 56)

/-- The `PT_LOAD` headers, in the order of the table. -/
def ElfHeader.segments (hdr : ElfHeader) (content : Nat → Byte) : List ProgramHeader :=
  ((List.range hdr.phnum).map (hdr.segment content)).filter fun phdr => phdr.type = 1

/-- An executable of `size` bytes: its segments lie in the user half and in the file, and no two have an address in
common. -/
structure Executable (content : Nat → Byte) (size : Nat) (hdr : ElfHeader) : Prop where
  header : hdr = ElfHeader.ofBytes (bytesOf content 0 64)
  header_in : 64 ≤ size
  table_in : ∀ i < hdr.phnum, hdr.phoff + i * hdr.phentsize + 56 ≤ size
  user : ∀ phdr ∈ hdr.segments content, phdr.User
  inside : ∀ phdr ∈ hdr.segments content, phdr.offset + phdr.filesz ≤ size
  apart : (hdr.segments content).Pairwise fun p q => ∀ a, p.has a → ¬ q.has a

/-- The largest of the ends, in the way of the loop. -/
def maxEnd (segments : List ProgramHeader) (max_end : Nat) : Nat :=
  segments.foldl (fun m phdr => max m (phdr.vaddr + phdr.memsz)) max_end

section

variable {file : BlockIO} {content : Nat → Byte} {hdr : ElfHeader} {phdr : ProgramHeader} {phentsize hoff max_end : Nat}
  {headers : List ProgramHeader}

theorem ELF.load_segment_run (h : file.Delivers) (hbyte : ∀ j < file.size_in_bytes, file.byte j = content j)
    (huser : phdr.User) (hin : phdr.offset + phdr.filesz ≤ file.size_in_bytes) :
    ELF.load_segment file phdr = ⟨phdr.ops content, some ()⟩ := by
  have hsize := h.size_lt
  obtain ⟨hle, hlt, hend⟩ := huser
  have hread := ELF.read_all_loop_run h (Nat.lt_succ_self phdr.filesz) hin
    (show phdr.vaddr + phdr.filesz < 2 ^ 64 by omega) 0
  have hput : (putAll phdr.vaddr phdr.filesz fun i => file.byte (phdr.offset + i)) =
      putAll phdr.vaddr phdr.filesz fun i => content (phdr.offset + i) :=
    List.map_congr_left fun i hi => by
      have hi := List.mem_range.mp hi
      exact congrArg (LoadOp.put (phdr.vaddr + i)) (hbyte _ (by omega))
  have hn : ((0 + (phdr.filesz : Int)) % 2 ^ 32).toNat = phdr.filesz := by omega
  unfold ELF.load_segment ELF.read_all
  dsimp only
  rw [Script.assert_bind (show canonical phdr.vaddr from Or.inl hlt), Script.emit_bind,
    Nat.mod_eq_of_lt (show phdr.filesz < 2 ^ 32 by omega),
    Nat.mod_eq_of_lt (show phdr.offset < 2 ^ 32 by omega), hread, Script.bind_some rfl, Script.assert, if_pos hn]
  show (⟨_ ++ (_ ++ []), _⟩ : Script LoadOp Unit) = _
  rw [List.append_nil, hput]
  rfl

theorem ELF.load_loop_run (hoff phentsize max_end : Nat) (headers : List ProgramHeader) (h : file.Delivers)
    (hbyte : ∀ j < file.size_in_bytes, file.byte j = content j)
    (huser : ∀ q ∈ headers, q.type = 1 → q.User)
    (hin : ∀ q ∈ headers, q.type = 1 → q.offset + q.filesz ≤ file.size_in_bytes)
    (hread : ∀ k (hk : k < headers.length), file.program_header ((hoff + k * phentsize) % 2 ^ 32) = some headers[k]) :
    ELF.load_loop file phentsize headers.length (hoff % 2 ^ 32) max_end =
      ⟨(headers.filter fun q => q.type = 1).flatMap fun q => q.ops content,
        some (maxEnd (headers.filter fun q => q.type = 1) max_end)⟩ := by
  induction headers generalizing hoff max_end with
  | nil => rfl
  | cons q qs ih =>
    have hfirst := hread 0 (Nat.zero_lt_succ _)
    rw [Nat.zero_mul, Nat.add_zero] at hfirst
    have hnext : add32 (hoff % 2 ^ 32) phentsize = (hoff + phentsize) % 2 ^ 32 := by
      unfold add32
      omega
    have hrest := fun m => ih (hoff + phentsize) m (fun r hr => huser r (List.mem_cons_of_mem _ hr))
      (fun r hr => hin r (List.mem_cons_of_mem _ hr)) fun k hk => by
        have hk' := hread (k + 1) (Nat.succ_lt_succ hk)
        rw [Nat.succ_mul, ← Nat.add_assoc, Nat.add_right_comm] at hk'
        exact hk'
    rw [List.length_cons]
    unfold ELF.load_loop
    rw [hfirst, List.getElem_cons_zero, Script.ofOption_some_bind]
    dsimp only
    rw [hnext]
    by_cases htype : q.type = 1
    · have hsegment := ELF.load_segment_run h hbyte (huser q List.mem_cons_self htype) (hin q List.mem_cons_self htype)
      have huser := huser q List.mem_cons_self htype
      have hend : add64 q.vaddr q.memsz = q.vaddr + q.memsz := Nat.mod_eq_of_lt (by
        have := huser.end_le
        omega)
      have hmax : (if add64 q.vaddr q.memsz > max_end then add64 q.vaddr q.memsz else max_end) =
          max max_end (q.vaddr + q.memsz) := by
        rw [hend]
        split_ifs <;> omega
      rw [if_pos htype, hsegment, Script.bind_some rfl, hmax, hrest, List.filter_cons_of_pos (by simpa using htype)]
      rfl
    · rw [if_neg htype, hrest, List.filter_cons_of_neg (by simpa using htype)]

theorem ELF.load_run (h : file.Delivers) (hbyte : ∀ j < file.size_in_bytes, file.byte j = content j)
    (hexe : Executable content file.size_in_bytes hdr) :
    ELF.load file = ⟨(hdr.segments content).flatMap fun q => q.ops content,
      some (hdr.entry, maxEnd (hdr.segments content) 0)⟩ := by
  have hthing : ∀ offset n, offset + n ≤ file.size_in_bytes →
    file.readThing offset n = some (bytesOf content offset n) := by
    intro offset n hle
    rw [h.readThing_run hle]
    refine congrArg some (List.map_congr_left fun i hi => hbyte _ ?_)
    have := List.mem_range.mp hi
    omega
  have hsize := h.size_lt
  have hhdr : file.elf_header = some hdr := by
    unfold BlockIO.elf_header
    rw [hthing 0 64 (by have := hexe.header_in; omega), Option.map_some, ← hexe.header]
  have hmem : ∀ q ∈ (List.range hdr.phnum).map (hdr.segment content), q.type = 1 → q ∈ hdr.segments content :=
    fun q hq htype => List.mem_filter.mpr ⟨hq, by simpa using htype⟩
  have hloop := ELF.load_loop_run hdr.phoff hdr.phentsize 0 ((List.range hdr.phnum).map (hdr.segment content)) h hbyte
    (fun q hq ht => hexe.user q (hmem q hq ht))
    (fun q hq ht => hexe.inside q (hmem q hq ht)) fun k hk => by
      have hk' : k < hdr.phnum := by simpa using hk
      have hle := hexe.table_in k hk'
      unfold BlockIO.program_header
      rw [Nat.mod_eq_of_lt (by omega), hthing _ _ hle, Option.map_some, List.getElem_map, List.getElem_range]
      rfl
  rw [List.length_map, List.length_range] at hloop
  unfold ELF.load
  rw [hhdr, Script.ofOption_some_bind, hloop, Script.bind_some rfl]
  show (⟨_ ++ [], _⟩ : Script LoadOp (Nat × Nat)) = _
  rw [List.append_nil]
  rfl

end

end Kernel
