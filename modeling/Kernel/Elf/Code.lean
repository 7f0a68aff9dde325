import Kernel.File.Ext2
import Kernel.Lib.Script
import Kernel.Vmm.Fault
import Kernel.Vmm.Translate

/-!
# Loading an executable (`elf.h`, `elf.cc`)

The loader reads the disk and never the memory that it fills, so it is a script: what it
asks of memory, in order. `LoadOp.act` says what the machine does for each operation.
-/

namespace Kernel

open Lib

/-! ## Headers -/

structure ElfHeader where
  /-- `maigc0` to `magic3`. -/
  magic : List Byte
  entry : Nat
  phoff : Nat
  phentsize : Nat
  phnum : Nat
deriving DecidableEq, Repr

def ElfHeader.ofBytes (bytes : List Byte) : ElfHeader where
  magic := bytes.take 4
  entry := little ((bytes.drop 24).take 8)
  phoff := little ((bytes.drop 32).take 8)
  phentsize := little ((bytes.drop 54).take 2)
  phnum := little ((bytes.drop 56).take 2)

structure ProgramHeader where
  type : Nat
  offset : Nat
  vaddr : Nat
  filesz : Nat
  memsz : Nat
deriving DecidableEq, Repr

def ProgramHeader.ofBytes (bytes : List Byte) : ProgramHeader where
  type := little (bytes.take 4)
  offset := little ((bytes.drop 8).take 8)
  vaddr := little ((bytes.drop 16).take 8)
  filesz := little ((bytes.drop 32).take 8)
  memsz := little ((bytes.drop 40).take 8)

/-- `file->read(0, hdr)`. -/
def BlockIO.elf_header (file : BlockIO) : Option ElfHeader := (file.readThing 0 64).map ElfHeader.ofBytes

/-- `file->read(hoff, phdr)`. -/
def BlockIO.program_header (file : BlockIO) (hoff : Nat) : Option ProgramHeader :=
  (file.readThing hoff 56).map ProgramHeader.ofBytes

/-! ## The loader -/

inductive LoadOp where
  | map_range (start size : Nat)
  /-- One byte of a `memcpy` through a user pointer. -/
  | put (p : Nat) (b : Byte)

/-- The loop of `BlockIO::read_all` with a user pointer for its buffer. -/
def ELF.read_all_loop (file : BlockIO) : Nat → Int → Nat → Nat → Nat → Script LoadOp Int
  | 0, _, _, _, _ => Script.panic
  | turns + 1, total_count, offset, n, buffer =>
    if n > 0 then do
      let (cnt, m) ← Script.ofOption ((file.read offset n 0).run fun _ => 0)
      Script.emit ((List.range cnt.toNat).map fun i => .put (add64 buffer i) (m i))
      if cnt < 0 then pure cnt
      else if cnt = 0 then pure total_count
      else
        ELF.read_all_loop file turns (total_count + cnt) (add32 offset cnt.toNat) (sub32 n cnt.toNat)
          (add64 buffer cnt.toNat)
    else pure total_count

def ELF.read_all (file : BlockIO) (offset n buffer : Nat) : Script LoadOp Int :=
  ELF.read_all_loop file (n + 1) 0 offset n buffer

/-- The body of `if (phdr.type == 1)`. -/
def ELF.load_segment (file : BlockIO) (phdr : ProgramHeader) : Script LoadOp Unit := do
  let p := phdr.vaddr
  let filesz := phdr.filesz % 2 ^ 32
  Script.assert (canonical p)
  Script.emit [.map_range p phdr.memsz]
  let n ← ELF.read_all file (phdr.offset % 2 ^ 32) filesz p
  Script.assert ((n % 2 ^ 32).toNat = filesz)

/-- The loop of `load`, for `n` more headers: `max_end`. -/
def ELF.load_loop (file : BlockIO) (phentsize : Nat) : Nat → Nat → Nat → Script LoadOp Nat
  | 0, _, max_end => pure max_end
  | n + 1, hoff, max_end => do
    let phdr ← Script.ofOption (file.program_header hoff)
    let hoff := add32 hoff phentsize
    if phdr.type = 1 then do
      let seg_end := add64 phdr.vaddr phdr.memsz
      let max_end := if seg_end > max_end then seg_end else max_end
      ELF.load_segment file phdr
      ELF.load_loop file phentsize n hoff max_end
    else ELF.load_loop file phentsize n hoff max_end

/-- The entry, and `*end_addr`. -/
def ELF.load (file : BlockIO) : Script LoadOp (Nat × Nat) := do
  let hdr ← Script.ofOption file.elf_header
  let max_end ← ELF.load_loop file hdr.phentsize hdr.phnum (hdr.phoff % 2 ^ 32) 0
  pure (hdr.entry, max_end)

/-- What `kernel_main` gives to `init_heap_break`. -/
def initial_break (loaded_end : Nat) : Nat := roundUpPage loaded_end

/-! ## What the machine does -/

def Machine.setByte (s : Machine) (f j : Nat) (b : Byte) : Machine :=
  s.poke f (j / 8) (wordOfBytes fun k => if k = j % 8 then b else wordByte (s.mem f (j / 8)) k)

/--
The frame that a store at `p` goes to. After a fault the handler maps the page or fails its `ASSERT`, and the
store runs again. If it faults once more its page is there and may not be written, so it faults for ever.
-/
def storeFrame (nodes : Nat → BlockIO) (p : Nat) : K Nat := do
  let s ← get
  match s.storeTarget p with
  | some frame => pure frame
  | none => do
    let mapped ← ensureMappedPage nodes (p / FRAME_SIZE * FRAME_SIZE)
    Prog.assert (mapped = true)
    let s ← get
    match s.storeTarget p with
    | some frame => pure frame
    | none => Prog.panic

/-- A store through a user pointer. -/
def putByte (nodes : Nat → BlockIO) (p : Nat) (b : Byte) : K Unit := do
  let frame ← storeFrame nodes p
  modify fun s => s.setByte frame (p % FRAME_SIZE) b

def LoadOp.act (nodes : Nat → BlockIO) : LoadOp → K Unit
  | .map_range start size => Kernel.map_range start size true true
  | .put p b => putByte nodes p b

end Kernel
