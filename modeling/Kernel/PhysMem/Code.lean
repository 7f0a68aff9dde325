import Kernel.Machine

/-!
# The frame allocator (`physmem.cc`)

A free frame is on the `avail` list, whose links are stored in the frames, or
in one of the boot ranges that nobody has touched yet.
-/

namespace Kernel

open Lib

def AvailFrame.ppn (s : Machine) (frame : Nat) : Nat :=
  PPN (sub64 frame s.hhdm_offset / FRAME_SIZE)

/-- The range that is left after its first frame is taken, or the rest if it was the last one. -/
def takeFrame (r : Range) (rest : List Range) : List Range :=
  let base := add64 r.base FRAME_SIZE
  let length := sub64 r.length FRAME_SIZE
  if length = 0 then rest else ⟨base, length⟩ :: rest

/-- `PhysMem::alloc`. A frame from `avail` comes back as its last owner left it. -/
def PhysMem.alloc : K Nat := do
  let s ← get
  let frame := s.avail
  if frame ≠ 0 then
    let next ← load frame 0
    modify fun s => { s with avail := next.toNat }
    pure (AvailFrame.ppn s frame)
  else
    match s.free_ranges with
    | [] => Prog.panic -- out of frames
    | r :: rest =>
      let pa := r.base
      modify fun s => { s with free_ranges := takeFrame r rest }
      let ptr ← VA.ofPA pa
      Prog.forRange 512 fun i => store ptr i 0
      pure (PPN.ofPA pa)

/-- `PhysMem::free`. The ghost owner of the frame goes with it. -/
def PhysMem.free (ppn : Nat) : K Unit := do
  let frame ← VA.ofPPN ppn
  let s ← get
  store frame 0 (BitVec.ofNat 64 s.avail)
  modify fun s => { s with avail := frame, owner := fun f => if f = ppn then none else s.owner f }

/-! ## Boot -/

/-- One entry of the boot memory map. `type` 0 is `LIMINE_MEMMAP_USABLE`. -/
structure MemmapEntry where
  base : Nat
  length : Nat
  type : Nat
deriving DecidableEq, Repr

def LIMINE_MEMMAP_USABLE : Nat := 0

/-- `PhysMem::PhysMem`: each usable entry goes to the front of `free_ranges`. -/
def PhysMem.init (entries : List MemmapEntry) : List Range :=
  entries.foldl (fun free_ranges entry =>
    if entry.type = LIMINE_MEMMAP_USABLE then ⟨entry.base, entry.length⟩ :: free_ranges
    else free_ranges) []

end Kernel
