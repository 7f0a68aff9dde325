import Kernel.PhysMem.Code

/-!
# Page tables and address spaces (`vmm.cc`)

A kernel pointer to a table is an address in the direct map. A pointer to an
entry is that address and the index of the entry.
-/

namespace Kernel

open Lib

/-! ## Entries -/

def presentBit : Word := 1#64 <<< 0
def writableBit : Word := 1#64 <<< 1
def userBit : Word := 1#64 <<< 2
def addressMask : Word := 0x000FFFFFFFFFF000#64

def present (entry : Word) : Prop := entry &&& presentBit ≠ 0

instance (entry : Word) : Decidable (present entry) := by unfold present; infer_instance

def roundUpPage (n : Nat) : Nat := add64 n (FRAME_SIZE - 1) / FRAME_SIZE * FRAME_SIZE

theorem roundUpPage_aligned (n : Nat) : roundUpPage n % FRAME_SIZE = 0 := by
  unfold roundUpPage
  exact Nat.mul_mod_left _ _

def vpnIndex (vpn level : Nat) : Nat := vpn / 2 ^ (9 * level) % 512

def entryPpn (entry : Word) : Nat := PPN ((entry &&& addressMask) >>> LOG_FRAME_SIZE).toNat

/-- `(ppn << LOG_FRAME_SIZE) | flags`. -/
def mkEntry (ppn : Nat) (flags : Word) : Word := (BitVec.ofNat 64 ppn <<< LOG_FRAME_SIZE) ||| flags

/-- The flags of `map` for a leaf. -/
def leafFlags (user write : Bool) : Word :=
  presentBit ||| (if write then writableBit else 0) ||| (if user then userBit else 0)

/-! ## Walks -/

/-- The loop of `leafPte`, from the table of `level` down. -/
def leafPteFrom (vpn : Nat) : Nat → Nat → K (Option (Nat × Nat))
  | 0, table => pure (some (table, vpnIndex vpn 0))
  | level + 1, table => do
    let entry ← load table (vpnIndex vpn (level + 1))
    if present entry then
      let child ← VA.ofPPN (entryPpn entry)
      leafPteFrom vpn level child
    else pure none

def leafPte (va : Nat) : K (Option (Nat × Nat)) := do
  let va ← VA va
  let vpn := va / FRAME_SIZE
  let s ← get
  let table ← VA.ofPPN (PPN (s.cr3 / FRAME_SIZE))
  leafPteFrom vpn 3 table

/-- `(pte != nullptr) && ((*pte & presentBit) != 0)` -/
def isMapped (va : Nat) : K Bool := do
  match ← leafPte va with
  | none => pure false
  | some (table, index) => do
    let entry ← load table index
    pure (decide (present entry))

/-! ## Copying a subtree -/

/-- The loop that sets the 512 words of a new table to 0. -/
def clearTable (table : Nat) : K Unit := Prog.forRange 512 fun i => store table i 0

/-- The loop that copies the bytes of a frame, a word at a time. -/
def copyFrame (dst src : Nat) : K Unit :=
  Prog.forRange 512 fun j => do
    let w ← load src j
    store dst j w

/-- Ghost: the frame is a data page of the process that the kernel works for. -/
def markData (ppn : Nat) : K Unit :=
  modify fun s => { s with owner := fun f => if f = ppn then some s.acting else s.owner f }

def cloneTableSubtree : Nat → Nat → K Nat
  | 0, srcTablePpn => do
    let dstTablePpn ← PhysMem.alloc
    let src ← VA.ofPPN srcTablePpn
    let dst ← VA.ofPPN dstTablePpn
    clearTable dst
    Prog.forRange 512 fun i => do
      let entry ← load src i
      if present entry then
        let srcFrame := entryPpn entry
        let dstFrame ← PhysMem.alloc
        markData dstFrame
        let srcBytes ← VA.ofPPN srcFrame
        let dstBytes ← VA.ofPPN dstFrame
        copyFrame dstBytes srcBytes
        store dst i (mkEntry dstFrame (entry &&& ~~~addressMask))
      else pure ()
    pure dstTablePpn
  | level + 1, srcTablePpn => do
    let dstTablePpn ← PhysMem.alloc
    let src ← VA.ofPPN srcTablePpn
    let dst ← VA.ofPPN dstTablePpn
    clearTable dst
    Prog.forRange 512 fun i => do
      let entry ← load src i
      if present entry then
        let srcChild := entryPpn entry
        let dstChild ← cloneTableSubtree level srcChild
        store dst i (mkEntry dstChild (entry &&& ~~~addressMask))
      else pure ()
    pure dstTablePpn

/-! ## Taking pages away -/

/-- `invlpg` is left out: the walks here read the tables. -/
def unmapPage (va : Nat) : K Unit := do
  match ← leafPte va with
  | none => pure ()
  | some (table, index) => do
    let entry ← load table index
    if present entry then
      let ppn := entryPpn entry
      store table index 0
      PhysMem.free ppn
    else pure ()

/--
`for (va = start; va < end; va += FRAME_SIZE)`. The callers pass page-aligned
ends, so the 64-bit counter stops at the end and never wraps.
-/
def forPages (start stop : Nat) (body : Nat → K Unit) : K Unit :=
  Prog.forRange ((stop - start + (FRAME_SIZE - 1)) / FRAME_SIZE) fun k => body (start + k * FRAME_SIZE)

def unmapRange (start stop : Nat) : K Unit := forPages start stop unmapPage

def freeTableSubtree : Nat → Nat → K Unit
  | 0, tablePpn => do
    let table ← VA.ofPPN tablePpn
    Prog.forRange 512 fun i => do
      let entry ← load table i
      if present entry then
        PhysMem.free (entryPpn entry)
        store table i 0
      else pure ()
  | level + 1, tablePpn => do
    let table ← VA.ofPPN tablePpn
    Prog.forRange 512 fun i => do
      let entry ← load table i
      if present entry then
        let child := entryPpn entry
        freeTableSubtree level child
        PhysMem.free child
        store table i 0
      else pure ()

/-! ## Adding pages -/

/-- `map`. A frame that becomes a table keeps the words it has. -/
def mapAt (vpn ppn : Nat) (user write : Bool) : Nat → Nat → K Unit
  | 0, tablePpn => do
    let table ← VA.ofPPN tablePpn
    store table (vpnIndex vpn 0) (mkEntry ppn (leafFlags user write))
  | level + 1, tablePpn => do
    let table ← VA.ofPPN tablePpn
    let entry ← load table (vpnIndex vpn (level + 1))
    if present entry then
      mapAt vpn ppn user write level (entryPpn entry)
    else
      let child ← PhysMem.alloc
      store table (vpnIndex vpn (level + 1)) (mkEntry child (presentBit ||| writableBit ||| userBit))
      let entry ← load table (vpnIndex vpn (level + 1))
      mapAt vpn ppn user write level (entryPpn entry)

def map (vpn ppn : Nat) (user write : Bool) : K Unit := do
  let s ← get
  mapAt vpn ppn user write 3 (PPN.ofPA s.cr3)

/-- The body of the loop of `map_range`. -/
def mapPage (user write : Bool) (va : Nat) : K Unit := do
  if ← isMapped va then pure ()
  else do
    let frame ← PhysMem.alloc
    markData frame
    let va ← VA va
    map (va / FRAME_SIZE) frame user write

def map_range (start size : Nat) (user write : Bool) : K Unit := do
  if size = 0 then pure ()
  else do
    let startVa := start / FRAME_SIZE * FRAME_SIZE
    let lastByte := sub64 (add64 start size) 1
    Prog.assert (lastByte ≥ start)
    let endVa := add64 (lastByte / FRAME_SIZE * FRAME_SIZE + (FRAME_SIZE - 1)) 1
    Prog.assert (endVa ≥ startVa)
    forPages startVa endVa (mapPage user write)

/-! ## The heap break -/

def init_heap_break (initial_break : Nat) : K Unit := do
  let canonical := if initial_break < 0x1000 then 0x1000 else initial_break
  modify fun s => { s with heapStart := canonical, heapBreak := canonical }

def set_heap_break (new_break : Nat) : K Int := do
  let s ← get
  if s.heapStart = 0 ∨ s.heapBreak = 0 then pure (-1)
  else if new_break < s.heapStart ∨ new_break ≥ 0x0000800000000000 then pure (-1)
  else do
    let old_end := roundUpPage s.heapBreak
    let new_end := roundUpPage new_break
    if new_end > old_end then do
      let start ← VA old_end
      map_range start (new_end - old_end) true true
    else if new_end < old_end then unmapRange new_end old_end
    else pure ()
    modify fun s => { s with heapBreak := new_break }
    pure 0

/-! ## Fork -/

structure ForkState where
  cr3 : Nat
  private_vmes : List VME
  heap_start : Nat
  heap_break : Nat

def newVME : K Nat := do
  let s ← get
  let addr := s.newVme s.vmeLive
  modify fun s => { s with vmeLive := addr :: s.vmeLive }
  pure addr

/-- The loop of `clonePrivateVmes`, from `cur` on. -/
def cloneVmes : List VME → K (List VME)
  | [] => pure []
  | cur :: next => do
    let addr ← newVME
    let rest ← cloneVmes next
    pure (⟨addr, cur.start, cur.end, cur.shared, cur.node, cur.offset⟩ :: rest)

def clonePrivateVmes : K (List VME) := do
  let s ← get
  cloneVmes s.privateVmes

def snapshot_for_fork : K ForkState := do
  let s ← get
  let parentCr3Ppn := PPN (s.cr3 / FRAME_SIZE)
  let parentPml4 ← VA.ofPPN parentCr3Ppn
  let childCr3Ppn ← PhysMem.alloc
  let childPml4 ← VA.ofPPN childCr3Ppn
  clearTable childPml4
  Prog.forRange 256 fun i => do
    let entry ← load parentPml4 i
    if present entry then
      let child ← cloneTableSubtree 2 (entryPpn entry)
      store childPml4 i (mkEntry child (entry &&& ~~~addressMask))
    else pure ()
  Prog.forRange 256 fun k => do
    let entry ← load parentPml4 (256 + k)
    store childPml4 (256 + k) entry
  let private_vmes ← clonePrivateVmes
  let s ← get
  pure ⟨PA.ofPPN childCr3Ppn, private_vmes, s.heapStart, s.heapBreak⟩

def install_fork_state (state : ForkState) : K Unit :=
  modify fun s =>
    { s with privateVmes := state.private_vmes, heapStart := state.heap_start, heapBreak := state.heap_break }

/-! ## The ends of a thread -/

/-- `VMM::init_thread`. The lower half of the new root keeps the words that the frame has. -/
def init_thread : K Unit := do
  let newCr3Ppn ← PhysMem.alloc
  let newTable ← VA.ofPPN newCr3Ppn
  let s ← get
  let oldTable ← VA.ofPPN (PPN (s.common_cr3 / FRAME_SIZE))
  Prog.forRange 256 fun k => do
    let entry ← load oldTable (256 + k)
    store newTable (256 + k) entry
  modify fun s => { s with cr3 := PA.ofPPN newCr3Ppn }

def deleteVME (vme : VME) : K Unit := modify fun s => { s with vmeLive := s.vmeLive.erase vme.addr }

def freePrivateVmes : List VME → K Unit
  | [] => pure ()
  | vme :: next => do
    unmapRange vme.start vme.end
    deleteVME vme
    freePrivateVmes next

def fini_thread : K Unit := do
  let s ← get
  let oldCr3Ppn := PPN (s.cr3 / FRAME_SIZE)
  modify fun s => { s with privateVmes := [] }
  freePrivateVmes s.privateVmes
  if s.n_active = 1 then
    modify fun s =>
      { s with vmeLive := s.sharedVmes.foldl (fun live vme => live.erase vme.addr) s.vmeLive, sharedVmes := [] }
  else pure ()
  if oldCr3Ppn = s.common_cr3 / FRAME_SIZE then pure ()
  else do
    let pml4 ← VA.ofPPN oldCr3Ppn
    Prog.forRange 256 fun i => do
      let entry ← load pml4 i
      if present entry then
        let child := entryPpn entry
        freeTableSubtree 2 child
        PhysMem.free child
        store pml4 i 0
      else pure ()
    modify fun s => { s with cr3 := s.common_cr3 }
    PhysMem.free oldCr3Ppn

end Kernel
