import Kernel.Lib.Spans
import Kernel.Vmm.Code

/-!
# `mmap` and `munmap` (`vmm.cc`)

The link pointers of the two loops are the nodes that they have gone past.
-/

namespace Kernel

open Lib

def MAP_SHARED : BitVec 32 := 1
def MAP_ANONYMOUS : BitVec 32 := 2

def sharedPaLimit : Nat := 128 * 1024 * 1024
def sharedEnd : Nat := 0xFFFFFFFF80000000

def Machine.sharedStart (s : Machine) : Nat := add64 s.hhdm_offset sharedPaLimit

def Machine.isSharedAddress (s : Machine) (va : Nat) : Prop := va ≥ s.sharedStart ∧ va < sharedEnd

instance (s : Machine) (va : Nat) : Decidable (s.isSharedAddress va) := by
  unfold Machine.isSharedAddress; infer_instance

/-! ## `mmap` -/

/-- The loop that looks for an address: the nodes it goes past, the address, and the nodes behind. -/
def findGap (length : Nat) : Nat → List VME → List VME × Nat × List VME
  | candidateVa, [] => ([], candidateVa, [])
  | candidateVa, nextVme :: next =>
    if add64 candidateVa length ≤ nextVme.start then ([], candidateVa, nextVme :: next)
    else
      let (passed, va, rest) := findGap length nextVme.end next
      (nextVme :: passed, va, rest)

/-- `(void *)-1` -/
def MAP_FAILED : Nat := 2 ^ 64 - 1

/-- `addr` and `prot` are ignored. A null `file` is 0. -/
def mmap (length : Nat) (flags : BitVec 32) (file offset : Nat) : K Nat := do
  let isShared : Bool := flags &&& MAP_SHARED ≠ 0
  let isAnonymous : Bool := flags &&& MAP_ANONYMOUS ≠ 0
  if length = 0 then pure MAP_FAILED
  else if offset % FRAME_SIZE ≠ 0 then pure MAP_FAILED
  else if isAnonymous ∧ file ≠ 0 then pure MAP_FAILED
  else if ¬ isAnonymous ∧ file = 0 then pure MAP_FAILED
  else
    let length := roundUpPage length
    if isShared then do
      let s ← get
      let (passed, candidateVa, rest) := findGap length s.sharedStart s.sharedVmes
      if candidateVa > sharedEnd ∨ sub64 sharedEnd candidateVa < length then pure MAP_FAILED
      else do
        let addr ← newVME
        let vme : VME := ⟨addr, candidateVa, add64 candidateVa length, true, file, offset⟩
        modify fun s => { s with sharedVmes := passed ++ vme :: rest }
        pure candidateVa
    else do
      let s ← get
      let (passed, candidateVa, rest) := findGap length 0x1000 s.privateVmes
      let addr ← newVME
      let vme : VME := ⟨addr, candidateVa, add64 candidateVa length, false, file, offset⟩
      modify fun s => { s with privateVmes := passed ++ vme :: rest }
      pure candidateVa

/-! ## `munmap` -/

/-- What becomes of a node that loses `[overlap_start, overlap_end)`. -/
def cutVme (overlap_start overlap_end : Nat) (vme : VME) : K (List VME) :=
  if overlap_start = vme.start ∧ overlap_end = vme.end then do
    deleteVME vme
    pure []
  else if overlap_start = vme.start then
    pure [{ vme with start := overlap_end, offset := add64 vme.offset (sub64 overlap_end overlap_start) }]
  else if overlap_end = vme.end then pure [{ vme with «end» := overlap_start }]
  else do
    let addr ← newVME
    let right : VME :=
      ⟨addr, overlap_end, vme.end, vme.shared, vme.node, add64 vme.offset (sub64 overlap_end vme.start)⟩
    pure [{ vme with «end» := overlap_start }, right]

/-- The nodes `kept` come before what the rest of the loop leaves. -/
def keepVmes (kept : List VME) (loop : K (List VME × Int)) : K (List VME × Int) := do
  let (vmes, result) ← loop
  pure (kept ++ vmes, result)

/-- The loop of `munmap`, with the list that it leaves and the value that it returns. -/
def munmapFrom (start stop : Nat) : Bool → List VME → K (List VME × Int)
  | touched, [] => pure ([], if touched then 0 else -1)
  | touched, vme :: next =>
    if stop ≤ vme.start then pure (vme :: next, if touched then 0 else -1)
    else if start ≥ vme.end then keepVmes [vme] (munmapFrom start stop touched next)
    else if vme.shared then pure (vme :: next, -1)
    else
      let overlap_start := if start > vme.start then start else vme.start
      let overlap_end := if stop < vme.end then stop else vme.end
      if overlap_start ≥ overlap_end then keepVmes [vme] (munmapFrom start stop touched next)
      else do
        unmapRange overlap_start overlap_end
        let kept ← cutVme overlap_start overlap_end vme
        keepVmes kept (munmapFrom start stop true next)

def munmap (start length : Nat) : K Int := do
  let s ← get
  if start % FRAME_SIZE ≠ 0 then pure (-1)
  else if length = 0 then pure (-1)
  else if s.isSharedAddress start then pure (-1)
  else
    let len := roundUpPage length
    let stop := add64 start len
    if stop < start then pure (-1)
    else do
      let (vmes, result) ← munmapFrom start stop false s.privateVmes
      modify fun s => { s with privateVmes := vmes }
      pure result

end Kernel
