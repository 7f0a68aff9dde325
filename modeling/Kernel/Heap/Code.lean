import Kernel.Machine

/-!
# The kernel heap (`heap.cc`)

One array of words holds the blocks, their headers and footers and the links of
the free list. `theLock` is held from the first word a call reads to the last.
-/

namespace Kernel

open Lib

/-- The variables of `heap.cc`. A word of `array` is a number below `2 ^ 64`. -/
structure Heap where
  /-- The address of `array[0]`. -/
  base : Nat
  array : Nat → Nat
  len : Nat
  avail : Nat
  n_malloc : Nat
  n_free : Nat

abbrev H (α : Type) := Prog Heap α

namespace Heap

/-! ## Blocks -/

def safe : Bool := false

def isTaken (h : Heap) (i : Nat) : Prop := h.array i % 2 = 1

def isAvail (h : Heap) (i : Nat) : Prop := ¬ h.isTaken i

instance (h : Heap) (i : Nat) : Decidable (h.isTaken i) := by unfold isTaken; infer_instance

instance (h : Heap) (i : Nat) : Decidable (h.isAvail i) := by unfold isAvail; infer_instance

/-- `array[i] & ~uint64_t(1)`. -/
def size (h : Heap) (i : Nat) : Nat := h.array i / 2 * 2

def headerFromFooter (h : Heap) (i : Nat) : Nat := add64 (sub64 i (h.size i)) 1

def footerFromHeader (h : Heap) (i : Nat) : Nat := sub64 (add64 i (h.size i)) 1

def set (h : Heap) (i w : Nat) : Heap := { h with array := fun j => if j = i then w else h.array j }

def addr (h : Heap) (i : Nat) : Nat := (h.base + 8 * i) % 2 ^ 64

def sanity (i : Nat) : H Nat := do
  if safe then
    if i = 0 then pure 0
    else do
      let h ← get
      Prog.assert (i < h.len)
      let footer := h.footerFromHeader i
      Prog.assert (footer < h.len)
      Prog.assert (h.array i = h.array footer)
      pure i
  else pure i

def left (i : Nat) : H Nat := do
  let h ← get
  sanity (h.headerFromFooter (sub64 i 1))

def right (i : Nat) : H Nat := do
  let h ← get
  sanity (add64 i (h.size i))

def next (i : Nat) : H Nat := do
  let h ← get
  sanity (h.array (add64 i 1))

def prev (i : Nat) : H Nat := do
  let h ← get
  sanity (h.array (add64 i 2))

def setNext (i x : Nat) : H Unit := modify fun h => h.set (add64 i 1) x

def setPrev (i x : Nat) : H Unit := modify fun h => h.set (add64 i 2) x

def remove (i : Nat) : H Unit := do
  let prevIndex ← prev i
  let nextIndex ← next i
  if prevIndex = 0 then modify fun h => { h with avail := nextIndex }
  else setNext prevIndex nextIndex
  if nextIndex ≠ 0 then setPrev nextIndex prevIndex else pure ()

def makeAvail (i entry_count : Nat) : H Unit := do
  Prog.assert (entry_count % 2 = 0)
  modify fun h => h.set i entry_count
  modify fun h => h.set (h.footerFromHeader i) entry_count
  let h ← get
  setNext i h.avail
  setPrev i 0
  if h.avail ≠ 0 then setPrev h.avail i else pure ()
  modify fun h => { h with avail := i }

def makeTaken (i entry_count : Nat) : H Unit := do
  Prog.assert (entry_count % 2 = 0)
  modify fun h => h.set i (add64 entry_count 1)
  modify fun h => h.set (h.footerFromHeader i) (add64 entry_count 1)

/-! ## `heap::init`, `malloc` and `free` -/

def init (base bytes : Nat) : H Unit := do
  let alignedBase := sub64 (add64 (add64 base 8) 15 / 16 * 16) 8
  Prog.assert (alignedBase % 16 = 8)
  Prog.assert (alignedBase ≥ base)
  let delta := sub64 alignedBase base
  Prog.assert (delta < 16)
  let base := alignedBase
  Prog.assert (bytes ≥ delta)
  let bytes := sub64 bytes delta
  let bytes := bytes / 16 * 16
  Prog.assert (bytes % 16 = 0)
  Prog.assert (bytes > 64)
  modify fun h => { h with base := base }
  modify fun h => { h with len := bytes / 8 }
  makeTaken 0 2
  let h ← get
  makeAvail 2 (sub64 h.len 4)
  let h ← get
  makeTaken (sub64 h.len 2) 2

/-- The number of words that `malloc` looks for. -/
def entriesFor (bytes : Nat) : Nat :=
  let entries := add64 (add64 bytes 7 / 8) 2
  let entries := if entries < 4 then 4 else entries
  if entries % 2 = 1 then add64 entries 1 else entries

/-- The loop of `malloc`, for at most `fuel` blocks. The result is `mx` and `it`. -/
def findFit (entries : Nat) : Nat → Nat → Nat → Nat → Nat → H (Nat × Nat)
  | 0, _, _, _, _ => Prog.panic
  | fuel + 1, countDown, p, mx, it => do
    if p = 0 then pure (mx, it)
    else do
      let h ← get
      Prog.assert (¬ h.isTaken p)
      let sz := h.size p
      if sz ≥ entries then do
        let mx' := if sz < mx then sz else mx
        let it' := if sz < mx then p else it
        let countDown := countDown - 1
        if countDown = 0 ∨ sz = entries then pure (mx', it')
        else do
          let q ← next p
          findFit entries fuel countDown q mx' it'
      else do
        let q ← next p
        findFit entries fuel countDown q mx it

/-- The free list has fewer blocks than the array has words, so `len` turns are enough. -/
def malloc (bytes : Nat) : H Nat := do
  let h ← get
  if bytes = 0 then pure h.base
  else do
    let entries := entriesFor bytes
    let (mx, it) ← findFit entries h.len 20 h.avail (2 ^ 64 - 1) 0
    if it ≠ 0 then do
      remove it
      let extra := int32 (sub64 mx entries)
      if extra ≥ 4 then do
        makeTaken it entries
        makeAvail (add64 it entries) (uint64 extra)
      else makeTaken it mx
      let res := h.addr (add64 it 1)
      if res ≠ 0 then modify fun h => { h with n_malloc := add64 h.n_malloc 1 } else pure ()
      pure res
    else pure 0

def free (p : Nat) : H Unit := do
  let h ← get
  if p = 0 then pure ()
  else if p = h.base then pure ()
  else do
    modify fun h => { h with n_free := add64 h.n_free 1 }
    let idx := int32 (sub64 (sub64 p h.base / 8) 1)
    let _ ← sanity (uint64 idx)
    let h ← get
    let sz := int32 (h.size (uint64 idx))
    let l ← left (uint64 idx)
    let r ← right (uint64 idx)
    let leftIndex := int32 l
    let rightIndex := int32 r
    let h ← get
    let (idx, sz) ←
      if h.isAvail (uint64 leftIndex) then do
        remove (uint64 leftIndex)
        let h ← get
        pure (leftIndex, int32 (add64 (uint64 sz) (h.size (uint64 leftIndex))))
      else pure (idx, sz)
    let h ← get
    let sz ←
      if h.isAvail (uint64 rightIndex) then do
        remove (uint64 rightIndex)
        let h ← get
        pure (int32 (add64 (uint64 sz) (h.size (uint64 rightIndex))))
      else pure sz
    makeAvail (uint64 idx) (uint64 sz)

end Heap

end Kernel
