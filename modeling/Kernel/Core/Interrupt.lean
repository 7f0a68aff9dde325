import Kernel.Lib.Interrupt
import Mathlib.Data.BitVec

/-!
# Page faults between the instructions of a user program (`idt.cc`, `machine.S`, `vmm.cc`)

The IDT entry that `IDT::trap` sets, and the pushes and pops
of `pageFaultHandler_`. `pageFaultHandler` is any code that returns as the
calling convention says and leaves its frame and the program's memory alone.
-/

namespace Kernel.Interrupt

open Lib Lib.X86

/-! ## `idt.cc` -/

def kernelCS : BitVec 16 := 5 <<< 3

/-- `data[0]` to `data[3]`. -/
structure IdtEntry where
  data0 : BitVec 32
  data1 : BitVec 32
  data2 : BitVec 32
  data3 : BitVec 32

namespace IdtEntry

def set (offset : Quad) (type dpl : BitVec 8) : IdtEntry where
  data0 := kernelCS.setWidth 32 <<< 16 ||| (offset.setWidth 16).setWidth 32
  data1 := ((offset >>> 16).setWidth 16).setWidth 32 <<< 16 ||| 0x8000 ||| dpl.setWidth 32 <<< 13 |||
    type.setWidth 32 <<< 8
  data2 := (offset >>> 32).setWidth 32
  data3 := 0

end IdtEntry

/-- `pageFaultHandler_` up to the call of `pageFaultHandler`. -/
def pageFaultEntry : List Instr :=
  [.push .r15, .push .r14, .push .r13, .push .r12, .push .r11, .push .r10, .push .r9, .push .r8, .push .rbp, .push .rsi,
    .push .rdi, .push .rdx, .push .rcx, .push .rbx, .push .rax, .mov_from_cr2 .rdi, .mov .rsi .rsp]

/-- `pageFaultHandler_` after the call, up to `iretq`. `f` is what the addition leaves in the flags. -/
def pageFaultExit (f : RFlags) : List Instr :=
  [.pop .rax, .pop .rbx, .pop .rcx, .pop .rdx, .pop .rdi, .pop .rsi, .pop .rbp, .pop .r8, .pop .r9,
    .pop .r10, .pop .r11, .pop .r12, .pop .r13, .pop .r14, .pop .r15, .add .rsp 8 f]

/-- The fields that have general registers. `error_code`, `rip`, `cs`, `rflags`, `rsp` and `ss` follow. -/
def PageFaultTrapFrame : List Reg :=
  [.rax, .rbx, .rcx, .rdx, .rdi, .rsi, .rbp, .r8, .r9, .r10, .r11, .r12, .r13, .r14, .r15]

/-- The call of `pageFaultHandler` for a page fault at `cr2`, and its return to `iretq`. -/
def faulted (g : Gate) (rsp0 error cr2 : Quad) (k : Cpu) (m : Mem) : Cpu × Mem :=
  let d := deliver g rsp0 [error] { k with core := { k.core with cr2 := cr2 } } m
  let r := run pageFaultEntry (d.1.core, d.2)
  ({ d.1 with core := r.1 }, r.2)

def returned (f : RFlags) (k : Cpu) (m : Mem) : Cpu × Mem :=
  let r := run (pageFaultExit f) (k.core, m)
  (iretq { k with core := r.1 } r.2, r.2)

section

variable {g : Gate} {rsp0 error cr2 : Quad} {f : RFlags} {k k' : Cpu} {m m' : Mem}

theorem mem_pageFaultTrapFrame {r : Reg} (h : r ≠ .rsp) : r ∈ PageFaultTrapFrame := by
  cases r <;> simp [PageFaultTrapFrame] at h ⊢

theorem pageFaultEntry_eq : pageFaultEntry = PageFaultTrapFrame.reverse.map .push ++
  [.mov_from_cr2 .rdi, .mov .rsi .rsp] := rfl

theorem pageFaultExit_eq : pageFaultExit f = PageFaultTrapFrame.map .pop ++ [.add .rsp 8 f] := rfl

/-- `pageFaultHandler` gets the address, and a frame that has the registers. Memory outside the frame is as it was. -/
theorem faulted_spec (g : Gate) (rsp0 error cr2 : Quad) (k : Cpu) (m : Mem) (hroom : 168 ≤ (k.top rsp0).toNat) :
    (faulted g rsp0 error cr2 k m).1.core.reg .rdi = cr2 ∧
      (faulted g rsp0 error cr2 k m).1.core.reg .rsi = (faulted g rsp0 error cr2 k m).1.core.reg .rsp ∧
      ((faulted g rsp0 error cr2 k m).1.core.reg .rsp).toNat + 168 = (k.top rsp0).toNat ∧
      Stacked (faulted g rsp0 error cr2 k m).2 ((faulted g rsp0 error cr2 k m).1.core.reg .rsp).toNat
        (PageFaultTrapFrame.map k.core.reg ++ k.words [error]) ∧
      ∀ b, b + 168 < (k.top rsp0).toNat ∨ (k.top rsp0).toNat ≤ b → (faulted g rsp0 error cr2 k m).2 b = m b := by
  let q : Cpu := { k with core := { k.core with cr2 := cr2 } }
  have hlen : (q.words [error]).length = 6 := q.words_length
  obtain ⟨hst, htop, hframe⟩ := deliver_spec g rsp0 [error] q m (by
    rw [hlen]
    exact Nat.le_trans (by decide) hroom)
  rw [hlen] at htop
  generalize hd : deliver g rsp0 [error] q m = d at hst htop hframe
  have hregs : PageFaultTrapFrame.map d.1.core.reg = PageFaultTrapFrame.map k.core.reg := by
    rw [← hd]
    exact List.map_congr_left fun r hr =>
      Function.update_of_ne (ne_of_mem_of_not_mem hr (by simp [PageFaultTrapFrame])) ..
  obtain ⟨c, hrun, -⟩ := runL_push PageFaultTrapFrame.reverse (by simp [PageFaultTrapFrame]) d.1.core (q.words [error])
  rw [List.map_reverse (f := d.1.core.reg), List.reverse_reverse, hregs] at hrun
  obtain ⟨n, hn, hs⟩ := runL_run hrun (by simp [PageFaultTrapFrame, Instr.dest]) hst
    (by
      rw [show depth (PageFaultTrapFrame.reverse.map Instr.push) = 15 from rfl]
      have : (q.top rsp0).toNat = (k.top rsp0).toNat := rfl
      omega)
    (by
      rw [hlen, htop]
      exact (q.top rsp0).isLt)
  have hcr2 : c.cr2 = cr2 := by
    have hpushes : ∀ i ∈ PageFaultTrapFrame.reverse.map Instr.push, i.keeps = true := by simp [PageFaultTrapFrame]
    have hkeeps := (run_keeps hpushes (d.1.core, d.2)).1
    rw [hn, ← hd] at hkeeps
    exact hkeeps
  have hend : faulted g rsp0 error cr2 k m =
      ({ d.1 with core := (c.setReg .rdi c.cr2).setReg .rsi (c.reg .rsp) }, n) := by
    have hcode : run pageFaultEntry (d.1.core, d.2) = ((c.setReg .rdi c.cr2).setReg .rsi (c.reg .rsp), n) := by
      rw [pageFaultEntry_eq, run_append, hn]
      rfl
    simp only [faulted]
    rw [hd, hcode]
  have hrsp : ((c.setReg .rdi c.cr2).setReg .rsi (c.reg .rsp)).reg .rsp = c.reg .rsp := by
    simp [Core.setReg_reg]
  have hsum := hs.top
  rw [List.length_append, List.length_map, hlen, htop] at hsum
  have htopq : (q.top rsp0).toNat = (k.top rsp0).toNat := rfl
  rw [hend]
  simp only [hrsp]
  refine ⟨?_, ?_, hsum, hs.stacked, fun b hb => ?_⟩
  · simp [Core.setReg_reg, hcr2]
  · simp [Core.setReg_reg]
  · rw [hs.frame b (by
      rw [hlen, show depth (PageFaultTrapFrame.reverse.map Instr.push) = 15 from rfl]
      omega)]
    exact hframe b (by omega)

theorem returned_spec (hst : Stacked m' (k'.core.reg .rsp).toNat (PageFaultTrapFrame.map k.core.reg ++ k.words [error]))
    (hhigh : (k'.core.reg .rsp).toNat + 168 < 2 ^ 64) :
    (returned f k' m').1.core.reg = k.core.reg ∧ (returned f k' m').1.core.rip = k.core.rip ∧
      (returned f k' m').1.core.rflags = k.core.rflags ∧ (returned f k' m').1.cs = k.cs ∧
      (returned f k' m').1.ss = k.ss ∧ (returned f k' m').2 = m' := by
  obtain ⟨c, hrun, -, hregs, -⟩ := runL_pop PageFaultTrapFrame (by simp [PageFaultTrapFrame])
    (by simp [PageFaultTrapFrame]) k.core.reg k'.core (k.words [error])
  obtain ⟨n, hn, hs⟩ := runL_run hrun (by simp [PageFaultTrapFrame, Instr.dest]) hst (Nat.zero_le _) (by
    rw [List.length_append, List.length_map, k.words_length]
    exact hhigh)
  obtain rfl := hs.idle rfl
  have hend : returned f k' n =
      (iretq { k' with core := { c.setReg .rsp (c.reg .rsp + 8) with rflags := f } } n, n) := by
    have hcode : run (pageFaultExit f) (k'.core, n) = ({ c.setReg .rsp (c.reg .rsp + 8) with rflags := f }, n) := by
      rw [pageFaultExit_eq, run_append, hn]
      rfl
    simp only [returned, hcode]
  have hsum := hs.top
  rw [List.length_append, List.length_map, k.words_length] at hsum
  have hframe := hs.stacked
  rw [show k.words [error] = error :: k.words [] from rfl] at hframe
  have hwords : Stacked n (c.reg .rsp + 8).toNat (k.words []) := by
    have hadd : (c.reg .rsp + 8).toNat = (c.reg .rsp).toNat + 8 := by
      have hfits : (c.reg .rsp).toNat + 8 < 2 ^ 64 := by
        rw [show PageFaultTrapFrame.length = 15 from rfl] at hsum
        simp only [List.length_singleton] at hsum
        omega
      bv_omega
    rw [hadd]
    exact hframe.2
  rw [hend]
  obtain ⟨hrip, hflags, hrsp, hcs, hss⟩ := iretq_words
    { k' with core := { c.setReg .rsp (c.reg .rsp + 8) with rflags := f } } hwords
  refine ⟨funext fun r => ?_, hrip, hflags, hcs, hss, rfl⟩
  by_cases hr : r = .rsp
  · rw [hr]
    exact hrsp
  · rw [← hregs r (mem_pageFaultTrapFrame hr)]
    exact (Function.update_of_ne hr ..).trans (Function.update_of_ne hr ..)

end

/-! ## Runs of a user program -/

/--
What `pageFaultHandler` does, called in the state `s`: its frame and the memory `P` are as they were. It may block and
go on on another core, with another `gs`; the base of `fs` is the thread's.
-/
structure Handles (P : Nat → Prop) (s : Cpu × Mem) (k : Cpu) (m : Mem) : Prop where
  rsp : k.core.reg .rsp = s.1.core.reg .rsp
  fsbase : k.core.fsbase = s.1.core.fsbase
  frame : ∀ b, (s.1.core.reg .rsp).toNat ≤ b → b < (s.1.core.reg .rsp).toNat + 168 → m b = s.2 b
  user : ∀ b, P b → m b = s.2 b

/-- The program goes on step after step, with any number of page faults between its steps. -/
inductive FaultRun {ι : Type} (g : Gate) (rsp0 : Quad) (P : Nat → Prop) (program : System (Core × Mem) ι)
    (s : Cpu × Mem) : List ι → Cpu × Mem → Prop where
  | nil : FaultRun g rsp0 P program s [] s
  | step {l : List ι} {k : Cpu} {m : Mem} {i : ι} {t : Core × Mem} : FaultRun g rsp0 P program s l (k, m) →
      program.step (k.core, m) i t → FaultRun g rsp0 P program s (l ++ [i]) ({ k with core := t.1 }, t.2)
  | fault {l : List ι} {k k' : Cpu} {m m' : Mem} {error cr2 : Quad} {f : RFlags} :
      FaultRun g rsp0 P program s l (k, m) → Handles P (faulted g rsp0 error cr2 k m) k' m' →
      FaultRun g rsp0 P program s l (returned f k' m')

section

variable {g : Gate} {rsp0 error cr2 : Quad} {f : RFlags} {k k' : Cpu} {m m' : Mem} {P : Nat → Prop}

theorem faulted_fsbase : (faulted g rsp0 error cr2 k m).1.core.fsbase = k.core.fsbase := by
  have hkeeps : ∀ i ∈ pageFaultEntry, i.keeps = true := by simp [pageFaultEntry]
  simp only [faulted, (run_keeps hkeeps _).2.2.1]
  rfl

theorem returned_fsbase : (returned f k m).1.core.fsbase = k.core.fsbase := by
  have hkeeps : ∀ i ∈ pageFaultExit f, i.keeps = true := by simp [pageFaultExit]
  have hfs := (run_keeps hkeeps (k.core, m)).2.2.1
  unfold returned
  generalize run (pageFaultExit f) (k.core, m) = r at hfs ⊢
  exact hfs

theorem fault_same (hk : k.cpl = 3) (hroom : 168 ≤ (rsp0 &&& ~~~15).toNat)
    (hP : ∀ b, P b → b + 168 < (rsp0 &&& ~~~15).toNat ∨ (rsp0 &&& ~~~15).toNat ≤ b)
    (hh : Handles P (faulted g rsp0 error cr2 k m) k' m') :
    Same P ((returned f k' m').1.core, (returned f k' m').2) (k.core, m) ∧ (returned f k' m').1.cs = k.cs ∧
      (returned f k' m').1.ss = k.ss := by
  have htop : k.top rsp0 = rsp0 &&& ~~~15 := by
    simp [Cpu.top, hk]
  rw [← htop] at hroom hP
  obtain ⟨-, -, hsum, hst, hframe⟩ := faulted_spec g rsp0 error cr2 k m hroom
  have hlt := (k.top rsp0).isLt
  have hst' : Stacked m' (k'.core.reg .rsp).toNat (PageFaultTrapFrame.map k.core.reg ++ k.words [error]) := by
    rw [hh.rsp]
    refine hst.congr fun b hle hb => hh.frame b hle ?_
    rwa [List.length_append, List.length_map, k.words_length] at hb
  obtain ⟨hreg, hrip, hrflags, hcs, hss, hmem⟩ := returned_spec (f := f) hst' (by rw [hh.rsp]; omega)
  refine ⟨⟨hreg, hrip, hrflags, ?_, fun b hb => ?_⟩, hcs, hss⟩
  · exact returned_fsbase.trans (hh.fsbase.trans faulted_fsbase)
  · simp only [hmem]
    rw [hh.user b hb, hframe b (hP b hb)]

variable {ι : Type} {program : System (Core × Mem) ι} {l : List ι} {t : Cpu × Mem}

theorem FaultRun.same (h : FaultRun g rsp0 P program (k, m) l t) (hblind : Blind P program) (hk : k.cpl = 3)
    (hroom : 168 ≤ (rsp0 &&& ~~~15).toNat)
    (hP : ∀ b, P b → b + 168 < (rsp0 &&& ~~~15).toNat ∨ (rsp0 &&& ~~~15).toNat ≤ b) :
    ∃ s, program.Run (k.core, m) l s ∧ Same P (t.1.core, t.2) s ∧ t.1.cs = k.cs ∧ t.1.ss = k.ss := by
  induction h with
  | nil => exact ⟨_, .nil _, .refl _, rfl, rfl⟩
  | step _ hstep ih =>
    obtain ⟨s, hrun, hsame, hcs, hss⟩ := ih
    obtain ⟨s', hstep', hsame'⟩ := hblind _ _ _ _ hsame hstep
    exact ⟨s', hrun.snoc hstep', hsame', hcs, hss⟩
  | fault _ hh ih =>
    obtain ⟨s, hrun, hsame, hcs, hss⟩ := ih
    obtain ⟨hback, hcs', hss'⟩ := fault_same (by rw [Cpu.cpl, hcs]; exact hk) hroom hP hh
    exact ⟨s, hrun, hback.trans hsame, hcs'.trans hcs, hss'.trans hss⟩

end

end Kernel.Interrupt
