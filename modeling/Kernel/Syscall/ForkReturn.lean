import Kernel.Lib.X86
import Kernel.Syscall.UserRsp

/-!
# The registers across `fork` (`machine.S`, `syscall.cc`)

The pushes of `syscallHandler_`, `SyscallFrame`, the copy in `fork_frame` and
the pops of `fork_return_to_user`.
-/

namespace Kernel.ForkReturn

open Lib Lib.X86

/-! ## The code -/

/-- The instruction `syscall`. `rip` is the address after it. -/
def syscall (k : Core) (lstar fmask : Quad) : Core :=
  { (k.setReg .rcx k.rip).setReg .r11 k.rflags.val with rip := lstar, rflags := .ofWord (k.rflags.val &&& ~~~fmask) }

/-- `syscallHandler_` up to the call of `syscallHandler`. -/
def syscallEntry : List Instr :=
  [.store .gs 28 .rsp, .load .rsp .gs 20, .push .r15, .push .r14, .push .r13, .push .r12, .push .r11, .push .r10,
    .push .r9, .push .r8, .push .rbp, .push .rdi, .push .rsi, .push .rdx, .push .rcx, .push .rbx, .push .rax,
    .mov .rdi .rsp]

/-- `syscallHandler_` after the call. -/
def syscallExit : List Instr :=
  [.pop .rax, .pop .rbx, .pop .rcx, .pop .rdx, .pop .rsi, .pop .rdi, .pop .rbp, .pop .r8, .pop .r9,
    .pop .r10, .pop .r11, .pop .r12, .pop .r13, .pop .r14, .pop .r15, .load .rsp .gs 28, .sysretq]

/-- `f₁` and `f₂` are the flags after `add $8, %rsp` and `xor %eax, %eax`. -/
def fork_return_to_user (f₁ f₂ : RFlags) : List Instr :=
  [.store .gs 28 .rsi, .mov .rsp .rdi, .add .rsp 8 f₁, .pop .rbx, .pop .rcx, .pop .rdx, .pop .rsi, .pop .rdi, .pop .rbp,
    .pop .r8, .pop .r9, .pop .r10, .pop .r11, .pop .r12, .pop .r13, .pop .r14, .pop .r15, .load .rsp .gs 28,
    .zero .rax f₂, .sysretq]

/-- The fields, eight bytes each. -/
def SyscallFrame : List Reg :=
  [.rax, .rbx, .rcx, .rdx, .rsi, .rdi, .rbp, .r8, .r9, .r10, .r11, .r12, .r13, .r14, .r15]

/-- `frame->rax = value`. -/
def syscall_return (m : Mem) (frame : Nat) (value : Quad) : Mem :=
  Function.update m (frame + 8 * SyscallFrame.idxOf .rax) value

/-- `child->fork_frame[i] = ((uint64_t *)frame)[i]` for `i < n`. -/
def copyFrame (fork_frame frame : Nat) : Nat → Mem → Mem
  | 0, m => m
  | n + 1, m => let m' := copyFrame fork_frame frame n m; Function.update m' (fork_frame + 8 * n) (m' (frame + 8 * n))

/-- What `fork` writes for `fork_child_entry`; `fork_user_rsp` is the field before `fork_frame`. -/
def forkChild (gs : Quad) (fork_user_rsp frame : Nat) (m : Mem) : Mem :=
  copyFrame (fork_user_rsp + 8) frame 15 (Function.update m fork_user_rsp (m (gs + 28).toNat))

/-- The state at the call of `syscallHandler`. -/
def entered (user : Core) (lstar fmask : Quad) (m : Mem) : Core × Mem := run syscallEntry (syscall user lstar fmask, m)

/-- `SyscallFrame *frame`. -/
def frameOf (user : Core) (lstar fmask : Quad) (m : Mem) : Nat := ((entered user lstar fmask m).1.reg .rdi).toNat

/-! ## One `fork` -/

/-- A `fork` of a process with the registers `user`. In between memory changes, but not the frame, and not the child's
fields once they are written. Each of the two returns may be on any core. -/
structure ForkRun where
  user : Core
  lstar : Quad
  fmask : Quad
  mem : Mem
  room : 120 ≤ (mem (user.gsbase + 20).toNat).toNat
  /-- When `fork` reads `gs:28` and copies the frame. -/
  copyGs : Quad
  copyMem : Mem
  copy_frame : ∀ i < 15, copyMem (frameOf user lstar fmask mem + 8 * i) =
    (entered user lstar fmask mem).2 (frameOf user lstar fmask mem + 8 * i)
  copy_slot : copyMem (copyGs + 28).toNat = user.reg .rsp
  /-- `&child->fork_user_rsp`. -/
  child : Nat
  child_fits : child + 128 < 2 ^ 64
  child_apart : ∀ i < 16, ∀ j < 15, child + 8 * i ≠ frameOf user lstar fmask mem + 8 * j
  childPid : Quad
  /-- When `fork` writes `frame->rax`. -/
  doneMem : Mem
  done_frame : ∀ i < 15, doneMem (frameOf user lstar fmask mem + 8 * i) =
    forkChild copyGs child (frameOf user lstar fmask mem) copyMem (frameOf user lstar fmask mem + 8 * i)
  /-- When `syscallHandler` has returned. -/
  parentCore : Core
  parentMem : Mem
  parent_rsp : (parentCore.reg .rsp).toNat = frameOf user lstar fmask mem
  parent_frame : ∀ i < 15, parentMem (frameOf user lstar fmask mem + 8 * i) =
    syscall_return doneMem (frameOf user lstar fmask mem) childPid (frameOf user lstar fmask mem + 8 * i)
  /-- When `fork_child_entry` calls `fork_return_to_user`. -/
  childCore : Core
  childMem : Mem
  child_frame : ∀ i < 16, childMem (child + 8 * i) =
    forkChild copyGs child (frameOf user lstar fmask mem) copyMem (child + 8 * i)
  child_rdi : (childCore.reg .rdi).toNat = child + 8
  child_rsi : childCore.reg .rsi = childMem child
  child_slot : ∀ i < 16, (childCore.gsbase + 28).toNat ≠ child + 8 * i
  flags₁ : RFlags
  flags₂ : RFlags

/-! ## The four layouts -/

section

variable {user k : Core} {lstar fmask : Quad} {m : Mem} {f : Reg → Quad}

theorem syscallEntry_eq : syscallEntry =
    .store .gs 28 .rsp :: .load .rsp .gs 20 :: (SyscallFrame.reverse.map .push ++ [.mov .rdi .rsp]) := rfl

theorem syscallExit_eq : syscallExit = SyscallFrame.map .pop ++ [.load .rsp .gs 28, .sysretq] := rfl

theorem fork_return_eq (f₁ f₂ : RFlags) : fork_return_to_user f₁ f₂ = .store .gs 28 .rsi :: .mov .rsp .rdi ::
    .add .rsp 8 f₁ :: (SyscallFrame.tail.map .pop ++ [.load .rsp .gs 28, .zero .rax f₂, .sysretq]) := rfl

theorem mem_syscallFrame {r : Reg} (hr : r ≠ .rsp) : r ∈ SyscallFrame := by
  cases r <;> simp [SyscallFrame] at hr ⊢

theorem entered_frame (hroom : 120 ≤ (m (user.gsbase + 20).toNat).toNat) :
    frameOf user lstar fmask m + 120 = (m (user.gsbase + 20).toNat).toNat ∧
      Stacked (entered user lstar fmask m).2 (frameOf user lstar fmask m)
        (SyscallFrame.map (syscall user lstar fmask).reg) := by
  let k₀ := syscall user lstar fmask
  let k₁ := k₀.setReg .rsp (m (user.gsbase + 20).toNat)
  let m₁ := Function.update m (user.gsbase + 28).toNat (user.reg .rsp)
  have hne : (user.gsbase + 20).toNat ≠ (user.gsbase + 28).toNat := by bv_omega
  have hstart : exec (.load .rsp .gs 20) (exec (.store .gs 28 .rsp) (k₀, m)) = (k₁, m₁) := by
    have hload : m₁ (user.gsbase + 20).toNat = m (user.gsbase + 20).toNat := Function.update_of_ne hne ..
    simp only [k₁]
    rw [← hload]
    rfl
  obtain ⟨k', hrun, -⟩ := runL_push SyscallFrame.reverse (by simp [SyscallFrame]) k₁ []
  rw [List.map_reverse (f := k₁.reg), List.reverse_reverse, List.append_nil] at hrun
  have hregs : SyscallFrame.map k₁.reg = SyscallFrame.map k₀.reg :=
    List.map_congr_left fun r hr => Function.update_of_ne (ne_of_mem_of_not_mem hr (by simp [SyscallFrame])) ..
  have hrsp : k₁.reg .rsp = m (user.gsbase + 20).toNat := by
    simp only [k₁, Core.setReg_reg, Function.update_self]
  obtain ⟨m', hm', hs⟩ := runL_run (m := m₁) hrun (by simp [SyscallFrame, Instr.dest]) trivial
    (by rw [hrsp]; exact hroom) (by rw [hrsp]; exact (m _).isLt)
  have hend : entered user lstar fmask m = (k'.setReg .rdi (k'.reg .rsp), m') := by
    rw [entered, syscallEntry_eq, run_cons, run_cons, hstart, run_append, hm']
    rfl
  have hframe : frameOf user lstar fmask m = (k'.reg .rsp).toNat := by
    rw [frameOf, hend, Core.setReg_reg, Function.update_self]
  have htop := hs.top
  rw [hrsp] at htop
  rw [hframe, hend, ← hregs]
  exact ⟨htop, hs.stacked⟩

theorem syscallExit_run (hst : Stacked m (k.reg .rsp).toNat (SyscallFrame.map f))
    (hhigh : (k.reg .rsp).toNat + 120 < 2 ^ 64) :
    (run syscallExit (k, m)).1.rip = f .rcx ∧ (run syscallExit (k, m)).1.rflags = .ofWord (f .r11) ∧
      (run syscallExit (k, m)).1.reg .rsp = m (k.gsbase + 28).toNat ∧
      ∀ r, r ≠ .rsp → (run syscallExit (k, m)).1.reg r = f r := by
  obtain ⟨k', hrun, hgs, hregs, -⟩ := runL_pop SyscallFrame (by simp [SyscallFrame]) (by simp [SyscallFrame]) f k []
  rw [List.append_nil] at hrun
  obtain ⟨m', hm', hs⟩ := runL_run hrun (by simp [SyscallFrame, Instr.dest]) hst (Nat.zero_le _) hhigh
  obtain rfl := hs.idle rfl
  have hend : (run syscallExit (k, m')).1 = { k'.setReg .rsp (m' (k'.gsbase + 28).toNat) with
      rip := k'.reg .rcx, rflags := .ofWord (k'.reg .r11) } := by
    rw [syscallExit_eq, run_append, hm']
    rfl
  rw [hend, hgs]
  refine ⟨hregs .rcx (mem_syscallFrame (by simp)), congrArg RFlags.ofWord (hregs .r11 (mem_syscallFrame (by simp))), ?_,
    fun r hr => ?_⟩
  · simp only [Core.setReg_reg, Function.update_self]
  · simp only [Core.setReg_reg, Function.update_of_ne hr, hregs r (mem_syscallFrame hr)]

theorem fork_return_run (f₁ f₂ : RFlags) (hst : Stacked m ((k.reg .rdi).toNat + 8) (SyscallFrame.tail.map f))
    (hhigh : (k.reg .rdi).toNat + 120 < 2 ^ 64)
    (hslot : ∀ i, 1 ≤ i → i < 15 → (k.gsbase + 28).toNat ≠ (k.reg .rdi).toNat + 8 * i) :
    (run (fork_return_to_user f₁ f₂) (k, m)).1.rip = f .rcx ∧
      (run (fork_return_to_user f₁ f₂) (k, m)).1.rflags = .ofWord (f .r11) ∧
      (run (fork_return_to_user f₁ f₂) (k, m)).1.reg .rsp = k.reg .rsi ∧
      (run (fork_return_to_user f₁ f₂) (k, m)).1.reg .rax = 0 ∧
      ∀ r, r ≠ .rsp → r ≠ .rax → (run (fork_return_to_user f₁ f₂) (k, m)).1.reg r = f r := by
  let k₁ : Core := { k.setReg .rsp (k.reg .rdi + 8) with rflags := f₁ }
  let m₁ := Function.update m (k.gsbase + 28).toNat (k.reg .rsi)
  have hstart : exec (.add .rsp 8 f₁) (exec (.mov .rsp .rdi) (exec (.store .gs 28 .rsi) (k, m))) = (k₁, m₁) := by
    have hreg : Function.update (Function.update k.reg .rsp (k.reg .rdi)) .rsp (k.reg .rdi + 8) =
        Function.update k.reg .rsp (k.reg .rdi + 8) := Function.update_idem ..
    simp only [k₁, Core.setReg]
    rw [← hreg]
    rfl
  have hrsp : (k₁.reg .rsp).toNat = (k.reg .rdi).toNat + 8 := by
    simp only [k₁, Core.setReg_reg, Function.update_self]
    bv_omega
  obtain ⟨k', hrun, hgs, hregs, -⟩ :=
    runL_pop SyscallFrame.tail (by simp [SyscallFrame]) (by simp [SyscallFrame]) f k₁ []
  rw [List.append_nil] at hrun
  have hst₁ : Stacked m₁ (k₁.reg .rsp).toNat (SyscallFrame.tail.map f) := by
    rw [hrsp]
    rw [stacked_iff] at hst ⊢
    intro j hj
    have hlt : j < 14 := hj
    rw [← hst j hj]
    refine Function.update_of_ne (fun heq => hslot (j + 1) (by omega) (by omega) ?_) ..
    omega
  obtain ⟨m', hm', hs⟩ := runL_run hrun (by simp [SyscallFrame, Instr.dest]) hst₁ (Nat.zero_le _)
    (by rw [hrsp]; exact hhigh)
  have hload : m' (k'.gsbase + 28).toNat = k.reg .rsi := by
    rw [hs.idle rfl, hgs]
    exact Function.update_self ..
  have hend : (run (fork_return_to_user f₁ f₂) (k, m)).1 = { (k'.setReg .rsp (k.reg .rsi)).setReg .rax 0 with
      rip := k'.reg .rcx, rflags := .ofWord (k'.reg .r11) } := by
    rw [fork_return_eq, run_cons, run_cons, run_cons, hstart, run_append, hm', ← hload]
    rfl
  have hin : ∀ r, r ≠ .rsp → r ≠ .rax → k'.reg r = f r := by
    intro r hsp hax
    refine hregs r ?_
    cases r <;> simp [SyscallFrame] at hsp hax ⊢
  rw [hend]
  refine ⟨hin .rcx (by simp) (by simp), congrArg RFlags.ofWord (hin .r11 (by simp) (by simp)), ?_, ?_,
    fun r hsp hax => ?_⟩
  · simp [Core.setReg_reg]
  · simp only [Core.setReg_reg, Function.update_self]
  · simp only [Core.setReg_reg, Function.update_of_ne hax, Function.update_of_ne hsp, hin r hsp hax]

theorem copyFrame_spec {fork_frame frame n : Nat} (hn : n ≤ 15)
    (hapart : ∀ i < 15, ∀ j < 15, fork_frame + 8 * i ≠ frame + 8 * j) :
    (∀ i < n, copyFrame fork_frame frame n m (fork_frame + 8 * i) = m (frame + 8 * i)) ∧
      ∀ a, (∀ i < n, a ≠ fork_frame + 8 * i) → copyFrame fork_frame frame n m a = m a := by
  induction n with
  | zero => exact ⟨fun i hi => absurd hi (Nat.not_lt_zero i), fun _ _ => rfl⟩
  | succ n ih =>
    obtain ⟨hcopied, hkept⟩ := ih (by omega)
    constructor
    · intro i hi
      by_cases hin : i = n
      · rw [hin, copyFrame, Function.update_self]
        exact hkept _ fun j hj => (hapart j (by omega) n (by omega)).symm
      · rw [copyFrame, Function.update_of_ne (by omega)]
        exact hcopied i (by omega)
    · intro a ha
      rw [copyFrame, Function.update_of_ne (ha n (by omega))]
      exact hkept a fun i hi => ha i (by omega)

end

namespace ForkRun

variable (r : ForkRun)

def frame : Nat := frameOf r.user r.lstar r.fmask r.mem

/-- `syscallHandler_` after `syscallHandler`. -/
def parentUser : Core := (run syscallExit (r.parentCore, r.parentMem)).1

def childUser : Core := (run (fork_return_to_user r.flags₁ r.flags₂) (r.childCore, r.childMem)).1

/-- `k` goes on after the system call with its registers and with `rax`. -/
def GoesOn (rax : Quad) (k : Core) : Prop :=
  k.rip = r.user.rip ∧ k.rflags = r.user.rflags ∧ k.reg .rax = rax ∧
    ∀ q, q ≠ .rax → k.reg q = (syscall r.user r.lstar r.fmask).reg q

/-- When the parent returns, `gs:28` of its core still has its `rsp`. -/
def SlotKept : Prop := r.parentMem (r.parentCore.gsbase + 28).toNat = r.user.reg .rsp

/-- Both returns are right. -/
def RegistersKept : Prop := r.GoesOn 0 r.childUser ∧ r.GoesOn r.childPid r.parentUser

end ForkRun

section

variable (r : ForkRun)

theorem copy_regs (i : Nat) (h : i < SyscallFrame.length) :
    r.copyMem (r.frame + 8 * i) = (syscall r.user r.lstar r.fmask).reg SyscallFrame[i] := by
  have hst := stacked_iff.1 (@entered_frame r.user r.lstar r.fmask _ r.room).2 i (by simpa using h)
  rw [ForkRun.frame, r.copy_frame i h, hst, List.getElem_map]

theorem frame_fits : r.frame + 120 < 2 ^ 64 := by
  rw [ForkRun.frame, (@entered_frame r.user r.lstar r.fmask _ r.room).1]
  exact (r.mem _).isLt

theorem forkChild_mem : (∀ i < 15, r.childMem (r.child + 8 + 8 * i) = r.copyMem (r.frame + 8 * i)) ∧
    r.childMem r.child = r.user.reg .rsp ∧
    ∀ i < 15, forkChild r.copyGs r.child r.frame r.copyMem (r.frame + 8 * i) = r.copyMem (r.frame + 8 * i) := by
  have happ : ∀ i < 16, ∀ j < 15, r.child + 8 * i ≠ r.frame + 8 * j := r.child_apart
  have hzero : ∀ j < 15, r.frame + 8 * j ≠ r.child := fun j hj heq => happ 0 (by omega) j hj (by omega)
  obtain ⟨hcopied, hkept⟩ := @copyFrame_spec
    (Function.update r.copyMem r.child (r.copyMem (r.copyGs + 28).toNat)) (r.child + 8) r.frame 15 (Nat.le_refl _)
    fun i hi j hj heq => happ (i + 1) (by omega) j hj (by omega)
  refine ⟨fun i hi => ?_, ?_, fun i hi => ?_⟩
  · rw [show r.child + 8 + 8 * i = r.child + 8 * (i + 1) by omega, r.child_frame (i + 1) (by omega), forkChild,
      show r.child + 8 * (i + 1) = r.child + 8 + 8 * i by omega]
    exact (hcopied i hi).trans (Function.update_of_ne (hzero i hi) ..)
  · rw [← r.copy_slot, ← Nat.add_zero r.child, ← Nat.mul_zero 8, r.child_frame 0 (by omega), forkChild, Nat.mul_zero,
      Nat.add_zero]
    exact (hkept _ fun i _ => by omega).trans (Function.update_self ..)
  · rw [forkChild, hkept _ fun j hj heq => happ (j + 1) (by omega) i hi (by omega)]
    exact Function.update_of_ne (hzero i hi) ..

theorem childUser_goesOn : r.GoesOn 0 r.childUser := by
  obtain ⟨hcopied, hrsp, -⟩ := forkChild_mem r
  have hst : Stacked r.childMem ((r.childCore.reg .rdi).toNat + 8)
      (SyscallFrame.tail.map (syscall r.user r.lstar r.fmask).reg) := by
    rw [r.child_rdi, stacked_iff]
    intro i hi
    have hlt : i + 1 < SyscallFrame.length := by simpa using Nat.add_lt_of_lt_sub hi
    rw [List.getElem_map, List.getElem_tail, ← copy_regs r (i + 1) hlt, ← hcopied (i + 1) hlt]
    exact congrArg _ (by omega)
  obtain ⟨hrip, hflags, hsp, hax, hregs⟩ := fork_return_run r.flags₁ r.flags₂ hst
    (by rw [r.child_rdi]; have := r.child_fits; omega) fun i _ hi => by
      rw [r.child_rdi]
      exact fun heq => r.child_slot (i + 1) (by omega) (by omega)
  refine ⟨hrip, hflags.trans (RFlags.ofWord_val _), hax, fun q hq => ?_⟩
  by_cases hqsp : q = .rsp
  · rw [hqsp, ForkRun.childUser, hsp, r.child_rsi, hrsp]
    rfl
  · exact hregs q hqsp hq

/-- The parent goes on with its registers but for `rsp`, which is what the slot has. -/
theorem parentUser_regs : r.parentUser.rip = r.user.rip ∧ r.parentUser.rflags = r.user.rflags ∧
    r.parentUser.reg .rax = r.childPid ∧ r.parentUser.reg .rsp = r.parentMem (r.parentCore.gsbase + 28).toNat ∧
    ∀ q, q ≠ .rax → q ≠ .rsp → r.parentUser.reg q = (syscall r.user r.lstar r.fmask).reg q := by
  let f := Function.update (syscall r.user r.lstar r.fmask).reg .rax r.childPid
  have hst : Stacked r.parentMem (r.parentCore.reg .rsp).toNat (SyscallFrame.map f) := by
    rw [r.parent_rsp, stacked_iff]
    intro i hi
    have hlt : i < SyscallFrame.length := by simpa using hi
    rw [List.getElem_map, r.parent_frame i hlt, syscall_return, show SyscallFrame.idxOf Reg.rax = 0 from rfl]
    cases i with
    | zero =>
      have hf : f SyscallFrame[0] = r.childPid := Function.update_self ..
      rw [Function.update_self, hf]
    | succ i =>
      have hax : SyscallFrame[i + 1] ≠ .rax :=
        ne_of_mem_of_not_mem (List.getElem_mem (l := SyscallFrame.tail) (n := i)
          (by simpa using Nat.lt_sub_of_add_lt hlt)) (by simp [SyscallFrame])
      have hf : f SyscallFrame[i + 1] = (syscall r.user r.lstar r.fmask).reg SyscallFrame[i + 1] :=
        Function.update_of_ne hax ..
      rw [Function.update_of_ne (by omega), hf, r.done_frame _ hlt, ← copy_regs r _ hlt]
      exact (forkChild_mem r).2.2 _ hlt
  obtain ⟨hrip, hflags, hsp, hregs⟩ := syscallExit_run hst (by rw [r.parent_rsp]; exact frame_fits r)
  refine ⟨hrip, hflags.trans (RFlags.ofWord_val _), (hregs .rax (by simp)).trans (Function.update_self ..), hsp,
    fun q hax hqsp => ?_⟩
  exact (hregs q hqsp).trans (Function.update_of_ne hax ..)

/-- **The registers of `fork`.** The child goes on with those of the parent, and the parent does when `gs:28` still has
its `rsp`. -/
theorem fork_registers_kept : (r.RegistersKept ↔ r.SlotKept) ∧ r.GoesOn 0 r.childUser := by
  obtain ⟨hrip, hflags, hax, hsp, hregs⟩ := parentUser_regs r
  have hchild := childUser_goesOn r
  refine ⟨⟨fun h => ?_, fun h => ⟨hchild, hrip, hflags, hax, fun q hq => ?_⟩⟩, hchild⟩
  · exact hsp.symm.trans (h.2.2.2.2 .rsp (by simp))
  · by_cases hqsp : q = .rsp
    · rw [hqsp, hsp, h]
      rfl
    · exact hregs q hq hqsp

end

/-! ## A parent that waits in its `fork` -/

def parent : Core where
  reg r := if r = .rsp then 4096 else 0
  rip := 0x400000
  rflags := .ofWord 0x200
  cr2 := 0
  cr3 := 0
  fsbase := 0
  gsbase := 0

/-- `gs:20` has the end of the kernel stack. -/
def parentMem₀ : Mem := fun a => if a = 20 then 0x10000 else 0

theorem parent_frame_eq : frameOf parent 0 0 parentMem₀ + 120 = 0x10000 :=
  (entered_frame (by decide)).1

/-- A `fork` that finds 4096 in the slot, and leaves the system call with `word` there. -/
def slotLeft (word : Quad) : ForkRun :=
  let frame := frameOf parent 0 0 parentMem₀
  let copyMem := Function.update (entered parent 0 0 parentMem₀).2 28 4096
  let m := forkChild 0 0x20000 frame copyMem
  { user := parent
    lstar := 0
    fmask := 0
    mem := parentMem₀
    room := by simp [parentMem₀, parent]
    copyGs := 0
    copyMem := copyMem
    copy_frame := fun i _ => Function.update_of_ne (by have := parent_frame_eq; omega) ..
    copy_slot := by simp [copyMem, parent]
    child := 0x20000
    child_fits := by decide
    child_apart := fun i _ j _ => by have := parent_frame_eq; omega
    childPid := 2
    doneMem := m
    done_frame := fun _ _ => rfl
    parentCore := { parent with reg := fun _ => BitVec.ofNat 64 frame }
    parentMem := Function.update (syscall_return m frame 2) 28 word
    parent_rsp := by
      have := parent_frame_eq
      simp only [BitVec.toNat_ofNat, frame]
      omega
    parent_frame := fun i _ => Function.update_of_ne (by have := parent_frame_eq; omega) ..
    childCore := { parent with reg := fun r => if r = .rsi then m 0x20000 else 0x20008 }
    childMem := m
    child_frame := fun _ _ => rfl
    child_rdi := by simp
    child_rsi := by simp
    child_slot := fun i _ => by simp only [parent]; bv_omega
    flags₁ := .ofWord 0
    flags₂ := .ofWord 0 }

theorem slotLeft_slot (word : Quad) :
    (slotLeft word).parentMem ((slotLeft word).parentCore.gsbase + 28).toNat = word := by
  simp [slotLeft, parent]

/-- No other call comes in between. -/
theorem fork_parent_kept : (slotLeft 4096).RegistersKept :=
  (fork_registers_kept (slotLeft 4096)).1.mpr (slotLeft_slot 4096)

/-- While the parent waits in `fork`, after the copy, another process makes a system call with an `rsp` of 8192. The
cores get there. -/
theorem fork_parent_rsp_lost : ∃ (r : ForkRun) (s : Cores), System.Reachable rspSystem s ∧ s.current 0 = some 0 ∧
    s.mode 0 = .syscall (r.user.reg .rsp).toNat ∧
    s.gs28 0 = (r.parentMem (r.parentCore.gsbase + 28).toNat).toNat ∧ r.parentUser.reg .rsp = 8192 ∧
    ¬ r.RegistersKept := by
  obtain ⟨s, hreach, hgs, hmode, hstep⟩ := child_in_syscall
  have hcurrent : Function.update s.current 0 (some 0) 0 = some 0 := Function.update_self ..
  have hsp : (slotLeft 8192).parentUser.reg .rsp = 8192 :=
    (parentUser_regs (slotLeft 8192)).2.2.2.1.trans (slotLeft_slot 8192)
  refine ⟨slotLeft 8192, _, hreach.step hstep, hcurrent, hmode, ?_, hsp, fun h => ?_⟩
  · rw [slotLeft_slot]
    exact hgs
  · have heq : (slotLeft 8192).parentUser.reg .rsp = 4096 := h.2.2.2.2 .rsp (by simp)
    rw [hsp] at heq
    exact absurd heq (by decide)

end Kernel.ForkReturn
