import Kernel.Lib.Transition
import Kernel.Lib.X86

/-!
# Context switches (`machine.S`, `thread.cc`, `syscall.cc`)

Any number of cores and threads. A core runs `context_switch_` one instruction
at a time, and in between its thread does anything on its own stack.
-/

namespace Kernel.ContextSwitch

open Lib Lib.X86

/-! ## The code -/

/-- `context_switch_` before the store to `saved_rsp`. -/
def save : List Instr :=
  [.rdfsbase .rax, .push .rbx, .push .rbp, .push .r12, .push .r13, .push .r14, .push .r15, .pushf, .mov_from_cr2 .r15,
    .push .r15, .mov_from_cr3 .r14, .push .r14, .cli]

/-- `context_switch_` after the load of `saved_rsp`. -/
def restore : List Instr :=
  [.pop .r14, .mov_to_cr3 .r14, .pop .r15, .mov_to_cr2 .r15, .popf, .pop .r15, .pop .r14, .pop .r13, .pop .r12,
    .pop .rbp, .pop .rbx, .mov .rdi .rax, .ret]

def context_switch_ : List Instr :=
  save ++ .store .fs 8 .rsp :: .wrfsbase .rdi :: .load .rsp .fs 8 :: restore

def STACK_QUADS : Nat := 2048

/-- What `make_thread` and `fork` write to `the_stack`, in their order. -/
def the_stack (start cr3 : Quad) : List (Nat × Quad) :=
  [(STACK_QUADS - 1, start), (STACK_QUADS - 2, 0), (STACK_QUADS - 3, 0), (STACK_QUADS - 4, 0), (STACK_QUADS - 5, 0),
    (STACK_QUADS - 6, 0), (STACK_QUADS - 7, 0), (STACK_QUADS - 8, 0x200), (STACK_QUADS - 9, 0), (STACK_QUADS - 10, cr3)]

/-- The address of `TCB::saved_rsp`. -/
def saved_rsp (p : Quad) : Nat := (p + 8).toNat

/-! ## Cores and threads -/

structure Stack where
  lo : Nat
  hi : Nat

instance : Membership Nat Stack := ⟨fun st a => st.lo ≤ a ∧ a < st.hi⟩

theorem Stack.mem_iff {st : Stack} {a : Nat} : a ∈ st ↔ st.lo ≤ a ∧ a < st.hi := Iff.rfl

inductive Place (κ : Type) where
  | absent
  /-- It runs on the core, or is in `context_switch_` before the store. -/
  | running (c : κ)
  | suspended
  /-- The core is in a `context_switch_` to it. -/
  | claimed (c : κ)

/-- What a thread resumes with. -/
inductive Context where
  /-- From the call of `context_switch_`, with its return address. -/
  | called (k : Core) (ra : Quad)
  /-- From the stack that `make_thread` or `fork` has prepared. -/
  | prepared (start cr3 : Quad)

/-- A thread is its TCB, which `fsbase` has the address of. `context`, `prev` and `next` are ghosts. -/
structure Threads (κ : Type) where
  core : κ → Core
  /-- What a core still has to run of `context_switch_`. -/
  todo : κ → List Instr
  mem : Mem
  place : Quad → Place κ
  stack : Quad → Stack
  context : Quad → Context
  /-- The thread that a core ran before its last call of `context_switch_`. -/
  prev : κ → Quad
  /-- The argument of that call. -/
  next : κ → Quad

variable {κ : Type} [DecidableEq κ]

namespace Threads

def current (s : Threads κ) (c : κ) : Quad := (s.core c).fsbase

def Alive (s : Threads κ) (p : Quad) : Prop := s.place p ≠ .absent

/-- The call of `context_switch_`: the return address goes on the stack. -/
def call (s : Threads κ) (c : κ) (ra : Quad) : Threads κ :=
  let k := s.core c
  { s with
    core := Function.update s.core c (k.setReg .rsp (k.reg .rsp - 8))
    mem := Function.update s.mem (k.reg .rsp - 8).toNat ra
    todo := Function.update s.todo c context_switch_
    place := Function.update s.place (k.reg .rdi) (.claimed c)
    context := Function.update s.context k.fsbase (.called k ra)
    prev := Function.update s.prev c k.fsbase
    next := Function.update s.next c (k.reg .rdi) }

/-- Once its `rsp` is stored a thread may run elsewhere; `ret` ends the switch to a thread. -/
def placed (s : Threads κ) (c : κ) : Instr → Quad → Place κ
  | .store .. => Function.update s.place (s.current c) .suspended
  | .ret => Function.update s.place (s.current c) (.running c)
  | _ => s.place

def execute (s : Threads κ) (c : κ) (i : Instr) (is : List Instr) : Threads κ :=
  { s with
    core := Function.update s.core c (exec i (s.core c, s.mem)).1
    mem := (exec i (s.core c, s.mem)).2
    todo := Function.update s.todo c is
    place := s.placed c i }

def prepare (s : Threads κ) (p : Quad) (lo : Nat) (start cr3 : Quad) : Threads κ :=
  let m := (the_stack start cr3).foldl (fun m e => Function.update m (lo + 8 * e.1) e.2) s.mem
  { s with
    mem := Function.update m (saved_rsp p) (BitVec.ofNat 64 (lo + 8 * (STACK_QUADS - 10)))
    place := Function.update s.place p .suspended
    stack := Function.update s.stack p { lo := lo, hi := lo + 8 * STACK_QUADS }
    context := Function.update s.context p (.prepared start cr3) }

def make_thread (s : Threads κ) (p : Quad) (lo : Nat) (entry common_cr3 : Quad) : Threads κ :=
  s.prepare p lo entry common_cr3

/-- The child of `fork`. -/
def fork (s : Threads κ) (p : Quad) (lo : Nat) (fork_child_entry cr3 : Quad) : Threads κ :=
  s.prepare p lo fork_child_entry cr3

end Threads

/-- Thread `p` writes to no other thread's stack, and no code but that above writes to a `saved_rsp`. -/
structure OwnStack (s : Threads κ) (p : Quad) (m : Mem) : Prop where
  stack : ∀ q a, s.Alive q → q ≠ p → a ∈ s.stack q → m a = s.mem a
  saved : ∀ q, s.Alive q → m (saved_rsp q) = s.mem (saved_rsp q)

/-- The new TCB and its stack overlap with no stack, and the new stack with no TCB. -/
structure Fresh (s : Threads κ) (p : Quad) (st : Stack) : Prop where
  absent : s.place p = .absent
  fits : st.hi < 2 ^ 64
  apart : ∀ q a, s.Alive q → a ∈ s.stack q → a ∉ st
  slot : ∀ q, s.Alive q → saved_rsp p ∉ s.stack q ∧ saved_rsp q ∉ st
  own : saved_rsp p ∉ st

inductive SwitchOp (κ : Type) where
  | work (c : κ)
  | call (c : κ)
  | exec (c : κ)
  | irq (c : κ)
  | make_thread (p : Quad)
  | fork (p : Quad)
  | reap (p : Quad)

inductive SwitchStep : Threads κ → SwitchOp κ → Threads κ → Prop where
  /-- Anything that the thread of a core does. -/
  | work {s : Threads κ} {c : κ} {k : Core} {m : Mem} : s.todo c = [] → k.fsbase = s.current c →
      OwnStack s (s.current c) m → SwitchStep s (.work c) { s with core := Function.update s.core c k, mem := m }
  /-- There is room for the ten quadwords of the call. -/
  | call {s : Threads κ} {c : κ} {ra : Quad} : s.todo c = [] → s.place ((s.core c).reg .rdi) = .suspended →
      (s.stack (s.current c)).lo + 80 ≤ ((s.core c).reg .rsp).toNat →
      ((s.core c).reg .rsp).toNat ≤ (s.stack (s.current c)).hi → SwitchStep s (.call c) (s.call c ra)
  | exec {s : Threads κ} {c : κ} {i : Instr} {is : List Instr} : s.todo c = i :: is →
      SwitchStep s (.exec c) (s.execute c i is)
  /-- An interrupt handler uses the stack below `rsp` and takes the registers back. -/
  | irq {s : Threads κ} {c : κ} {m : Mem} : s.todo c ≠ [] → (s.core c).rflags.interrupts → OwnStack s (s.current c) m →
      (∀ a ∈ s.stack (s.current c), ((s.core c).reg .rsp).toNat ≤ a → m a = s.mem a) →
      SwitchStep s (.irq c) { s with mem := m }
  | make_thread {s : Threads κ} {p entry common_cr3 : Quad} {lo : Nat} :
      Fresh s p { lo := lo, hi := lo + 8 * STACK_QUADS } →
        SwitchStep s (.make_thread p) (s.make_thread p lo entry common_cr3)
  | fork {s : Threads κ} {p fork_child_entry cr3 : Quad} {lo : Nat} :
      Fresh s p { lo := lo, hi := lo + 8 * STACK_QUADS } → SwitchStep s (.fork p) (s.fork p lo fork_child_entry cr3)
  /-- A thread that nobody will switch to goes away, with its stack. -/
  | reap {s : Threads κ} {p : Quad} : s.place p = .suspended →
      SwitchStep s (.reap p) { s with place := Function.update s.place p .absent }

/-- Stacks overlap with no other thread's and with no TCB. -/
structure Layout (s : Threads κ) : Prop where
  fits : ∀ p, s.Alive p → (s.stack p).hi < 2 ^ 64
  apart : ∀ p q a, s.Alive p → s.Alive q → p ≠ q → a ∈ s.stack p → a ∉ s.stack q
  slots : ∀ p q, s.Alive p → s.Alive q → saved_rsp p ∉ s.stack q

/-- Every core runs a thread of its own, and there are no others. -/
structure Booted (s : Threads κ) : Prop where
  layout : Layout s
  idle : ∀ c, s.todo c = []
  running : ∀ c, s.place (s.current c) = .running c
  threads : ∀ p, s.Alive p → ∃ c, s.current c = p

def switchSystem (κ : Type) [DecidableEq κ] : System (Threads κ) (SwitchOp κ) where
  init := Booted
  step := SwitchStep

/-- What a thread sees when it resumes after `prev`. -/
def Resumed (x : Context) (prev : Quad) (k : Core) : Prop :=
  match x with
  | .called k₀ ra => (∀ r ∈ [Reg.rbx, .rbp, .r12, .r13, .r14, .r15, .rsp], k.reg r = k₀.reg r) ∧ k.rflags = k₀.rflags ∧
      k.cr2 = k₀.cr2 ∧ k.cr3 = k₀.cr3 ∧ k.rip = ra ∧ k.reg .rax = prev
  | .prepared start cr3 => k.rip = start ∧ k.cr3 = cr3 ∧ k.rflags = .ofWord 0x200 ∧ k.reg .rdi = prev

/-! ## The two halves -/

/-- `restore` on the stack `l` at `a` gives the context. -/
def Restores (x : Context) (a : Quad) (l : List Quad) : Prop :=
  ∀ k, k.reg .rsp = a → ∃ k', runL restore (k, l) = some (k', []) ∧ Resumed x (k.reg .rax) k'

theorem saved_rsp_inj {p q : Quad} (h : saved_rsp p = saved_rsp q) : p = q := by
  simp only [saved_rsp] at h
  bv_omega

theorem restore_runL (k : Core) (cr3 cr2 f r15 r14 r13 r12 rbp rbx ra : Quad) :
    ∃ k', runL restore (k, [cr3, cr2, f, r15, r14, r13, r12, rbp, rbx, ra]) = some (k', []) ∧ k'.rip = ra ∧
      k'.rflags = .ofWord f ∧ k'.cr2 = cr2 ∧ k'.cr3 = cr3 ∧ k'.reg .rax = k.reg .rax ∧ k'.reg .rdi = k.reg .rax ∧
      k'.reg .rsp = k.reg .rsp + 80 ∧ k'.reg .rbx = rbx ∧ k'.reg .rbp = rbp ∧ k'.reg .r12 = r12 ∧ k'.reg .r13 = r13 ∧
      k'.reg .r14 = r14 ∧ k'.reg .r15 = r15 := by
  refine ⟨_, rfl, rfl, rfl, rfl, rfl, rfl, rfl, ?_, rfl, rfl, rfl, rfl, rfl, rfl⟩
  change k.reg .rsp + 8 + 8 + 8 + 8 + 8 + 8 + 8 + 8 + 8 + 8 = _
  bv_omega

theorem save_runL (k : Core) (ra : Quad) : ∃ k' l', runL save (k.setReg .rsp (k.reg .rsp - 8), [ra]) = some (k', l') ∧
    Restores (.called k ra) (k'.reg .rsp) l' ∧ k'.reg .rax = k.fsbase ∧ k'.reg .rdi = k.reg .rdi ∧
      ¬ k'.rflags.interrupts := by
  refine ⟨_, [k.cr3, k.cr2, k.rflags.val, k.reg .r15, k.reg .r14, k.reg .r13, k.reg .r12, k.reg .rbp, k.reg .rbx, ra],
    rfl, fun j hj => ?_, rfl, rfl, RFlags.not_interrupts_disable _⟩
  obtain ⟨j', hrun, hrip, hflags, hcr2, hcr3, hrax, -, hrsp, hrbx, hrbp, hr12, hr13, hr14, hr15⟩ :=
    restore_runL j k.cr3 k.cr2 k.rflags.val (k.reg .r15) (k.reg .r14) (k.reg .r13) (k.reg .r12) (k.reg .rbp)
      (k.reg .rbx) ra
  refine ⟨j', hrun, ?_, by rw [hflags, RFlags.ofWord_val], hcr2, hcr3, hrip, hrax⟩
  have hsp : j'.reg .rsp = k.reg .rsp := by
    rw [hrsp, hj]
    change k.reg .rsp - 8 - 8 - 8 - 8 - 8 - 8 - 8 - 8 - 8 - 8 + 80 = _
    bv_omega
  simp [hrbx, hrbp, hr12, hr13, hr14, hr15, hsp]

theorem prepared_restores (start cr3 a : Quad) :
    Restores (.prepared start cr3) a [cr3, 0, 0x200, 0, 0, 0, 0, 0, 0, start] := by
  intro k hk
  obtain ⟨k', hrun, hrip, hflags, -, hcr3, -, hrdi, -⟩ := restore_runL k cr3 0 0x200 0 0 0 0 0 0 start
  exact ⟨k', hrun, hrip, hcr3, hflags, hrdi⟩

omit [DecidableEq κ] in
theorem save_plain : ∀ i ∈ save, i.dest ≠ some .rsp ∧ (∀ r, i ≠ .wrfsbase r) ∧
    ∀ (s : Threads κ) c, s.placed c i = s.place := by
  simp [save, Instr.dest, Threads.placed]

omit [DecidableEq κ] in
theorem restore_plain : ∀ i ∈ restore, i.dest ≠ some .rsp ∧ (∀ r, i ≠ .wrfsbase r) ∧
    (i ≠ .ret → ∀ (s : Threads κ) c, s.placed c i = s.place) := by
  simp [restore, Instr.dest, Threads.placed]

end Kernel.ContextSwitch
