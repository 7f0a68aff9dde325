import Kernel.Process.Proofs
import Kernel.Vmm.Memory

/-!
# The whole of the `fork` system call

The snapshot, the pid, the `TCB` with its stack and `readyQueue`, in the order
in which the call takes them.
-/

namespace Kernel

open Lib

/-! ## The code -/

/-- The fields that `fork` sets; `cr3` is what the new stack holds for the first switch. -/
structure TCB where
  pid : Int
  fork_user_rsp : Nat
  fork_frame : List Nat
  fork_heap_start : Nat
  fork_heap_break : Nat
  fork_private_vmes : List VME
  cr3 : Nat

/-- What `fork_child_entry` installs. -/
def TCB.process (t : TCB) : Process := ⟨t.cr3, t.fork_private_vmes, t.fork_heap_start, t.fork_heap_break⟩

/-- What `fork` allocates on the heap besides VMEs, by the number of the process that it is for. -/
inductive HeapBlock where
  | tcb (p : Nat)
  | stack (p : Nat)

structure KernelState where
  world : World
  table : Processes
  /-- The thread of each process. -/
  tcb : Nat → TCB
  blocks : List HeapBlock
  readyQueue : List Nat

def onMachine {α : Type} : K α → Prog KernelState α :=
  Prog.zoom (fun s => s.world.m) fun m s => { s with world := { s.world with m := m } }

def onTable {α : Type} : P α → Prog KernelState α :=
  Prog.zoom KernelState.table fun t s => { s with table := t }

def KernelState.setTcb (s : KernelState) (p : Nat) (t : TCB) : KernelState :=
  { s with tcb := fun q => if q = p then t else s.tcb q }

def TCB.alloc : Prog KernelState Nat := do
  let s ← get
  let child := s.world.born
  modify fun s => { s with blocks := .tcb child :: s.blocks }
  modify fun s => s.setTcb child ⟨0, 0, List.replicate 15 0, 0, 0, [], 0⟩
  pure child

/-- `me` calls `fork` with the registers `frame`. `snapshot_for_fork` never returns false. -/
def sys_fork (me user_rsp : Nat) (frame : List Nat) : Prog KernelState Int := do
  let s ← get
  let myPid ← onTable (ensure_current_pid (s.tcb me).pid)
  modify fun s => s.setTcb me { s.tcb me with pid := myPid }
  let myPid := if myPid ≤ 0 then 1 else myPid
  let childState ← onMachine snapshot_for_fork
  onTable init_process_table_locked
  let childPid ← onTable allocate_pid_locked
  if childPid < 0 then pure (-1)
  else do
    onTable (modify fun s => s.set childPid ⟨true, myPid, false, 0⟩)
    let child ← TCB.alloc
    modify fun s => s.setTcb child
      ⟨childPid, user_rsp, frame, childState.heap_start, childState.heap_break, childState.private_vmes, childState.cr3⟩
    modify fun s => { s with blocks := .stack child :: s.blocks }
    onMachine (modify fun m => { m with n_active := m.n_active + 1 })
    modify fun s => { s with readyQueue := s.readyQueue ++ [child] }
    pure childPid

/-! ## Runs -/

/-- The kernel works for process `p`. What it maps now is for a new process. -/
def KernelState.enter (s : KernelState) (p : Nat) (P : Process) : KernelState :=
  { s with world := { s.world with m := { s.world.m.enter p P with acting := s.world.born } } }

/-- The new process is there, unless `fork` returned -1. -/
def KernelState.forked (s : KernelState) (r : Int) : KernelState :=
  { s with
    world := ⟨s.world.m, if r < 0 then s.world.procs else
      fun q => if q = s.world.born then some (s.tcb s.world.born).process else s.world.procs q, s.world.born + 1⟩ }

/-- A memory action that neither makes nor ends a process. -/
def MemoryAction.private : MemoryAction → Prop
  | .kernel (.fork _) | .kernel (.fork_fails _) | .kernel (.exit _ _) => False
  | _ => True

inductive KernelAction where
  | memory (a : MemoryAction)
  | fork (p user_rsp : Nat) (frame : List Nat) (r : Int)
  | exit (p rdi : Nat)
  | waitpid (p rdi rsi rdx : Nat) (mapped : Bool)
  | turn (p : Nat) (childPid : Int) (statusPtr : Nat)
  | threads (readyQueue : List Nat) (blocks : List HeapBlock) (n_active : Nat)

/-- `threads` is whatever scheduler, reaper and kernel threads do. -/
inductive KernelStep (nodes : Nat → BlockIO) : KernelState → KernelAction → KernelState → Prop where
  | memory {s : KernelState} {a : MemoryAction} {w : World} : a.private → MemoryStep nodes s.world a w →
      KernelStep nodes s (.memory a) { s with world := w }
  | fork {s t : KernelState} {p user_rsp : Nat} {frame : List Nat} {r : Int} {P : Process} :
      s.world.procs p = some P → (sys_fork p user_rsp frame).run (s.enter p P) = some (r, t) →
      KernelStep nodes s (.fork p user_rsp frame r) (t.forked r)
  | exit {s : KernelState} {p rdi : Nat} {P : Process} {t : Processes} {m : Machine} :
      s.world.procs p = some P → (exit (s.tcb p).pid rdi).run s.table = some ((), t) →
      fini_thread.run (s.world.m.enter p P) = some ((), m) →
      KernelStep nodes s (.exit p rdi)
        { s with
          table := t
          world := { s.world with m := m, procs := fun q => if q = p then none else s.world.procs q } }
  | waitpid {s : KernelState} {p rdi rsi rdx : Nat} {mapped : Bool} {P : Process} {c : Option Int} {t : Processes} :
      s.world.procs p = some P → (waitpid_args (s.tcb p).pid rdi rsi rdx mapped).run s.table = some (c, t) →
      KernelStep nodes s (.waitpid p rdi rsi rdx mapped) { s with table := t }
  | turn {s : KernelState} {p statusPtr : Nat} {childPid : Int} {P : Process} {w : Wait} {t : Processes} :
      s.world.procs p = some P → (waitpid_turn (s.tcb p).pid childPid statusPtr).run s.table = some (w, t) →
      KernelStep nodes s (.turn p childPid statusPtr) { s with table := t }
  | threads {s : KernelState} {readyQueue : List Nat} {blocks : List HeapBlock} {n_active : Nat} :
      KernelStep nodes s (.threads readyQueue blocks n_active)
        { s with
          readyQueue := readyQueue
          blocks := blocks
          world := { s.world with m := { s.world.m with n_active := n_active } } }

/-- The first process has called `register_process_pid1`. -/
def kernelSystem (entries : List MemmapEntry) (nodes : Nat → BlockIO) : System KernelState KernelAction where
  init s := (worldSystem entries).init s.world ∧ ∃ t, register_process_pid1.run t = some ((s.tcb 0).pid, s.table)
  step := KernelStep nodes

/-- As in `CleanMemory`. -/
def CleanKernel (nodes : Nat → BlockIO) (s : KernelState) : KernelAction → Prop
  | .memory a => CleanMemory nodes s.world a
  | _ => True

/-! ## What the call does -/

/-- The state when the call has no pid. -/
def KernelState.failed (s : KernelState) (m : Machine) (table : Processes) : KernelState :=
  { s with world := { s.world with m := m }, table := table }

/-- The state when `me` has a child with pid `c`. -/
def KernelState.spawned (s : KernelState) (me : Nat) (m : Machine) (table : Processes) (c : Int) (child : TCB) :
    KernelState where
  world := { s.world with m := { m with n_active := m.n_active + 1 } }
  table := table.set c ⟨true, (s.tcb me).pid, false, 0⟩
  tcb := fun q => if q = s.world.born then child else s.tcb q
  blocks := .stack s.world.born :: .tcb s.world.born :: s.blocks
  readyQueue := s.readyQueue ++ [s.world.born]

section

variable {s t : KernelState} {me user_rsp : Nat} {frame : List Nat} {r : Int}

theorem KernelState.setTcb_same (s : KernelState) (p : Nat) : s.setTcb p { s.tcb p with pid := (s.tcb p).pid } = s := by
  have htcb : (fun q => if q = p then s.tcb p else s.tcb q) = s.tcb := by
    funext q
    split_ifs with h
    · rw [h]
    · rfl
  show { s with tcb := fun q => if q = p then s.tcb p else s.tcb q } = s
  rw [htcb]

theorem setTcb_twice (tcb : Nat → TCB) (p : Nat) (t u : TCB) :
    (fun q => if q = p then t else if q = p then u else tcb q) = fun q => if q = p then t else tcb q := by
  funext q
  split_ifs <;> rfl

theorem onMachine_run {α : Type} {c : K α} {a : α} {m : Machine} (h : c.run s.world.m = some (a, m)) :
    (onMachine c).run s = some (a, { s with world := { s.world with m := m } }) :=
  Prog.run_zoom.mpr ⟨m, h, rfl⟩

theorem onTable_run {α : Type} {c : P α} {a : α} {u : Processes} (h : c.run s.table = some (a, u)) :
    (onTable c).run s = some (a, { s with table := u }) :=
  Prog.run_zoom.mpr ⟨u, h, rfl⟩

theorem sys_fork_run {st : ForkState} {m : Machine} (hok : s.table.Ok) (hpid : 0 < (s.tcb me).pid) (user_rsp : Nat)
    (frame : List Nat) (hsnap : snapshot_for_fork.run s.world.m = some (st, m)) :
    ∃ (c : Int) (u : Processes), u.Ok ∧ u.processTable = s.table.processTable ∧
      (¬ s.table.PidFree ∧ (sys_fork me user_rsp frame).run s = some (-1, s.failed m u) ∨
        2 ≤ c ∧ c < maxProcesses ∧ (s.table.processTable c).used = false ∧ u.nextPid = succPid c ∧
          ((s.table.processTable s.table.nextPid).used = false → c = s.table.nextPid) ∧
          (sys_fork me user_rsp frame).run s = some (c, s.spawned me m u c
            ⟨c, user_rsp, frame, st.heap_start, st.heap_break, st.private_vmes, st.cr3⟩)) := by
  obtain ⟨c, n, hrun, hn, hres⟩ := allocate_pid_locked_spec hok.next
  have hmachine : (onMachine snapshot_for_fork).run s = some (st, s.failed m s.table) := onMachine_run hsnap
  have hinit : (onTable init_process_table_locked).run (s.failed m s.table) = some ((), s.failed m s.table) :=
    onTable_run (init_process_table_locked_run hok.initialized)
  have halloc : (onTable allocate_pid_locked).run (s.failed m s.table) =
      some (c, s.failed m { s.table with nextPid := n }) := onTable_run hrun
  refine ⟨c, { s.table with nextPid := n }, ⟨hok.initialized, hn⟩, rfl, ?_⟩
  rw [sys_fork, Prog.get_bind_run, Prog.bind_run (onTable_run (ensure_current_pid_run hpid)), Prog.modify_bind_run,
    KernelState.setTcb_same, if_neg (by omega), Prog.bind_run hmachine,
    Prog.bind_run hinit, Prog.bind_run halloc]
  rcases hres with ⟨rfl, hfull⟩ | ⟨hfirst, hsucc⟩
  · exact Or.inl ⟨hfull, rfl⟩
  · obtain ⟨h2, hlt⟩ := hfirst.mem
    refine Or.inr ⟨h2, hlt, hfirst.holds, hsucc, hfirst.eq_self hok.next, ?_⟩
    rw [if_neg (by omega), KernelState.spawned, ← setTcb_twice s.tcb s.world.born _
      ⟨0, 0, List.replicate 15 0, 0, 0, [], 0⟩]
    rfl

theorem sys_fork_snapshot (hpid : 0 < (s.tcb me).pid) (hrun : (sys_fork me user_rsp frame).run s = some (r, t)) :
    ∃ st m, snapshot_for_fork.run s.world.m = some (st, m) := by
  rw [sys_fork, Prog.get_bind_run, Prog.bind_run (onTable_run (ensure_current_pid_run hpid)), Prog.modify_bind_run,
    KernelState.setTcb_same, if_neg (by omega), Prog.run_bind] at hrun
  obtain ⟨st, u, hsnap, -⟩ := hrun
  obtain ⟨m, hm, -⟩ := Prog.run_zoom.mp hsnap
  exact ⟨st, m, hm⟩

theorem sys_fork_spec (hok : s.table.Ok) (hpid : 0 < (s.tcb me).pid)
    (hrun : (sys_fork me user_rsp frame).run s = some (r, t)) :
    ∃ st m u, snapshot_for_fork.run s.world.m = some (st, m) ∧ u.Ok ∧ u.processTable = s.table.processTable ∧
      (¬ s.table.PidFree ∧ r = -1 ∧ t = s.failed m u ∨
        2 ≤ r ∧ r < maxProcesses ∧ (s.table.processTable r).used = false ∧ t = s.spawned me m u r
          ⟨r, user_rsp, frame, st.heap_start, st.heap_break, st.private_vmes, st.cr3⟩) := by
  obtain ⟨st, m, hsnap⟩ := sys_fork_snapshot hpid hrun
  obtain ⟨c, u, hu, htable, hres⟩ := sys_fork_run hok hpid user_rsp frame hsnap
  refine ⟨st, m, u, hsnap, hu, htable, ?_⟩
  rcases hres with ⟨hfull, h⟩ | ⟨h2, hlt, hfree, -, -, h⟩
  · rw [hrun, Option.some.injEq, Prod.mk.injEq] at h
    exact Or.inl ⟨hfull, h⟩
  · rw [hrun, Option.some.injEq, Prod.mk.injEq] at h
    obtain ⟨rfl, rfl⟩ := h
    exact Or.inr ⟨h2, hlt, hfree, rfl⟩

end

/-! ## The table in every run -/

/-- The table is in order and every live process has a pid. -/
structure PidsOk (s : KernelState) : Prop where
  table : s.table.Ok
  pid : ∀ p P, s.world.procs p = some P → 0 < (s.tcb p).pid

section

variable {entries : List MemmapEntry} {nodes : Nat → BlockIO} {s t : KernelState} {a : KernelAction}

theorem KernelState.spawned_world (s : KernelState) {me : Nat} {m : Machine} {u : Processes} {c : Int} {child : TCB}
    (h : 0 ≤ c) : ((s.spawned me m u c child).forked c).world = ⟨{ m with n_active := m.n_active + 1 },
      fun q => if q = s.world.born then some child.process else s.world.procs q, s.world.born + 1⟩ := by
  rw [forked, if_neg (by omega)]
  simp only [spawned, if_true]

theorem Processes.Ok.exit {s t : Processes} {me : Int} {rdi : Nat} (h : s.Ok) (hme : 0 < me)
    (hrun : (exit me rdi).run s = some ((), t)) : t.Ok := by
  rw [Kernel.exit, Prog.bind_run (ensure_current_pid_run hme), if_pos hme,
    Prog.bind_run (init_process_table_locked_run h.initialized), Prog.get_bind_run] at hrun
  dsimp only at hrun
  split_ifs at hrun
  · rw [Prog.run_modify] at hrun
    rw [hrun]
    exact ⟨h.initialized, h.next⟩
  · rw [Prog.run_pure] at hrun
    rw [hrun.2]
    exact h

theorem Processes.Ok.turn {s t : Processes} {me c : Int} {statusPtr : Nat} {w : Wait} (h : s.Ok)
    (hrun : (waitpid_turn me c statusPtr).run s = some (w, t)) : t.Ok := by
  rcases waitpid_turn_spec h hrun with ⟨-, rfl⟩ | ⟨-, -, -, rfl, -⟩
  · exact h
  · exact ⟨h.initialized, h.next⟩

theorem MemoryStep.alive {w w' : World} {a : MemoryAction} (ha : a.private) (h : MemoryStep nodes w a w') {p : Nat}
    {P : Process} (hp : w'.procs p = some P) : ∃ Q, w.procs p = some Q := by
  have hleave : ∀ {q : Nat} {Q R : Process}, w.procs q = some Q →
      (if p = q then some R else w.procs p) = some P → ∃ Q, w.procs p = some Q := by
    intro q Q R hq hp
    by_cases hpq : p = q
    · exact ⟨Q, hpq ▸ hq⟩
    · rw [if_neg hpq] at hp
      exact ⟨P, hp⟩
  cases h with
  | kernel h =>
    cases h with
    | load hq _ _ => exact hleave hq hp
    | init_heap hq _ => exact hleave hq hp
    | brk hq _ => exact hleave hq hp
    | store _ _ _ => exact ⟨P, hp⟩
    | fork _ _ _ => exact ha.elim
    | fork_fails _ _ => exact ha.elim
    | exit _ _ => exact ha.elim
  | fault hq _ _ => exact hleave hq hp
  | unmap hq _ _ => exact hleave hq hp
  | vmes hq _ => exact hleave hq hp

theorem PidsOk.step (h : PidsOk s) (hstep : KernelStep nodes s a t) : PidsOk t := by
  cases hstep with
  | memory ha hstep =>
    refine ⟨h.table, fun p P hp => ?_⟩
    obtain ⟨Q, hQ⟩ := hstep.alive ha hp
    exact h.pid p Q hQ
  | fork hq hrun =>
    obtain ⟨st, m, u, -, hu, -, hres⟩ := sys_fork_spec (s := s.enter _ _) h.table (h.pid _ _ hq) hrun
    rcases hres with ⟨-, rfl, rfl⟩ | ⟨h2, -, -, rfl⟩
    · exact ⟨hu, h.pid⟩
    · refine ⟨⟨hu.initialized, hu.next⟩, fun p P hp => ?_⟩
      show 0 < (if p = s.world.born then _ else s.tcb p : TCB).pid
      by_cases hpb : p = s.world.born
      · rw [if_pos hpb]
        exact Int.lt_of_lt_of_le (by decide) h2
      · rw [if_neg hpb]
        rw [KernelState.spawned_world _ (by omega)] at hp
        have hold : (if p = s.world.born then _ else s.world.procs p) = some P := hp
        rw [if_neg hpb] at hold
        exact h.pid p P hold
  | exit hq hrun _ =>
    refine ⟨h.table.exit (h.pid _ _ hq) hrun, fun q Q hQ => ?_⟩
    dsimp only at hQ
    split_ifs at hQ
    exact h.pid q Q hQ
  | waitpid hq hrun =>
    rw [(waitpid_args_spec (h.pid _ _ hq) hrun).1]
    exact h
  | turn _ hrun => exact ⟨h.table.turn hrun, h.pid⟩
  | threads => exact ⟨h.table, h.pid⟩

theorem pidsOk_of_reachable (h : (kernelSystem entries nodes).Reachable s) : PidsOk s := by
  obtain ⟨s₀, l, ⟨hworld, u, hboot⟩, hrun⟩ := h
  refine hrun.preserves (I := PidsOk) (fun _ _ _ hs hstep => hs.step hstep) ?_
  obtain ⟨t, ht, hok, -⟩ := register_process_pid1_spec (s := u)
  rw [hboot, Option.some.injEq, Prod.mk.injEq] at ht
  obtain ⟨hpid, htable⟩ := ht
  refine ⟨htable ▸ hok, fun p P hp => ?_⟩
  obtain ⟨b, -, -, hprocs, -⟩ := hworld
  rw [hprocs] at hp
  dsimp only at hp
  by_cases hp0 : p = 0
  · rw [hp0, hpid]
    omega
  · rw [if_neg hp0] at hp
    cases hp

end

end Kernel
