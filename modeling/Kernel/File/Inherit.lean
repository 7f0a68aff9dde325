import Kernel.File.Offsets
import Kernel.Process.Life

/-!
# Descriptors across fork

`TCB::alloc` gives the child the thread-local variables of the template, and
`fork` writes none of them.
-/

namespace Kernel

open Lib

/-- The processes, and what each of them sees. -/
structure Family where
  procs : ProcessState
  caller : Nat → Caller

inductive FamilyOp where
  | process (a : ProcessOp)
  | call (i : Nat) (a : FileOp)

/-- A new thread, which has the memory of a snapshot. -/
def Caller.alloc (memory : Memory) : Caller := ⟨fun _ => ⟨false, 0, 0⟩, false, memory⟩

inductive FamilyStep (fs : Ext2) : Family → FamilyOp → Family → Prop where
  | call {s : Family} {i : Nat} {a : FileOp} {c : Caller} (hu : s.procs.phase i = .user)
      (hcall : FileStep fs (s.caller i) a c) :
      FamilyStep fs s (.call i a) { s with caller := Function.update s.caller i c }
  | fork {s : Family} {i : Nat} {c : Int} {p : ProcessState} (hfork : ProcessStep s.procs (.fork i c) p) (hc : 0 ≤ c) :
      FamilyStep fs s (.process (.fork i c))
        ⟨p, Function.update s.caller s.procs.count (Caller.alloc (s.caller i).memory)⟩
  | fork_none {s : Family} {i : Nat} {c : Int} {p : ProcessState} (hfork : ProcessStep s.procs (.fork i c) p)
      (hc : c < 0) :
      FamilyStep fs s (.process (.fork i c)) { s with procs := p }
  | process {s : Family} {a : ProcessOp} {p : ProcessState} (ha : ∀ i c, a ≠ .fork i c)
      (hstep : ProcessStep s.procs a p) : FamilyStep fs s (.process a) { s with procs := p }

def familySystem (fs : Ext2) : System Family FamilyOp where
  init s := ProcessBoot s.procs ∧ (fileSystem fs).init (s.caller 0)
  step := FamilyStep fs

/-- The descriptors in use are those of the parent, with the inode and the offset that they have there. -/
def Inherits (parent child : Caller) : Prop :=
  ∀ fd, (child.fdTable fd).used = (parent.fdTable fd).used ∧
    ((parent.fdTable fd).used = true → child.fdTable fd = parent.fdTable fd)

section

variable {fs : Ext2} {s t : Family} {i : Nat} {c : Int}

theorem Caller.alloc_ok (memory : Memory) : (Caller.alloc memory).Ok := ⟨fun _ _ => rfl, nofun⟩

theorem inherits_alloc {p : Caller} (memory : Memory) :
    Inherits p (Caller.alloc memory) ↔ ∀ fd, (p.fdTable fd).used = false := by
  constructor
  · intro h fd
    exact (h fd).1.symm
  · intro h fd
    rw [h fd]
    exact ⟨rfl, nofun⟩

theorem FamilyStep.fork_child (h : FamilyStep fs s (.process (.fork i c)) t) (hc : 0 ≤ c) :
    t.caller s.procs.count = Caller.alloc (s.caller i).memory := by
  cases h with
  | fork => exact Function.update_self _ _ _
  | fork_none _ hneg => omega
  | process ha => exact absurd rfl (ha i c)

end

/-- **fork and open files.** The child has the descriptors of the parent only when that has none in use, and it can
read from none. -/
theorem fork_inherits {fs : Ext2} {s t : Family} {i : Nat} {c : Int} (h : FamilyStep fs s (.process (.fork i c)) t)
    (hc : 0 ≤ c) :
    (Inherits (s.caller i) (t.caller s.procs.count) ↔ ∀ fd, ((s.caller i).fdTable fd).used = false) ∧
    ∀ mapped rdi rsi rdx, ((sys_read (some fs) mapped rdi rsi rdx).run (t.caller s.procs.count)).map Prod.fst =
      some (-1) := by
  rw [h.fork_child hc]
  refine ⟨inherits_alloc _, fun mapped rdi rsi rdx => ?_⟩
  rw [sys_read_spec (Caller.alloc_ok _) fs.root nofun, if_neg nofun]
  rfl

theorem boot_fork : ∃ s p, ProcessBoot s ∧ s.phase 0 = .user ∧ ProcessStep s (.fork 0 2) p := by
  obtain ⟨s, hb, hnext, -, -, hfree⟩ := boot_run
  have hu : s.phase 0 = .user := by
    obtain ⟨-, -, -, hu, -⟩ := hb
    exact hu
  have hi := hb.inv
  obtain ⟨d, t, hrun, -, -, hfirst⟩ := fork_spec hi.ok (hi.slot 0 (by rw [hu]; rfl)).range.1
  have hd : d = 2 := by
    rw [hfirst ?_, hnext]
    rw [hnext]
    exact hfree 2 (by decide) (by decide) (by decide)
  rw [hd] at hrun
  exact ⟨s, _, hb, hu, .fork hu hrun (by decide)⟩

theorem firstFork_inherits : ∃ s t, FamilyStep smallFs s (.process (.fork 0 2)) t ∧
    (Inherits (s.caller 0) (t.caller s.procs.count) ↔ ∀ fd, ((s.caller 0).fdTable fd).used = false) := by
  obtain ⟨s, p, -, -, hfork⟩ := boot_fork
  have hstep : FamilyStep smallFs ⟨s, fun _ => smallCaller⟩ (.process (.fork 0 2)) _ := .fork hfork (by decide)
  exact ⟨_, _, hstep, (fork_inherits hstep (by decide)).1⟩

theorem open_then_fork : ∃ s t, (familySystem smallFs).Reachable s ∧
    FamilyStep smallFs s (.process (.fork 0 2)) t ∧ ¬ Inherits (s.caller 0) (t.caller s.procs.count) := by
  obtain ⟨s, p, hb, hu, hfork⟩ := boot_fork
  let opened : Caller := smallCaller.ready.set 3 ⟨true, 12, 0⟩
  have hopen : FamilyStep smallFs ⟨s, fun _ => smallCaller⟩ (.call 0 (.opened 4096 12 3))
      ⟨s, Function.update (fun _ => smallCaller) 0 opened⟩ := .call hu smallFs_open
  have hstep : FamilyStep smallFs ⟨s, Function.update (fun _ => smallCaller) 0 opened⟩ (.process (.fork 0 2)) _ :=
    .fork hfork (by decide)
  refine ⟨_, _, ⟨_, _, ⟨hb, rfl, fun _ => rfl⟩, System.Run.single hopen⟩, hstep, ?_⟩
  rw [hstep.fork_child (by decide), inherits_alloc]
  intro hnone
  have hused := hnone 3
  dsimp only at hused
  rw [Function.update_self, Caller.set_fdTable, Function.update_self] at hused
  cases hused

end Kernel
