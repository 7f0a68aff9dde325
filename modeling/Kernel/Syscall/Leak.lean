import Kernel.Syscall.Fork
import Kernel.Vmm.Isolation

/-!
# What a failed `fork` keeps

When no pid is free, the call has already copied the address space, and
nothing gives the copy back.
-/

namespace Kernel

open Lib

/-- `alloc` can still hand out frame `f`. -/
def Machine.freeFrame (s : Machine) (f : Nat) : Prop := s.inRanges f ∨ ∃ l, AvailList s s.avail l ∧ f ∈ l

/-- What a failed call must leave: the frames, the heap, the slots in use, `n_active` and `readyQueue`. -/
structure Unchanged (s t : KernelState) : Prop where
  frames : ∀ f, t.world.m.freeFrame f ↔ s.world.m.freeFrame f
  vmes : ∀ addr, addr ∈ t.world.m.vmeLive ↔ addr ∈ s.world.m.vmeLive
  blocks : t.blocks = s.blocks
  slots : ∀ c, (t.table.processTable c).used = (s.table.processTable c).used
  n_active : t.world.m.n_active = s.world.m.n_active
  readyQueue : t.readyQueue = s.readyQueue

theorem PhysWf.freeFrame {s : Machine} {F : Set Nat} (h : PhysWf s F) (f : Nat) : s.freeFrame f ↔ f ∈ F := by
  obtain ⟨l, hl, hF⟩ := h
  rw [hF, Machine.freeFrame, or_comm]
  refine or_congr_left ⟨?_, fun hf => ⟨l, hl.chain, hf⟩⟩
  rintro ⟨l', hl', hf⟩
  exact hl'.unique hl.hhdm hl.chain ▸ hf

/-! ## Memory in every run -/

section

variable {entries : List MemmapEntry} {nodes : Nat → BlockIO} {w : World} {F : Set Nat} {D : Nat → Set Nat}
  {s t : KernelState} {a : KernelAction}

theorem WorldInv.n_active (h : WorldInv entries w F D) (n : Nat) :
    WorldInv entries { w with m := { w.m with n_active := n } } F D where
  wf := h.wf.congr rfl rfl rfl fun _ _ => rfl
  usable := h.usable
  procs p P hp :=
    let hP := h.procs p P hp
    ⟨hP.space.congr rfl rfl rfl rfl rfl, hP.cr3, hP.usable, hP.heap, hP.vmes⟩
  apart := h.apart
  born := h.born
  root_mapped := h.root_mapped
  kernel := h.kernel
  newVme := h.newVme

theorem WorldInv.kernel_step (h : WorldInv entries s.world F D) (hs : PidsOk s) (hclean : CleanKernel nodes s a)
    (hstep : KernelStep nodes s a t) : ∃ F' D', WorldInv entries t.world F' D' := by
  cases hstep with
  | memory ha hstep => exact h.memory_step hclean hstep
  | fork hp hrun =>
    obtain ⟨st, m, u, hsnap, -, -, hres⟩ := sys_fork_spec (s := s.enter _ _) hs.table (hs.pid _ _ hp) hrun
    rcases hres with ⟨-, rfl, rfl⟩ | ⟨h2, -, -, rfl⟩
    · exact h.fork_fails hp hsnap
    · obtain ⟨F', D', h'⟩ := h.fork hp hsnap rfl
      rw [KernelState.spawned_world _ (by omega)]
      exact ⟨F', D', h'.n_active (m.n_active + 1)⟩
  | exit hp _ hfini => exact h.exit hp hfini
  | waitpid _ _ => exact ⟨F, D, h⟩
  | turn _ _ => exact ⟨F, D, h⟩
  | threads => exact ⟨F, D, h.n_active _⟩

theorem worldInv_of_kernel (h : System.GuardedReachable (kernelSystem entries nodes) (CleanKernel nodes) s) :
    PidsOk s ∧ ∃ F D, WorldInv entries s.world F D := by
  obtain ⟨s₀, l, hinit, hrun⟩ := h
  refine hrun.preserves (I := fun s => PidsOk s ∧ ∃ F D, WorldInv entries s.world F D) ?_
    ⟨pidsOk_of_reachable ⟨s₀, [], hinit, .nil _⟩, worldInv_init hinit.1⟩
  rintro s a t ⟨hs, F, D, h⟩ hclean hstep
  exact ⟨hs.step hstep, h.kernel_step hs hclean hstep⟩

/-! ## The failed call -/

/-- The root of the copy was free. -/
theorem WorldInv.snapshot_takes (h : WorldInv entries w F D) {p : Nat} {P : Process} {st : ForkState} {m : Machine}
    (hp : w.procs p = some P) (hrun : snapshot_for_fork.run { w.m.enter p P with acting := w.born } = some (st, m)) :
    ∃ f, w.m.freeFrame f ∧ ¬ m.freeFrame f := by
  obtain ⟨child, G, hc, hspace, -⟩ := h.snapshot hp hrun
  obtain ⟨hF, hG⟩ := hspace.root_mem
  exact ⟨child, (h.wf.freeFrame child).mpr hF, fun hf => hG ((hc.wf.freeFrame child).mp hf)⟩

/-- A call that returns -1 leaves what it did not take before it looked for a pid. -/
structure KeptBooks (s t : KernelState) : Prop where
  blocks : t.blocks = s.blocks
  slots : ∀ c, (t.table.processTable c).used = (s.table.processTable c).used
  readyQueue : t.readyQueue = s.readyQueue

theorem PidsOk.fork (hs : PidsOk s) {p user_rsp : Nat} {frame : List Nat} {r : Int}
    (hstep : KernelStep nodes s (.fork p user_rsp frame r) t) :
    (r = -1 ↔ ¬ s.table.PidFree) ∧ (r = -1 → KeptBooks s t) := by
  cases hstep with
  | fork hp hrun =>
    obtain ⟨st, m, u, -, -, htable, hres⟩ := sys_fork_spec (s := s.enter _ _) hs.table (hs.pid _ _ hp) hrun
    rcases hres with ⟨hfull, rfl, rfl⟩ | ⟨h2, hlt, hfree, rfl⟩
    · exact ⟨⟨fun _ => hfull, fun _ => rfl⟩, fun _ => ⟨rfl, fun c => congrArg (fun f => (f c).used) htable, rfl⟩⟩
    · have hne : r ≠ -1 := by omega
      exact ⟨⟨fun h => absurd h hne, fun h => absurd ⟨r, h2, hlt, hfree⟩ h⟩, fun h => absurd h hne⟩

theorem WorldInv.fork_leaks (h : WorldInv entries s.world F D) (hs : PidsOk s) {p user_rsp : Nat} {frame : List Nat}
    (hstep : KernelStep nodes s (.fork p user_rsp frame (-1)) t) : ¬ Unchanged s t := by
  intro hsame
  generalize hr : (-1 : Int) = r at hstep
  cases hstep with
  | fork hp hrun =>
    obtain ⟨st, m, u, hsnap, -, -, hres⟩ := sys_fork_spec (s := s.enter _ _) hs.table (hs.pid _ _ hp) hrun
    rcases hres with ⟨-, -, rfl⟩ | ⟨h2, -⟩
    · obtain ⟨f, hfree, htaken⟩ := h.snapshot_takes hp hsnap
      exact htaken ((hsame.frames f).mpr hfree)
    · omega

end

/-! ## A process that fills the table -/

/-- Room for the root of every process that has a pid. -/
def roomyEntry : MemmapEntry := ⟨512 * 4096, 2048 * 4096, LIMINE_MEMMAP_USABLE⟩

def roomyMachine : Machine := { bootMachine with free_ranges := [roomyEntry.range] }

theorem roomyMachine_booted : BootedKernel [roomyEntry] roomyMachine :=
  bootMachine_with (by decide) (by decide) (by decide)

theorem entriesSize_blank {s : Machine} {d table n : Nat} (h : ∀ i < n, s.mem table i = 0) :
    entriesSize s d table n = 0 := by
  induction n with
  | zero => rfl
  | succ n ih =>
    rw [entriesSize_succ, ih fun i hi => h i (by omega), h n (by omega), if_neg not_present_zero]

/-- The first process, with nothing mapped, has forked `k` times. -/
structure Spawning (nodes : Nat → BlockIO) (s : KernelState) (root k : Nat) : Prop where
  reach : System.GuardedReachable (kernelSystem [roomyEntry] nodes) (CleanKernel nodes) s
  proc : s.world.procs 0 = some ⟨root * FRAME_SIZE, [], 0, 0⟩
  born : 0 < s.world.born
  blank : ∀ j < 256, s.world.m.mem root j = 0
  room : ∀ F, PhysWf s.world.m F → 1023 ≤ F.ncard + k
  pid : (s.tcb 0).pid = 1
  taken : ∀ c : Int, 2 ≤ c → c < 2 + k → (s.table.processTable c).used = true
  next : k < 1022 → s.table.nextPid = 2 + k ∧ ∀ c : Int, 2 + k ≤ c → c < maxProcesses →
    (s.table.processTable c).used = false

section

variable {nodes : Nat → BlockIO} {s : KernelState} {root k : Nat}

theorem Spawning.snapshot (h : Spawning nodes s root k) (hk : k ≤ 1022) :
    ∃ st m, snapshot_for_fork.run { s.world.m.enter 0 ⟨root * FRAME_SIZE, [], 0, 0⟩ with acting := s.world.born } =
      some (st, m) ∧ (∀ j < 256, m.mem root j = 0) ∧ ∀ G, PhysWf m G → 1023 ≤ G.ncard + (k + 1) := by
  obtain ⟨-, F, D, hinv⟩ := worldInv_of_kernel h.reach
  have hP := hinv.procs 0 _ h.proc
  have hroot := hP.root_eq rfl
  let m₀ : Machine := { s.world.m.enter 0 ⟨root * FRAME_SIZE, [], 0, 0⟩ with acting := s.world.born }
  have hwf : PhysWf m₀ F := hinv.wf.congr rfl rfl rfl fun _ _ => rfl
  have hsrc : LowerSource m₀ F m₀.root := hinv.lowerSource h.proc
  have hm₀ : m₀.root = root := hroot
  have hsize : entriesSize m₀ 3 m₀.root 256 = 0 := entriesSize_blank (hm₀ ▸ h.blank)
  have hroom := h.room F hinv.wf
  obtain ⟨st, m, hrun⟩ := snapshot_returns hwf hsrc hinv.newVme (by omega)
  obtain ⟨child, G, v, l, hcopy, -, -, hcost, -⟩ := snapshot_parts hwf hsrc hinv.newVme hrun
  refine ⟨st, m, hrun, fun j hj => ?_, fun G' hG' => ?_⟩
  · have hout : root ∉ F \ G := fun hg => (hP.space.owned _ hP.space.root_mem).1 (by rw [hroot]; exact hg.1)
    rw [hcopy.other root hout]
    exact h.blank j hj
  · rw [hG'.unique hcopy.wf]
    omega

theorem Spawning.fork (h : Spawning nodes s root k) (hk : k < 1022) : ∃ t, Spawning nodes t root (k + 1) := by
  obtain ⟨hs, -⟩ := worldInv_of_kernel h.reach
  obtain ⟨hnext, hfree⟩ := h.next hk
  obtain ⟨st, m, hsnap, hblank, hroom⟩ := h.snapshot (by omega)
  have hlt : (2 : Int) + k < maxProcesses := by simp only [maxProcesses]; omega
  obtain ⟨c, u, hu, htable, hres⟩ :=
    sys_fork_run (s := s.enter 0 ⟨root * FRAME_SIZE, [], 0, 0⟩) hs.table (hs.pid 0 _ h.proc) 0 [] hsnap
  have htable' : u.processTable = s.table.processTable := htable
  rcases hres with ⟨hfull, -⟩ | ⟨h2, hcl, -, hsucc, hfirst, hrun⟩
  · exact absurd ⟨2 + k, by omega, hlt, hfree _ le_rfl hlt⟩ hfull
  have hc : c = 2 + k := by
    have hfirst' : (s.table.processTable s.table.nextPid).used = false → c = s.table.nextPid := hfirst
    rw [hnext] at hfirst'
    exact hfirst' (hfree _ le_rfl hlt)
  have hstep : KernelStep nodes s (.fork 0 0 [] c) _ := .fork h.proc hrun
  have hclean : CleanKernel nodes s (.fork 0 0 [] c) := trivial
  refine ⟨_, h.reach.step hclean hstep, ?_, ?_, ?_, ?_, ?_, fun d hd2 hd => ?_, fun hk' => ⟨?_, fun d hd hdlt => ?_⟩⟩
  · rw [KernelState.spawned_world _ (by omega)]
    show (if 0 = s.world.born then _ else s.world.procs 0) = _
    rw [if_neg (by have := h.born; omega)]
    exact h.proc
  · rw [KernelState.spawned_world _ (by omega)]
    exact Nat.succ_pos _
  · rw [KernelState.spawned_world _ (by omega)]
    exact hblank
  · rw [KernelState.spawned_world _ (by omega)]
    intro G hG
    exact hroom G (hG.congr rfl rfl rfl fun _ _ => rfl)
  · show (if 0 = s.world.born then _ else s.tcb 0 : TCB).pid = 1
    rw [if_neg (by have := h.born; omega)]
    exact h.pid
  · show ((u.set c _).processTable d).used = true
    by_cases hdc : d = c
    · rw [hdc, Processes.set_same]
    · rw [Processes.set_other _ hdc, htable']
      exact h.taken d hd2 (by omega)
  · show (u.set c _).nextPid = _
    rw [Processes.set_nextPid, hsucc, hc, succPid, if_neg (by simp only [maxProcesses]; omega)]
    omega
  · show ((u.set c _).processTable d).used = false
    rw [Processes.set_other _ (by omega), htable']
    exact hfree d (by omega) hdlt

theorem Spawning.full (h : Spawning nodes s root 0) (k : Nat) (hk : k ≤ 1022) : ∃ t, Spawning nodes t root k := by
  induction k with
  | zero => exact ⟨s, h⟩
  | succ k ih =>
    obtain ⟨t, ht⟩ := ih (by omega)
    exact ht.fork (by omega)

theorem Spawning.fork_fails (h : Spawning nodes s root 1022) :
    ¬ s.table.PidFree ∧ ∃ t, KernelStep nodes s (.fork 0 0 [] (-1)) t := by
  obtain ⟨hs, -⟩ := worldInv_of_kernel h.reach
  obtain ⟨st, m, hsnap, -⟩ := h.snapshot le_rfl
  have hfull : ¬ s.table.PidFree := by
    rintro ⟨c, h2, hlt, hc⟩
    have hused := h.taken c h2 (by simp only [maxProcesses] at hlt; omega)
    rw [hc] at hused
    cases hused
  obtain ⟨c, u, -, -, ⟨-, hrun⟩ | ⟨h2, hlt, hfree, -⟩⟩ :=
    sys_fork_run (s := s.enter 0 ⟨root * FRAME_SIZE, [], 0, 0⟩) hs.table (hs.pid 0 _ h.proc) 0 [] hsnap
  · exact ⟨hfull, _, .fork h.proc hrun⟩
  · exact absurd ⟨c, h2, hlt, hfree⟩ hfull

end

theorem roomyMachine_usable (f : Nat) : usableFrame [roomyEntry] f ↔ 512 ≤ f ∧ f < 2560 := by
  simp only [usableFrame, List.mem_singleton, exists_eq_left, MemmapEntry.usable, roomyEntry, MemmapEntry.range,
    Range.has, FRAME_SIZE, true_and]
  omega

theorem roomyMachine_frames : {f | usableFrame [roomyEntry] f}.ncard = 2048 := by
  have hcoe : {f | usableFrame [roomyEntry] f} = Finset.Ico 512 2560 := by
    ext f
    rw [Finset.coe_Ico, Set.mem_Ico]
    exact roomyMachine_usable f
  rw [hcoe, Set.ncard_coe_finset, Nat.card_Ico]

/-- The first process, after `register_process_pid1`. -/
theorem roomyMachine_spawning (nodes : Nat → BlockIO) : ∃ s root, Spawning nodes s root 0 := by
  have hcard := roomyMachine_frames
  obtain ⟨m, hinit⟩ := init_thread_returns roomyMachine_booted (Set.nonempty_of_ncard_ne_zero (by omega))
  obtain ⟨root, hroot⟩ := init_thread_spec roomyMachine_booted hinit
  obtain ⟨table, hboot, -, hnext, -, hfree⟩ :=
    register_process_pid1_spec (s := ⟨fun _ => ⟨false, 0, false, 0⟩, 0, false⟩)
  let w : World := ⟨m, fun p => if p = 0 then some m.process else none, 1⟩
  refine ⟨⟨w, table, fun _ => ⟨1, 0, [], 0, 0, [], 0⟩, [], []⟩, root,
    ⟨_, [], ⟨⟨roomyMachine, roomyMachine_booted, hinit, rfl, rfl⟩, _, hboot⟩, .nil _⟩, ?_, Nat.one_pos, hroot.blank,
    fun F hF => ?_, rfl, fun c h2 hc => ?_, fun _ => ⟨?_, fun c h2 hlt => hfree c ?_ hlt ?_⟩⟩
  · rw [← hroot.process]
    rfl
  · have hfin : {f | usableFrame [roomyEntry] f}.Finite := Set.finite_of_ncard_ne_zero (by omega)
    have hmem : root ∈ {f | usableFrame [roomyEntry] f} := hroot.usable
    have hone := Set.ncard_sdiff_singleton_add_one hmem hfin
    rw [hF.unique hroot.wf]
    omega
  · omega
  · rw [hnext]
    omega
  · omega
  · omega

/-! ## When a failed call changes nothing -/

/-- **A failed fork.** `fork` returns -1 when no pid is free, and then the frames of the copy are lost. -/
theorem fork_unchanged_iff_pid_free (entries : List MemmapEntry) (nodes : Nat → BlockIO) :
    (∀ s p user_rsp frame r t, (kernelSystem entries nodes).Reachable s →
      KernelStep nodes s (.fork p user_rsp frame r) t →
      (s.table.PidFree → r = -1 → Unchanged s t) ∧ (r = -1 → KeptBooks s t)) ∧
    ∀ s p user_rsp frame r t, System.GuardedReachable (kernelSystem entries nodes) (CleanKernel nodes) s →
      KernelStep nodes s (.fork p user_rsp frame r) t → ((r = -1 → Unchanged s t) ↔ s.table.PidFree) := by
  constructor
  · intro s p user_rsp frame r t hs hstep
    obtain ⟨hfail, hkept⟩ := (pidsOk_of_reachable hs).fork hstep
    exact ⟨fun hfree hr => absurd hfree (hfail.mp hr), hkept⟩
  · intro s p user_rsp frame r t hs hstep
    obtain ⟨hpids, F, D, hinv⟩ := worldInv_of_kernel hs
    obtain ⟨hfail, -⟩ := hpids.fork hstep
    constructor
    · intro hsame
      by_contra hfull
      obtain rfl := hfail.mpr hfull
      exact hinv.fork_leaks hpids hstep (hsame rfl)
    · exact fun hfree hr => absurd hfree (hfail.mp hr)

theorem full_table_fork_unchanged : ∃ s t, KernelStep (fun _ => emptyFile) s (.fork 0 0 [] (-1)) t ∧
    (((-1 : Int) = -1 → Unchanged s t) ↔ s.table.PidFree) ∧ KeptBooks s t := by
  obtain ⟨s₀, root, h₀⟩ := roomyMachine_spawning fun _ => emptyFile
  obtain ⟨s, hs⟩ := h₀.full 1022 le_rfl
  obtain ⟨-, t, hstep⟩ := hs.fork_fails
  obtain ⟨hall, hclean⟩ := fork_unchanged_iff_pid_free [roomyEntry] fun _ => emptyFile
  exact ⟨s, t, hstep, hclean s 0 0 [] (-1) t hs.reach hstep, (hall s 0 0 [] (-1) t hs.reach.reachable hstep).2 rfl⟩

theorem full_table_fork_leaks : ∃ s t, (kernelSystem [roomyEntry] fun _ => emptyFile).Reachable s ∧
    KernelStep (fun _ => emptyFile) s (.fork 0 0 [] (-1)) t ∧ ¬ Unchanged s t := by
  obtain ⟨s₀, root, h₀⟩ := roomyMachine_spawning fun _ => emptyFile
  obtain ⟨s, hs⟩ := h₀.full 1022 le_rfl
  obtain ⟨-, t, hstep⟩ := hs.fork_fails
  obtain ⟨hpids, F, D, hinv⟩ := worldInv_of_kernel hs.reach
  exact ⟨s, t, hs.reach.reachable, hstep, hinv.fork_leaks hpids hstep⟩

end Kernel
