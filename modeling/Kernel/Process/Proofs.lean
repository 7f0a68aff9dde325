import Kernel.Lib.Cyclic
import Kernel.Process.Code

/-!
# What each critical section does

One lemma for each, from a table in order.
-/

namespace Kernel

open Lib

def succPid (pid : Int) : Int := if pid + 1 ≥ maxProcesses then 2 else pid + 1

theorem succPid_eq : succPid = Cyclic.next 2 maxProcesses := rfl

/-- Some pid that `fork` gives out is free. -/
def Processes.PidFree (s : Processes) : Prop := ∃ c : Int, 2 ≤ c ∧ c < maxProcesses ∧ (s.processTable c).used = false

/-- The table once the process with this pid has exited. -/
def Processes.recordExit (s : Processes) (pid : Int) (rdi : Nat) : Processes :=
  s.set pid { s.processTable pid with exited := true, status := BitVec.ofNat 32 rdi }

/-- The table once slot `c` is free again. -/
def Processes.release (s : Processes) (c : Int) : Processes :=
  s.set c { s.processTable c with used := false }

section

variable {s t : Processes}

@[simp] theorem Processes.set_nextPid (i : Int) (e : ProcessEntry) : (s.set i e).nextPid = s.nextPid := rfl

@[simp] theorem Processes.set_initialized (i : Int) (e : ProcessEntry) :
    (s.set i e).processTableInitialized = s.processTableInitialized := rfl

@[simp] theorem Processes.set_same (i : Int) (e : ProcessEntry) : (s.set i e).processTable i = e := if_pos rfl

theorem Processes.set_other {i j : Int} (e : ProcessEntry) (h : j ≠ i) :
    (s.set i e).processTable j = s.processTable j := if_neg h

theorem init_process_table_locked_run (hi : s.processTableInitialized = true) :
    init_process_table_locked.run s = some ((), s) := by
  rw [init_process_table_locked, Prog.get_bind_run, if_pos hi]
  rfl

theorem ensure_current_pid_run {me : Int} (h : 0 < me) : (ensure_current_pid me).run s = some (me, s) := by
  rw [ensure_current_pid, if_pos h]
  rfl

/-- The table was set up, and the next pid to try is one. -/
structure Processes.Ok (s : Processes) : Prop where
  initialized : s.processTableInitialized = true
  next : 2 ≤ s.nextPid ∧ s.nextPid < maxProcesses

theorem allocate_pid_turn (turns : Nat) (h : 2 ≤ s.nextPid ∧ s.nextPid < maxProcesses) :
    (allocate_pid_loop (turns + 1)).run s =
      if (s.processTable s.nextPid).used = true then
        (allocate_pid_loop turns).run { s with nextPid := succPid s.nextPid }
      else some (s.nextPid, { s with nextPid := succPid s.nextPid }) := by
  have hwrap : ∀ {β : Type} (f : P β),
      (if s.nextPid + 1 ≥ maxProcesses then do
        modify fun s => { s with nextPid := 2 }
        f
      else f : P β).run { s with nextPid := s.nextPid + 1 } = f.run { s with nextPid := succPid s.nextPid } := by
    intro β f
    unfold succPid
    split_ifs <;> rfl
  rw [allocate_pid_loop, Prog.get_bind_run]
  dsimp only
  rw [Prog.modify_bind_run, Prog.get_bind_run]
  dsimp only
  rw [hwrap, Prog.get_bind_run]
  dsimp only
  by_cases hused : (s.processTable s.nextPid).used = true
  · rw [if_neg (by simp [hused]), if_pos hused]
  · rw [if_pos ⟨by omega, h.2, hused⟩, if_neg hused]
    rfl

theorem allocate_pid_loop_spec (turns : Nat) (h : 2 ≤ s.nextPid ∧ s.nextPid < maxProcesses) :
    ∃ c n, (allocate_pid_loop turns).run s = some (c, { s with nextPid := n }) ∧ (2 ≤ n ∧ n < maxProcesses) ∧
      (c = -1 ∧ (∀ k < turns, (s.processTable (succPid^[k] s.nextPid)).used = true) ∨
        n = succPid c ∧ ∃ k, c = succPid^[k] s.nextPid ∧ (s.processTable c).used = false ∧
          ∀ j < k, (s.processTable (succPid^[j] s.nextPid)).used = true) := by
  induction turns generalizing s with
  | zero => exact ⟨-1, s.nextPid, rfl, h, Or.inl ⟨rfl, by simp⟩⟩
  | succ turns ih =>
    have hnext : 2 ≤ succPid s.nextPid ∧ succPid s.nextPid < maxProcesses := Cyclic.next_mem h
    rw [allocate_pid_turn turns h]
    by_cases hused : (s.processTable s.nextPid).used = true
    · -- The rest of the loop searches from the next pid.
      rw [if_pos hused]
      obtain ⟨c, n, hrun, hn, hres⟩ := ih (s := { s with nextPid := succPid s.nextPid }) hnext
      have hall : ∀ m, (∀ j < m, (s.processTable (succPid^[j] (succPid s.nextPid))).used = true) →
          ∀ j < m + 1, (s.processTable (succPid^[j] s.nextPid)).used = true := by
        intro m hm j hj
        cases j with
        | zero => exact hused
        | succ j => exact hm j (by omega)
      refine ⟨c, n, hrun, hn, ?_⟩
      rcases hres with ⟨hc, hfull⟩ | ⟨hsucc, k, hck, hfree, hbefore⟩
      · exact Or.inl ⟨hc, hall turns hfull⟩
      · exact Or.inr ⟨hsucc, k + 1, hck, hfree, hall k hbefore⟩
    · rw [if_neg hused]
      exact ⟨_, _, rfl, hnext, Or.inr ⟨rfl, 0, rfl, by simpa using hused, by simp⟩⟩

theorem allocate_pid_locked_spec (h : 2 ≤ s.nextPid ∧ s.nextPid < maxProcesses) :
    ∃ c n, allocate_pid_locked.run s = some (c, { s with nextPid := n }) ∧ (2 ≤ n ∧ n < maxProcesses) ∧
      (c = -1 ∧ ¬ s.PidFree ∨
        Cyclic.IsFirst 2 maxProcesses (fun pid => (s.processTable pid).used = false) s.nextPid c ∧ n = succPid c) := by
  obtain ⟨c, n, hrun, hn, hres⟩ := allocate_pid_loop_spec maxProcesses h
  refine ⟨c, n, hrun, hn, ?_⟩
  rcases hres with ⟨hc, hfull⟩ | ⟨hsucc, k, rfl, hfree, hbefore⟩
  · refine Or.inl ⟨hc, ?_⟩
    rintro ⟨d, hd2, hdlt, hd⟩
    have hround : ∀ k : Nat, (k : Int) < maxProcesses - 2 → (s.processTable (succPid^[k] s.nextPid)).used = true :=
      fun k hk => hfull k (by omega)
    have hused := Cyclic.forall_of_round (p := fun pid => (s.processTable pid).used = true) h hround ⟨hd2, hdlt⟩
    rw [hd] at hused
    cases hused
  · exact Or.inr ⟨Cyclic.isFirst_of_iterate h hfree fun j hj => by simp [← succPid_eq, hbefore j hj], hsucc⟩

/-- `allocate_pid_locked` for any table. -/
theorem pid_search (s : Processes) (h : 2 ≤ s.nextPid ∧ s.nextPid < maxProcesses) :
    ∃ c t, allocate_pid_locked.run s = some (c, t) ∧ t = { s with nextPid := t.nextPid } ∧
      2 ≤ t.nextPid ∧ t.nextPid < maxProcesses ∧
      (s.PidFree → Cyclic.IsFirst 2 maxProcesses (fun pid => (s.processTable pid).used = false) s.nextPid c ∧
        t.nextPid = succPid c) ∧
      (c = -1 ↔ ¬ s.PidFree) := by
  obtain ⟨c, n, hrun, hn, hres⟩ := allocate_pid_locked_spec h
  refine ⟨c, _, hrun, rfl, hn.1, hn.2, ?_⟩
  rcases hres with ⟨rfl, hfull⟩ | ⟨hfirst, hsucc⟩
  · exact ⟨fun hfree => absurd hfree hfull, by simp [hfull]⟩
  · have hfree : s.PidFree := ⟨c, hfirst.mem.1, hfirst.mem.2, hfirst.holds⟩
    have hc := hfirst.mem.1
    refine ⟨fun _ => ⟨hfirst, hsucc⟩, fun h1 => by omega, fun hfull => absurd hfree hfull⟩

/-- Only 2 is free, and the search begins at the last pid. -/
theorem pid_search_wraps :
    let s : Processes := ⟨fun pid => ⟨pid != 2, 0, false, 0⟩, 1023, true⟩
    (2 ≤ s.nextPid ∧ s.nextPid < maxProcesses) ∧ s.PidFree ∧
      ∃ t, allocate_pid_locked.run s = some (2, t) ∧ t.nextPid = 3 := by
  intro s
  have hfree : s.PidFree := ⟨2, by decide⟩
  obtain ⟨c, t, hrun, -, -, -, hfirst, -⟩ := pid_search s (by decide)
  obtain ⟨hc, hsucc⟩ := hfirst hfree
  obtain rfl : c = 2 := by simpa [s] using hc.holds
  exact ⟨by decide, hfree, t, hrun, hsucc⟩

theorem fork_spec {me : Int} (h : s.Ok) (hme : 0 < me) :
    ∃ c t, (fork me).run s = some (c, t) ∧ t.Ok ∧
      (c = -1 ∧ t.processTable = s.processTable ∨
        2 ≤ c ∧ c < maxProcesses ∧ (s.processTable c).used = false ∧ t.nextPid = succPid c ∧
        t.processTable = (s.set c ⟨true, me, false, 0⟩).processTable) ∧
      ((s.processTable s.nextPid).used = false → c = s.nextPid) := by
  obtain ⟨c, n, hrun, hn, hres⟩ := allocate_pid_locked_spec h.next
  rw [fork, Prog.bind_run (ensure_current_pid_run hme), if_neg (by omega),
    Prog.bind_run (init_process_table_locked_run h.initialized), Prog.bind_run hrun]
  rcases hres with ⟨rfl, hfull⟩ | ⟨hfirst, hsucc⟩
  · refine ⟨-1, _, rfl, ⟨h.initialized, hn⟩, Or.inl ⟨rfl, rfl⟩, fun hfree => ?_⟩
    exact absurd ⟨_, h.next.1, h.next.2, hfree⟩ hfull
  · obtain ⟨h2, hlt⟩ := hfirst.mem
    rw [if_neg (by omega), Prog.modify_bind_run]
    exact ⟨c, _, rfl, ⟨h.initialized, hn⟩, Or.inr ⟨h2, hlt, hfirst.holds, hsucc, rfl⟩, hfirst.eq_self h.next⟩

theorem exit_spec {me : Int} (h : s.Ok) (hme : 0 < me) (hlt : me < maxProcesses) (rdi : Nat)
    (hused : (s.processTable me).used = true) :
    (exit me rdi).run s = some ((), s.recordExit me rdi) := by
  rw [exit, Prog.bind_run (ensure_current_pid_run hme), if_pos hme,
    Prog.bind_run (init_process_table_locked_run h.initialized), Prog.get_bind_run, if_pos ⟨hme, hlt, hused⟩]
  rfl

theorem waitpid_args_spec {me : Int} (hme : 0 < me) {rdi rsi rdx : Nat} {mapped : Bool} {r : Option Int}
    (hrun : (waitpid_args me rdi rsi rdx mapped).run s = some (r, t)) :
    t = s ∧ ∀ c, r = some c → c = int32 rdi ∧ 0 < c ∧ c < maxProcesses := by
  rw [waitpid_args, Prog.bind_run (ensure_current_pid_run hme), if_neg (by omega)] at hrun
  dsimp only at hrun
  by_cases hpid : int32 rdi ≤ 0 ∨ int32 rdi ≥ maxProcesses
  · rw [if_pos hpid, Prog.run_pure] at hrun
    exact ⟨hrun.2, by simp [hrun.1]⟩
  · rw [if_neg hpid] at hrun
    split_ifs at hrun <;> rw [Prog.run_pure] at hrun <;> refine ⟨hrun.2, fun c hc => ?_⟩
    · simp [hrun.1] at hc
    · simp [hrun.1] at hc
    · obtain rfl : int32 rdi = c := by simpa [hrun.1] using hc
      exact ⟨rfl, by omega, by omega⟩

theorem waitpid_turn_spec (h : s.Ok) {me c : Int} {statusPtr : Nat} {w : Wait}
    (hrun : (waitpid_turn me c statusPtr).run s = some (w, t)) :
    (w = .denied ∨ w = .again) ∧ t = s ∨
      (s.processTable c).used = true ∧ (s.processTable c).parent = me ∧ (s.processTable c).exited = true ∧
        t = s.release c ∧
        w = .reaped c (if statusPtr ≠ 0 then some (((s.processTable c).status &&& 0xFF#32) <<< 8) else none) := by
  rw [waitpid_turn, Prog.bind_run (init_process_table_locked_run h.initialized), Prog.get_bind_run] at hrun
  by_cases hdeny : ¬ (s.processTable c).used = true ∨ (s.processTable c).parent ≠ me
  · rw [if_pos hdeny, Prog.run_pure] at hrun
    exact Or.inl ⟨Or.inl hrun.1, hrun.2⟩
  · rw [if_neg hdeny] at hrun
    by_cases hex : (s.processTable c).exited = true
    · rw [if_pos hex] at hrun
      dsimp only at hrun
      rw [Prog.modify_bind_run, Prog.run_pure] at hrun
      obtain ⟨hw, ht⟩ := hrun
      refine Or.inr ⟨?_, ?_, hex, ht, hw⟩
      · by_contra hne
        exact hdeny (Or.inl hne)
      · by_contra hne
        exact hdeny (Or.inr hne)
    · rw [if_neg hex, Prog.run_pure] at hrun
      exact Or.inl ⟨Or.inr hrun.1, hrun.2⟩

theorem init_process_table_locked_fresh (hi : s.processTableInitialized = false) :
    ∃ t, init_process_table_locked.run s = some ((), t) ∧ t.processTableInitialized = true ∧ t.nextPid = 2 ∧
      ∀ c : Int, 0 ≤ c → c < maxProcesses → (t.processTable c).used = false := by
  let body : Nat → P Unit := fun i => modify fun s => s.set i ⟨false, 0, false, 0⟩
  let Clear : Nat → Processes → Prop := fun n t => ∀ c : Int, 0 ≤ c → c < n → (t.processTable c).used = false
  have hturn : ∀ i, i < maxProcesses → ∀ t, Clear i t → ∃ u, (body i).run t = some ((), u) ∧ Clear (i + 1) u := by
    intro i _ t ht
    refine ⟨_, rfl, fun c h0 hc => ?_⟩
    by_cases hci : c = i
    · rw [hci, Processes.set_same]
    · rw [Processes.set_other _ hci]
      exact ht c h0 (by omega)
  have hstart : Clear 0 s := fun c h0 hc => by omega
  obtain ⟨u, hu, hfree⟩ := Prog.forRange_total Clear hturn hstart
  rw [init_process_table_locked, Prog.get_bind_run, if_neg (by simp [hi]), Prog.bind_run hu, Prog.modify_bind_run,
    Prog.modify_run]
  exact ⟨_, rfl, rfl, rfl, hfree⟩

theorem register_process_pid1_spec :
    ∃ t, register_process_pid1.run s = some (1, t) ∧ t.Ok ∧ t.nextPid = 2 ∧
      t.processTable 1 = ⟨true, 0, false, 0⟩ ∧
      ∀ c : Int, 0 ≤ c → c < maxProcesses → c ≠ 1 → (t.processTable c).used = false := by
  obtain ⟨t, hrun, hinit, hnext, hfree⟩ :=
    init_process_table_locked_fresh (s := { s with processTableInitialized := false }) rfl
  rw [register_process_pid1, Prog.modify_bind_run, Prog.bind_run hrun, Prog.modify_bind_run]
  refine ⟨t.set 1 ⟨true, 0, false, 0⟩, rfl, ⟨hinit, ?_⟩, hnext, Processes.set_same _ _, fun c h0 hlt hne => ?_⟩
  · rw [Processes.set_nextPid, hnext]
    decide
  · rw [Processes.set_other _ hne]
    exact hfree c h0 hlt

end

end Kernel
