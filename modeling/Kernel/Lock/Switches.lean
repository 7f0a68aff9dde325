import Kernel.Lock.Runs

/-!
# Spin locks and context switches

In any run of any number of cores and threads, a thread that holds a spin lock
runs on a core, as long as no thread comes to a switch in the two sections that
`Exposes` names.
-/

namespace Kernel.Lock

open Lib
open Kernel.Thread (Tid)

/-! ## Scheduled runs -/

namespace Locks

def value (s : Locks) (c : Nat) : Reg → Option SpinLock
  | .cond_lock => (s.prev c).bind fun t => (s.thread t).cond_lock
  | .middle => some (.middle 0)

/-- The step of core `c`. A test that the model leaves open gives `v`, and a new thread is thread `n`. -/
def next (s : Locks) (c n : Nat) (v : Bool) : Option Locks :=
  match s.code c with
  | [] => none
  | .skip :: k => some (s.setCode (s.current c) k)
  | .seq x y :: k => some (s.setCode (s.current c) (x :: y :: k))
  | .ite t x y :: k => some (s.setCode (s.current c) ((if (s.eval c t).getD v then x else y) :: k))
  | .loop t x :: k => some (s.setCode (s.current c) (if (s.eval c t).getD v then x :: .loop t x :: k else k))
  | .read r f :: k => (s.value c r).map fun l => s.setCode (s.current c) (f l :: k)
  | .op o :: k => (s.setCode (s.current c) k).exec Entry.start c n o

/-- The next step of core `c` is a test that the model leaves open. -/
def asks (s : Locks) (c : Nat) : Bool :=
  match s.code c with
  | .ite t _ _ :: _ | .loop t _ :: _ => (s.eval c t).isNone
  | _ => false

/-- Core `c` comes to a switch. -/
def switches (s : Locks) (c : Nat) : Bool :=
  match s.code c with
  | .op .switch :: _ => true
  | _ => false

/-- Core `c` comes to a wait, and has looked for another thread. -/
def waits (s : Locks) (c : Nat) : Bool :=
  match s.code c with
  | .ite (.next (some _)) _ _ :: _ | .loop (.next (some _)) _ :: _ => true
  | _ => false

/-- At most `fuel` steps of core `c`, up to `stop`, as long as `vs` has an outcome for the tests that are left open. -/
def drive (stop : Locks → Bool) (c n : Nat) : Nat → List Bool → Locks → Option Locks
  | 0, _, s => some s
  | fuel + 1, vs, s =>
    match stop s, s.asks c, vs with
    | true, _, _ => some s
    | false, false, vs => (s.next c n false).bind (drive stop c n fuel vs)
    | false, true, [] => some s
    | false, true, v :: vs => (s.next c n v).bind (drive stop c n fuel vs)

variable {stop : Locks → Bool} {s u : Locks} {c n fuel : Nat} {v : Bool} {vs : List Bool}

theorem holds_getD (s : Locks) (c : Nat) (t : Test) (v : Bool) : s.Holds c t ((s.eval c t).getD v) := by
  intro b hb
  rw [hb]
  rfl

theorem next_step (h : s.next c n v = some u) : ∃ e, LockStep Entry.start s (c, e) u := by
  have hunfold : ∀ {e k}, Cmd.Unfolds (s.Holds c) (s.Reads c) (s.code c) e k →
      LockStep Entry.start s (c, e) (s.setCode (s.current c) k) := fun hu => .unfold hu
  unfold next at h
  split at h
  · cases h
  · rename_i k hc
    cases h
    exact ⟨_, hunfold (by rw [hc]; exact .skip)⟩
  · rename_i x y k hc
    cases h
    exact ⟨_, hunfold (by rw [hc]; exact .seq)⟩
  · rename_i t x y k hc
    cases h
    exact ⟨_, hunfold (by rw [hc]; exact .ite (s.holds_getD c t v))⟩
  · rename_i t x k hc
    cases h
    exact ⟨_, hunfold (by rw [hc]; exact .loop (s.holds_getD c t v))⟩
  · rename_i r f k hc
    obtain ⟨l, hl, rfl⟩ := Option.map_eq_some_iff.mp h
    have hreads : s.Reads c r l := by
      cases r with
      | cond_lock => exact hl
      | middle => exact ⟨0, (Option.some.inj hl).symm⟩
    exact ⟨_, hunfold (by rw [hc]; exact .read hreads)⟩
  · rename_i o k hc
    exact ⟨_, .op hc h⟩

theorem drive_guarded {G : Locks → Nat × Event Op Test → Prop}
    (hG : ∀ s e u, stop s = false → LockStep Entry.start s (c, e) u → G s (c, e)) (hs : lockSystem.GuardedReachable G s)
    (h : drive stop c n fuel vs s = some u) : lockSystem.GuardedReachable G u := by
  induction fuel generalizing s vs with
  | zero =>
    cases h
    exact hs
  | succ fuel ih =>
    unfold drive at h
    split at h
    · cases h
      exact hs
    · rename_i hstop _
      obtain ⟨w, hw, h⟩ := Option.bind_eq_some_iff.mp h
      obtain ⟨e, hstep⟩ := next_step hw
      exact ih (hs.step (hG s e w hstop hstep) hstep) h
    · cases h
      exact hs
    · rename_i hstop _
      obtain ⟨w, hw, h⟩ := Option.bind_eq_some_iff.mp h
      obtain ⟨e, hstep⟩ := next_step hw
      exact ih (hs.step (hG s e w hstop hstep) hstep) h

theorem drive_reachable (hs : lockSystem.Reachable s) (h : drive stop c n fuel vs s = some u) :
    lockSystem.Reachable u := by
  obtain ⟨s₀, l, h₀, hrun⟩ := hs
  have hall : lockSystem.GuardedReachable (fun _ _ => True) s := ⟨s₀, l, h₀, hrun.guarded (by simp) (by simp)⟩
  exact (drive_guarded (fun _ _ _ _ _ => trivial) hall h).reachable

/-- A step that is not the one after a wait has looked for another thread is not exposed. -/
theorem unexposed_of_waits {e : Event Op Test} (hw : s.waits c = false) (h : LockStep Entry.start s (c, e) u) :
    Unexposed s (c, e) := by
  cases h with
  | op => trivial
  | unfold hu =>
    unfold waits at hw
    generalize s.code c = k at hu hw
    cases hu with
    | skip | seq | read => trivial
    | @ite t _ _ v _ | @loop t _ v _ =>
      cases t with
      | next l =>
        cases l with
        | none => trivial
        | some l => cases hw
      | _ => trivial

end Locks

/-! ## Switches -/

section

variable {s : Locks}

/-- A thread that is switched out holds no spin lock, and one that holds a spin lock runs. -/
theorem switched_without_locks (h : lockSystem.GuardedReachable Unexposed s) :
    (∀ c u, LockStep Entry.start s (c, .op .switch) u → ∀ l, s.holder l ≠ some (s.current c)) ∧
    ∀ l t, s.holder l = some t → ∃ c, s.current c = t := by
  obtain ⟨i, hok⟩ := locksOk_reachable h
  refine ⟨fun c u hs l hl => ?_, fun l t hl => ?_⟩
  · cases hs with
    | unfold hu => exact hu.not_op
    | @op _ _ n _ k hc he =>
      have hflows := hok.flows (s.current c)
      rw [show (s.thread (s.current c)).code = .op .switch :: k from hc] at hflows
      obtain ⟨m, hdoes, -⟩ := hflows
      have hmem := (hok.holder l _).mp hl
      generalize i (s.current c) = j at hdoes hmem
      cases (hdoes : Held.Does j .switch m) with
      | switch => cases hmem
      | plain ho => cases ho
  · by_contra hout
    have hmem := (hok.holder l t).mp hl
    rw [hok.running t fun c hc => hout ⟨c, hc⟩] at hmem
    cases hmem

/-- The `ASSERT` in the `unlock` of a `BlockingLock` does not fail. -/
theorem unlock_asserts (h : lockSystem.GuardedReachable Unexposed s) (c : Nat) (k : List Code) :
    s.code c ≠ .op .assert :: k := by
  intro hc
  obtain ⟨i, hok⟩ := locksOk_reachable h
  have hflows := hok.flows (s.current c)
  rw [show (s.thread (s.current c)).code = .op .assert :: k from hc] at hflows
  obtain ⟨m, hdoes, -⟩ := hflows
  generalize i (s.current c) = j at hdoes
  cases (hdoes : Held.Does j .assert m) with
  | plain ho => cases ho

end

/-- The machine when the cores come to the barrier. -/
def bootLocks : Locks where
  current c := .idle c
  thread t :=
    { code := match t with
        | .idle c => core_main c
        | .thread _ => []
      next := none, prev := none, tcb := none, woken := [], action := .none, cond_lock := none, cond_epoch := 0 }
  holder _ := none
  locked _ := false
  queue _ := []
  waiting _ := []
  epoch _ := 0

theorem bootLocks_booted : Booted core_main bootLocks :=
  ⟨fun _ => rfl, fun _ => rfl, fun _ => rfl, fun _ => rfl, fun _ => rfl, fun _ => rfl, fun _ => rfl⟩

theorem bootLocks_reachable : lockSystem.Reachable bootLocks := ⟨_, [], bootLocks_booted, .nil _⟩

/-- The outcomes from the start of a core to the barrier. -/
def initOutcomes : List Bool :=
  [true, true] ++ List.replicate 12 false ++
    [false, true, false, true, false, true, true, true, true, true, false, false, false, false]

/-- The outcomes on the way through `Thread::create`. -/
def createOutcomes : List Bool := [true, false, false, true, false, true, true, false, false]

/-- Core 0 has created thread 0, and its idle thread is about to switch to it. -/
def firstSwitch : Option Locks :=
  Locks.drive (fun s => s.switches 0 || s.waits 0) 0 0 2000
    (initOutcomes ++ [false, false] ++ createOutcomes ++ [true, true, true]) bootLocks

theorem firstSwitch_reachable {s : Locks} (h : firstSwitch = some s) : lockSystem.GuardedReachable Unexposed s :=
  Locks.drive_guarded (fun _ _ _ hstop => Locks.unexposed_of_waits (by simpa using (Bool.or_eq_false_iff.mp hstop).2))
    ⟨_, _, bootLocks_booted, .nil _⟩ h

/-- Core 0 comes to a switch to thread 0. -/
def Locks.switchesTo (s : Locks) (t : Tid) : Bool :=
  match s.code 0 with
  | .op .switch :: k =>
    ((s.setCode (s.current 0) k).exec Entry.start 0 0 .switch).any fun u => decide (u.current 0 = t)
  | _ => false

theorem firstSwitch_switches : firstSwitch.map (Locks.switchesTo · (.thread 0)) = some true := by decide +kernel

theorem firstSwitch_unlocked : ∃ s u, LockStep Entry.start s (0, .op .switch) u ∧ u.current 0 = .thread 0 ∧
    (∀ l, s.holder l ≠ some (s.current 0)) ∧ ∀ l t, s.holder l = some t → ∃ c, s.current c = t := by
  obtain ⟨s, hs, hswitch⟩ := Option.map_eq_some_iff.mp firstSwitch_switches
  have hreach := firstSwitch_reachable hs
  unfold Locks.switchesTo at hswitch
  split at hswitch
  · rename_i k hcode
    obtain ⟨u, hu, hthread⟩ := (Option.any_eq_true _ _).mp hswitch
    have hstep : LockStep Entry.start s (0, .op .switch) u := .op hcode hu
    exact ⟨s, u, hstep, by simpa using hthread, (switched_without_locks hreach).1 0 u hstep,
      (switched_without_locks hreach).2⟩
  · cases hswitch

/-! ## A thread that is switched out with a lock -/

/-- The outcomes from `event_loop` to the first call of a new thread. -/
def entryOutcomes : List Bool := [true, true, true, true, true, true, true, true, false, true]

/--
`kernel_main` runs as thread 0 on core 1 and creates the threads 1 and 2. Thread 1 runs on core 0 and is in `malloc`,
with `theLock` taken. Thread 0 calls `mmap` for a shared mapping.
-/
def contendedLocks : Option Locks := do
  let s ← Locks.drive (fun _ => false) 0 0 2000 (initOutcomes ++ [false, false] ++ createOutcomes) bootLocks
  let s ← Locks.drive (fun _ => false) 1 1 2000 (initOutcomes ++ [false, false] ++ entryOutcomes ++
    [false, false, false, true] ++ createOutcomes ++ [true]) s
  let s ← Locks.drive (fun _ => false) 1 2 2000 ([false, false, false, true] ++ createOutcomes ++ [true]) s
  let s ← Locks.drive (fun _ => false) 0 3 2000
    (entryOutcomes ++ [false, false, false, false, false, false, true, true]) s
  Locks.drive (Locks.switches · 1) 1 3 2000 [true, false, true, true, false, true] s

theorem contendedLocks_reachable {s : Locks} (h : contendedLocks = some s) : lockSystem.Reachable s := by
  simp only [contendedLocks, Option.bind_eq_bind, Option.bind_eq_some_iff] at h
  obtain ⟨s₁, h₁, s₂, h₂, s₃, h₃, s₄, h₄, h⟩ := h
  have hreachable₁ := Locks.drive_reachable bootLocks_reachable h₁
  have hreachable₂ := Locks.drive_reachable hreachable₁ h₂
  have hreachable₃ := Locks.drive_reachable hreachable₂ h₃
  have hreachable₄ := Locks.drive_reachable hreachable₃ h₄
  exact Locks.drive_reachable hreachable₄ h

/-- Thread 0 has `sharedLock` and is about to be switched out. -/
def Locks.switchesShared (s : Locks) : Bool :=
  match s.code 1 with
  | .op .switch :: k =>
    decide (s.holder .sharedLock = some (s.current 1)) &&
      ((s.setCode (s.current 1) k).exec Entry.start 1 0 .switch).isSome
  | _ => false

theorem contendedLocks_switches : contendedLocks.map Locks.switchesShared = some true := by decide +kernel

theorem mmap_switches : ¬ ∀ s, lockSystem.Reachable s →
    (∀ c u, LockStep Entry.start s (c, .op .switch) u → ∀ l, s.holder l ≠ some (s.current c)) ∧
    ∀ l t, s.holder l = some t → ∃ c, s.current c = t := by
  intro hall
  obtain ⟨s, hs, hswitch⟩ := Option.map_eq_some_iff.mp contendedLocks_switches
  unfold Locks.switchesShared at hswitch
  split at hswitch
  · rename_i k hcode
    simp only [Bool.and_eq_true, decide_eq_true_eq] at hswitch
    obtain ⟨u, hu⟩ := Option.isSome_iff_exists.mp hswitch.2
    exact (hall s (contendedLocks_reachable hs)).1 1 u (.op hcode hu) .sharedLock hswitch.1
  · cases hswitch

end Kernel.Lock
