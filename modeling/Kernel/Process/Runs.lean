import Kernel.Process.Proofs
import Kernel.Lib.Transition

/-!
# Processes in every run

Any order of `fork`, `exit` and `waitpid` by any number of processes, from
`register_process_pid1` on. A pid is used again, a process instance is not.
-/

namespace Kernel

open Lib

/-! ## Runs -/

/-- Where a process instance is. -/
inductive Phase where
  | unborn
  /-- It has a pid, and `fork` in the parent has not put it on `readyQueue`. -/
  | building
  | user
  /-- In `fork`, after `unlock`. -/
  | forking (child : Nat)
  /-- In the loop of `waitpid`. -/
  | waiting (childPid : Int) (statusPtr : Nat)
  | exited (rdi : Nat)
  | reaped
deriving DecidableEq

def Phase.running : Phase → Bool
  | building | user | forking _ | waiting _ _ => true
  | _ => false

/-- Running, or exited and not reaped. -/
def Phase.held : Phase → Bool
  | exited _ => true
  | p => p.running

structure ProcessState where
  table : Processes
  /-- Ghost: how many instances there were. -/
  count : Nat
  /-- `TCB::pid`. -/
  pid : Nat → Int
  phase : Nat → Phase
  /-- Ghost: whose `fork` made an instance, and for which instance a slot was last claimed. -/
  parent : Nat → Option Nat
  holder : Int → Nat

inductive ProcessOp where
  | fork_fails (i : Nat)
  | fork (i : Nat) (childPid : Int)
  | launch (i : Nat)
  | exit (i rdi : Nat)
  | waitpid (i rdi rsi rdx : Nat) (mapped : Bool)
  /-- A turn of the loop of `waitpid`, and the instance in the slot that it is about. -/
  | turn (i j : Nat) (w : Wait)
deriving DecidableEq

/-- A successful `waitpid` for instance `j`. -/
def ProcessOp.reaps (j : Nat) : ProcessOp → Bool
  | turn _ k (.reaped _ _) => k = j
  | _ => false

def setPhase (s : ProcessState) (i : Nat) (p : Phase) : ProcessState :=
  { s with phase := Function.update s.phase i p }

inductive ProcessStep : ProcessState → ProcessOp → ProcessState → Prop where
  /-- There is no snapshot. -/
  | fork_fails {s : ProcessState} {i : Nat} : s.phase i = .user → ProcessStep s (.fork_fails i) s
  | fork_none {s : ProcessState} {i : Nat} {c : Int} {t : Processes} :
      s.phase i = .user → (fork (s.pid i)).run s.table = some (c, t) → c < 0 →
      ProcessStep s (.fork i c) { s with table := t }
  | fork {s : ProcessState} {i : Nat} {c : Int} {t : Processes} :
      s.phase i = .user → (fork (s.pid i)).run s.table = some (c, t) → 0 ≤ c →
      ProcessStep s (.fork i c)
        { table := t
          count := s.count + 1
          pid := Function.update s.pid s.count c
          phase := Function.update (Function.update s.phase i (.forking s.count)) s.count .building
          parent := Function.update s.parent s.count (some i)
          holder := Function.update s.holder c s.count }
  /-- `readyQueue.add`, and the parent returns. -/
  | launch {s : ProcessState} {i j : Nat} : s.phase i = .forking j →
      ProcessStep s (.launch i) (setPhase (setPhase s i .user) j .user)
  | exit {s : ProcessState} {i rdi : Nat} {t : Processes} :
      s.phase i = .user → (exit (s.pid i) rdi).run s.table = some ((), t) →
      ProcessStep s (.exit i rdi) (setPhase { s with table := t } i (.exited rdi))
  | waitpid_none {s : ProcessState} {i rdi rsi rdx : Nat} {mapped : Bool} {t : Processes} :
      s.phase i = .user → (waitpid_args (s.pid i) rdi rsi rdx mapped).run s.table = some (none, t) →
      ProcessStep s (.waitpid i rdi rsi rdx mapped) { s with table := t }
  | waitpid {s : ProcessState} {i rdi rsi rdx : Nat} {mapped : Bool} {c : Int} {t : Processes} :
      s.phase i = .user → (waitpid_args (s.pid i) rdi rsi rdx mapped).run s.table = some (some c, t) →
      ProcessStep s (.waitpid i rdi rsi rdx mapped) (setPhase { s with table := t } i (.waiting c rsi))
  | again {s : ProcessState} {i statusPtr : Nat} {c : Int} {t : Processes} :
      s.phase i = .waiting c statusPtr → (waitpid_turn (s.pid i) c statusPtr).run s.table = some (.again, t) →
      ProcessStep s (.turn i (s.holder c) .again) { s with table := t }
  | denied {s : ProcessState} {i statusPtr : Nat} {c : Int} {t : Processes} :
      s.phase i = .waiting c statusPtr → (waitpid_turn (s.pid i) c statusPtr).run s.table = some (.denied, t) →
      ProcessStep s (.turn i (s.holder c) .denied) (setPhase { s with table := t } i .user)
  | reaped {s : ProcessState} {i statusPtr : Nat} {c d : Int} {store : Option (BitVec 32)} {t : Processes} :
      s.phase i = .waiting c statusPtr → (waitpid_turn (s.pid i) c statusPtr).run s.table = some (.reaped d store, t) →
      ProcessStep s (.turn i (s.holder c) (.reaped d store))
        (setPhase (setPhase { s with table := t } (s.holder c) .reaped) i .user)

/-- `register_process_pid1` ran in the first process. -/
def ProcessBoot (s : ProcessState) : Prop :=
  ∃ t, register_process_pid1.run t = some (s.pid 0, s.table) ∧ s.count = 1 ∧ s.phase 0 = .user ∧
    (∀ i, 0 < i → s.phase i = .unborn) ∧ s.holder (s.pid 0) = 0 ∧ s.parent 0 = none

def processSystem : System ProcessState ProcessOp where
  init := ProcessBoot
  step := ProcessStep

/-! ## The invariant -/

/-- The slot of an instance says what became of it. -/
structure Slot (s : ProcessState) (i : Nat) : Prop where
  range : 0 < s.pid i ∧ s.pid i < maxProcesses
  used : (s.table.processTable (s.pid i)).used = true
  holder : s.holder (s.pid i) = i
  running : (s.phase i).running = true → (s.table.processTable (s.pid i)).exited = false
  exited : ∀ rdi, s.phase i = .exited rdi →
    (s.table.processTable (s.pid i)).exited = true ∧ (s.table.processTable (s.pid i)).status = BitVec.ofNat 32 rdi

structure ProcessInv (s : ProcessState) : Prop where
  ok : s.table.Ok
  born : ∀ i, s.phase i ≠ .unborn → i < s.count
  slot : ∀ i, (s.phase i).held = true → Slot s i
  /-- A slot in use belongs to an instance. -/
  used : ∀ c : Int, 0 < c → c < maxProcesses → (s.table.processTable c).used = true →
    (s.phase (s.holder c)).held = true ∧ s.pid (s.holder c) = c
  forking : ∀ i j, s.phase i = .forking j → s.phase j = .building ∧ s.parent j = some i
  waiting : ∀ i c p, s.phase i = .waiting c p → 0 < c ∧ c < maxProcesses

section

variable {s t : ProcessState} {i j : Nat}

theorem ProcessInv.pid_inj (hi : ProcessInv s) (h : (s.phase i).held = true) (h' : (s.phase j).held = true)
    (hp : s.pid i = s.pid j) : i = j := by
  rw [← (hi.slot i h).holder, ← (hi.slot j h').holder, hp]

@[simp] theorem setPhase_self (s : ProcessState) (i : Nat) (p : Phase) : (setPhase s i p).phase i = p :=
  Function.update_self ..

theorem setPhase_other (s : ProcessState) {i k : Nat} (p : Phase) (h : k ≠ i) :
    (setPhase s i p).phase k = s.phase k := Function.update_of_ne h ..

theorem Phase.held_of_running {p : Phase} (h : p.running = true) : p.held = true := by
  cases p <;> first | rfl | cases h

/-! ### What a step does -/

/-- The entries, and who holds them, stay. -/
structure Same (s t : ProcessState) : Prop where
  ok : t.table.Ok
  entries : t.table.processTable = s.table.processTable
  count : t.count = s.count
  pid : t.pid = s.pid
  parent : t.parent = s.parent
  holder : t.holder = s.holder

/-- `fork` claims pid `c` for a new instance. -/
structure Forks (s t : ProcessState) (i : Nat) (c : Int) : Prop where
  ok : t.table.Ok
  next : t.table.nextPid = succPid c
  range : 2 ≤ c ∧ c < maxProcesses
  free : (s.table.processTable c).used = false
  entries : t.table.processTable = (s.table.set c ⟨true, s.pid i, false, 0⟩).processTable
  count : t.count = s.count + 1
  pid : t.pid = Function.update s.pid s.count c
  phase : t.phase = Function.update (Function.update s.phase i (.forking s.count)) s.count .building
  parent : t.parent = Function.update s.parent s.count (some i)
  holder : t.holder = Function.update s.holder c s.count

/-- `waitpid` gives slot `c` of an exited instance back. -/
structure Reaps (s t : ProcessState) (i : Nat) (c : Int) : Prop where
  used : (s.table.processTable c).used = true
  parent : (s.table.processTable c).parent = s.pid i
  exited : (s.table.processTable c).exited = true
  state : t = setPhase (setPhase { s with table := s.table.release c } (s.holder c) .reaped) i .user

theorem Same.refl (hi : ProcessInv s) : Same s s := ⟨hi.ok, rfl, rfl, rfl, rfl, rfl⟩

theorem ProcessInv.step_cases (hi : ProcessInv s) {a : ProcessOp} (h : ProcessStep s a t) :
    (Same s t ∧ (∀ j, a.reaps j = false) ∧ ∃ (i : Nat) (p : Phase),
      (p = .user ∨ ∃ (c : Int) (q : Nat), p = .waiting c q ∧ 0 < c ∧ c < maxProcesses) ∧
      (s.phase i = .user ∨ ∃ c q, s.phase i = .waiting c q) ∧ t.phase = Function.update s.phase i p) ∨
    (∃ i c, a = .fork i c ∧ s.phase i = .user ∧ Forks s t i c) ∨
    (∃ i j, a = .launch i ∧ s.phase i = .forking j ∧ t = setPhase (setPhase s i .user) j .user) ∨
    (∃ i rdi, a = .exit i rdi ∧ s.phase i = .user ∧
      t = setPhase { s with table := s.table.recordExit (s.pid i) rdi } i (.exited rdi)) ∨
    ∃ i c p, a = .turn i (s.holder c) (.reaped c (if p ≠ 0 then
        some (((s.table.processTable c).status &&& 0xFF#32) <<< 8) else none)) ∧
      s.phase i = .waiting c p ∧ Reaps s t i c := by
  have hpid : ∀ {i}, s.phase i = .user ∨ (∃ c q, s.phase i = .waiting c q) → Slot s i := by
    rintro i (h | ⟨c, q, h⟩) <;> exact hi.slot i (by rw [h]; rfl)
  cases h with
  | @fork_fails i hu =>
    exact Or.inl ⟨Same.refl hi, fun _ => rfl, i, .user, Or.inl rfl, Or.inl hu, by rw [← hu, Function.update_eq_self]⟩
  | @fork_none i c u hu hrun hneg =>
    obtain ⟨d, v, hrun', hok, hres, -⟩ := fork_spec hi.ok (hpid (Or.inl hu)).range.1
    rw [hrun', Option.some.injEq, Prod.mk.injEq] at hrun
    obtain ⟨rfl, rfl⟩ := hrun
    rcases hres with ⟨-, htable⟩ | ⟨h2, -⟩
    · refine Or.inl ⟨⟨hok, htable, rfl, rfl, rfl, rfl⟩, fun _ => rfl, i, .user, Or.inl rfl, Or.inl hu, ?_⟩
      rw [← hu, Function.update_eq_self]
    · omega
  | @fork i c u hu hrun hpos =>
    obtain ⟨d, v, hrun', hok, hres, -⟩ := fork_spec hi.ok (hpid (Or.inl hu)).range.1
    rw [hrun', Option.some.injEq, Prod.mk.injEq] at hrun
    obtain ⟨rfl, rfl⟩ := hrun
    rcases hres with ⟨rfl, -⟩ | ⟨h2, hlt, hfree, hnext, htable⟩
    · omega
    · exact Or.inr (Or.inl ⟨i, d, rfl, hu, ⟨hok, hnext, ⟨h2, hlt⟩, hfree, htable, rfl, rfl, rfl, rfl, rfl⟩⟩)
  | @launch i j hf => exact Or.inr (Or.inr (Or.inl ⟨i, j, rfl, hf, rfl⟩))
  | @exit i rdi u hu hrun =>
    have hs := hpid (Or.inl hu)
    rw [exit_spec hi.ok hs.range.1 hs.range.2 rdi hs.used, Option.some.injEq, Prod.mk.injEq] at hrun
    obtain ⟨-, rfl⟩ := hrun
    exact Or.inr (Or.inr (Or.inr (Or.inl ⟨i, rdi, rfl, hu, rfl⟩)))
  | @waitpid_none i rdi rsi rdx mapped u hu hrun =>
    obtain ⟨rfl, -⟩ := waitpid_args_spec (hpid (Or.inl hu)).range.1 hrun
    exact Or.inl ⟨Same.refl hi, fun _ => rfl, i, .user, Or.inl rfl, Or.inl hu, by rw [← hu, Function.update_eq_self]⟩
  | @waitpid i rdi rsi rdx mapped c u hu hrun =>
    obtain ⟨rfl, hc⟩ := waitpid_args_spec (hpid (Or.inl hu)).range.1 hrun
    obtain ⟨-, hpos, hlt⟩ := hc c rfl
    exact Or.inl ⟨⟨hi.ok, rfl, rfl, rfl, rfl, rfl⟩, fun _ => rfl, i, .waiting c rsi,
      Or.inr ⟨c, rsi, rfl, hpos, hlt⟩, Or.inl hu, rfl⟩
  | @again i p c u hw hrun =>
    rcases waitpid_turn_spec hi.ok hrun with ⟨-, rfl⟩ | ⟨-, -, -, -, hbad⟩
    · refine Or.inl ⟨Same.refl hi, fun _ => rfl, i, .waiting c p, Or.inr ⟨c, p, rfl, hi.waiting i c p hw⟩,
        Or.inr ⟨c, p, hw⟩, ?_⟩
      rw [← hw, Function.update_eq_self]
    · cases hbad
  | @denied i p c u hw hrun =>
    rcases waitpid_turn_spec hi.ok hrun with ⟨-, rfl⟩ | ⟨-, -, -, -, hbad⟩
    · exact Or.inl ⟨⟨hi.ok, rfl, rfl, rfl, rfl, rfl⟩, fun _ => rfl, i, .user, Or.inl rfl, Or.inr ⟨c, p, hw⟩, rfl⟩
    · cases hbad
  | @reaped i p c d store u hw hrun =>
    rcases waitpid_turn_spec hi.ok hrun with ⟨hbad | hbad, -⟩ | ⟨hused, hparent, hexited, rfl, hres⟩
    · cases hbad
    · cases hbad
    · obtain ⟨rfl, rfl⟩ := Wait.reaped.inj hres
      exact Or.inr (Or.inr (Or.inr (Or.inr ⟨i, _, p, rfl, hw, hused, hparent, hexited, rfl⟩)))

/-! ### One step -/

theorem Slot.congr (hs : Slot s i) (hpid : t.pid i = s.pid i)
    (hentry : t.table.processTable (s.pid i) = s.table.processTable (s.pid i))
    (hholder : t.holder (s.pid i) = s.holder (s.pid i))
    (hrun : (t.phase i).running = true → (s.phase i).running = true)
    (hexit : ∀ rdi, t.phase i = .exited rdi → s.phase i = .exited rdi) : Slot t i := by
  refine ⟨?_, ?_, ?_, fun h => ?_, fun rdi h => ?_⟩ <;> rw [hpid]
  · exact hs.range
  · rw [hentry]
    exact hs.used
  · rw [hholder]
    exact hs.holder
  · rw [hentry]
    exact hs.running (hrun h)
  · rw [hentry]
    exact hs.exited rdi (hexit rdi h)

theorem ProcessInv.move (hi : ProcessInv s) (hs : Same s t) {p : Phase} (hphase : t.phase = Function.update s.phase i p)
    (hold : (s.phase i).running = true) (hnew : p.running = true) (hmade : ∀ k, s.phase k ≠ .forking i)
    (hfork : ∀ l, p = .forking l → l ≠ i ∧ s.phase l = .building ∧ s.parent l = some i)
    (hwait : ∀ c q, p = .waiting c q → 0 < c ∧ c < maxProcesses) : ProcessInv t := by
  have hself : t.phase i = p := by rw [hphase, Function.update_self]
  have hother : ∀ {k}, k ≠ i → t.phase k = s.phase k := fun hk => by rw [hphase, Function.update_of_ne hk]
  have hheld : ∀ k, (t.phase k).held = (s.phase k).held := by
    intro k
    by_cases hk : k = i
    · rw [hk, hself, Phase.held_of_running hold, Phase.held_of_running hnew]
    · rw [hother hk]
  refine ⟨hs.ok, fun k hk => ?_, fun k hk => ?_, fun c h0 hlt hu => ?_, fun k l hf => ?_, fun k c q hw => ?_⟩
  · rw [hs.count]
    by_cases hki : k = i
    · exact hki ▸ hi.born i fun h => by rw [h] at hold; cases hold
    · exact hi.born k (hother hki ▸ hk)
  · rw [hheld] at hk
    refine (hi.slot k hk).congr (by rw [hs.pid]) (by rw [hs.entries]) (by rw [hs.holder]) ?_ ?_
    · by_cases hki : k = i
      · exact fun _ => hki ▸ hold
      · rw [hother hki]
        exact id
    · intro rdi hrdi
      by_cases hki : k = i
      · rw [hki, hself] at hrdi
        rw [hrdi] at hnew
        cases hnew
      · rwa [hother hki] at hrdi
  · rw [hs.holder, hheld, hs.pid]
    exact hi.used c h0 hlt (hs.entries ▸ hu)
  · rw [hs.parent]
    by_cases hki : k = i
    · rw [hki, hself] at hf
      obtain ⟨hli, hb, hparent⟩ := hfork l hf
      exact ⟨(hother hli).trans hb, hki ▸ hparent⟩
    · rw [hother hki] at hf
      obtain ⟨hb, hparent⟩ := hi.forking k l hf
      have hli : l ≠ i := fun e => hmade k (e ▸ hf)
      exact ⟨(hother hli).trans hb, hparent⟩
  · by_cases hki : k = i
    · exact hwait c q (by rw [← hself, ← hki, hw])
    · exact hi.waiting k c q (hother hki ▸ hw)

/-- A step changes slot `c`, and instance `j` that is or was in it. -/
structure SlotStep (s t : ProcessState) (j : Nat) (c : Int) : Prop where
  ok : t.table.Ok
  count : s.count ≤ t.count ∧ j < t.count
  entries : ∀ d, d ≠ c → t.table.processTable d = s.table.processTable d
  holder : ∀ d, d ≠ c → t.holder d = s.holder d
  phase : ∀ k, k ≠ j → t.phase k = s.phase k
  pid : ∀ k, k ≠ j → t.pid k = s.pid k
  parent : ∀ k, k ≠ j → t.parent k = s.parent k

theorem ProcessInv.slotStep (hi : ProcessInv s) {c : Int} (h : SlotStep s t j c)
    (hown : ∀ k, (s.phase k).held = true → (s.pid k = c ↔ k = j)) (hslot : (t.phase j).held = true → Slot t j)
    (hused : (t.table.processTable c).used = true → (t.phase j).held = true ∧ t.holder c = j ∧ t.pid j = c)
    (hbuild : s.phase j ≠ .building) (hfork : ∀ l, t.phase j ≠ .forking l)
    (hwait : ∀ d q, t.phase j ≠ .waiting d q) : ProcessInv t := by
  refine ⟨h.ok, fun k hk => ?_, fun k hk => ?_, fun d h0 hlt hu => ?_, fun k l hf => ?_, fun k d q hw => ?_⟩
  · by_cases hkj : k = j
    · exact hkj ▸ h.count.2
    · exact Nat.lt_of_lt_of_le (hi.born k (h.phase k hkj ▸ hk)) h.count.1
  · by_cases hkj : k = j
    · rw [hkj] at hk ⊢
      exact hslot hk
    · rw [h.phase k hkj] at hk
      have hne : s.pid k ≠ c := fun e => hkj ((hown k hk).mp e)
      exact (hi.slot k hk).congr (h.pid k hkj) (h.entries _ hne) (h.holder _ hne) (by rw [h.phase k hkj]; exact id)
        (by rw [h.phase k hkj]; exact fun _ => id)
  · by_cases hdc : d = c
    · rw [hdc] at hu ⊢
      obtain ⟨hheld, hholder, hpid⟩ := hused hu
      rw [hholder]
      exact ⟨hheld, hpid⟩
    · rw [h.entries d hdc] at hu
      obtain ⟨hheld, hpid⟩ := hi.used d h0 hlt hu
      have hne : s.holder d ≠ j := fun e => hdc (hpid.symm.trans ((hown _ hheld).mpr e))
      rw [h.holder d hdc, h.phase _ hne, h.pid _ hne]
      exact ⟨hheld, hpid⟩
  · by_cases hkj : k = j
    · exact absurd (hkj ▸ hf) (hfork l)
    · rw [h.phase k hkj] at hf
      obtain ⟨hb, hparent⟩ := hi.forking k l hf
      have hlj : l ≠ j := fun e => hbuild (e ▸ hb)
      exact ⟨(h.phase l hlj).trans hb, (h.parent l hlj).trans hparent⟩
  · by_cases hkj : k = j
    · exact absurd (hkj ▸ hw) (hwait d q)
    · exact hi.waiting k d q (h.phase k hkj ▸ hw)

theorem ProcessInv.not_made (hi : ProcessInv s) (h : s.phase i ≠ .building) (k : Nat) : s.phase k ≠ .forking i :=
  fun hk => h (hi.forking k i hk).1

theorem ProcessInv.same (hi : ProcessInv s) (hs : Same s t) {p : Phase}
    (hp : p = .user ∨ ∃ (c : Int) (q : Nat), p = .waiting c q ∧ 0 < c ∧ c < maxProcesses)
    (hold : s.phase i = .user ∨ ∃ c q, s.phase i = .waiting c q) (hphase : t.phase = Function.update s.phase i p) :
    ProcessInv t := by
  have hmade : ∀ k, s.phase k ≠ .forking i := hi.not_made (by rcases hold with h | ⟨c, q, h⟩ <;> simp [h])
  have hrun : (s.phase i).running = true := by rcases hold with h | ⟨c, q, h⟩ <;> rw [h] <;> rfl
  rcases hp with rfl | ⟨c, q, rfl, hc⟩
  · exact hi.move hs hphase hrun rfl hmade (by simp) (by simp)
  · refine hi.move hs hphase hrun rfl hmade (by simp) fun d r hd => ?_
    obtain ⟨rfl, -⟩ := Phase.waiting.inj hd
    exact hc

theorem ProcessInv.forks (hi : ProcessInv s) {c : Int} (hu : s.phase i = .user) (hf : Forks s t i c) :
    ProcessInv t := by
  have hborn := hi.born i (by simp [hu])
  have hnew : s.phase s.count = .unborn := by
    by_contra h
    exact absurd (hi.born _ h) (by omega)
  let u : ProcessState := { t with phase := Function.update s.phase s.count .building }
  have hbuilt : u.phase s.count = .building := Function.update_self ..
  have hstep : SlotStep s u s.count c := by
    refine ⟨hf.ok, ?_, fun d hd => ?_, fun d hd => ?_, fun k hk => Function.update_of_ne hk .., fun k hk => ?_,
      fun k hk => ?_⟩
    · show s.count ≤ t.count ∧ s.count < t.count
      rw [hf.count]
      omega
    · exact (congrFun hf.entries d).trans (Processes.set_other _ hd)
    · exact (congrFun hf.holder d).trans (Function.update_of_ne hd ..)
    · exact (congrFun hf.pid k).trans (Function.update_of_ne hk ..)
    · exact (congrFun hf.parent k).trans (Function.update_of_ne hk ..)
  have hpid : u.pid s.count = c := (congrFun hf.pid s.count).trans (Function.update_self ..)
  have hholder : u.holder c = s.count := (congrFun hf.holder c).trans (Function.update_self ..)
  have hentry : u.table.processTable c = ⟨true, s.pid i, false, 0⟩ :=
    (congrFun hf.entries c).trans (Processes.set_same ..)
  have hclaimed : ProcessInv u := by
    refine hi.slotStep hstep (fun k hk => ?_) (fun _ => ?_) (fun _ => ⟨by rw [hbuilt]; rfl, hholder, hpid⟩)
      (by simp [hnew]) (by simp [hbuilt]) (by simp [hbuilt])
    · refine iff_of_false (fun e => ?_) fun e => ?_
      · have hused := (hi.slot k hk).used
        rw [e, hf.free] at hused
        cases hused
      · rw [e, hnew] at hk
        cases hk
    · refine ⟨?_, ?_, ?_, fun _ => ?_, fun rdi h => ?_⟩
      · rw [hpid]
        exact ⟨by have := hf.range.1; omega, hf.range.2⟩
      · rw [hpid, hentry]
      · rw [hpid, hholder]
      · rw [hpid, hentry]
      · rw [hbuilt] at h
        cases h
  have hui : u.phase i = .user := (Function.update_of_ne (by omega) ..).trans hu
  have hphase : t.phase = Function.update u.phase i (.forking s.count) := by
    rw [hf.phase, Function.update_comm (by omega)]
  refine hclaimed.move ⟨hf.ok, rfl, rfl, rfl, rfl, rfl⟩ hphase (by rw [hui]; rfl) rfl
    (hclaimed.not_made (by simp [hui])) (fun l hl => ?_) (by simp)
  obtain rfl := Phase.forking.inj hl
  exact ⟨by omega, hbuilt, (congrFun hf.parent s.count).trans (Function.update_self ..)⟩

theorem ProcessInv.launch (hi : ProcessInv s) (hf : s.phase i = .forking j) :
    ProcessInv (setPhase (setPhase s i .user) j .user) := by
  obtain ⟨hb, hparent⟩ := hi.forking i j hf
  have hij : j ≠ i := by
    rintro rfl
    rw [hf] at hb
    cases hb
  have hback : ProcessInv (setPhase s i .user) :=
    hi.move ⟨hi.ok, rfl, rfl, rfl, rfl, rfl⟩ rfl (by rw [hf]; rfl) rfl (hi.not_made (by simp [hf])) (by simp) (by simp)
  have hbuilding : (setPhase s i .user).phase j = .building := (setPhase_other s .user hij).trans hb
  refine hback.move ⟨hi.ok, rfl, rfl, rfl, rfl, rfl⟩ rfl (by rw [hbuilding]; rfl) rfl (fun k hk => ?_) (by simp)
    (by simp)
  -- Only `i` makes `j`, and it is in user mode now.
  obtain ⟨-, hk'⟩ := hback.forking k j hk
  obtain rfl : i = k := Option.some.inj (hparent.symm.trans hk')
  rw [setPhase_self] at hk
  cases hk

theorem ProcessInv.exit (hi : ProcessInv s) (rdi : Nat) (hu : s.phase i = .user) :
    ProcessInv (setPhase { s with table := s.table.recordExit (s.pid i) rdi } i (.exited rdi)) := by
  have hheld : (s.phase i).held = true := by rw [hu]; rfl
  have hs := hi.slot i hheld
  generalize ht : setPhase { s with table := s.table.recordExit (s.pid i) rdi } i (.exited rdi) = t
  have hphase : t.phase i = .exited rdi := by rw [← ht, setPhase_self]
  have hpid : t.pid = s.pid := by rw [← ht]; rfl
  have hholder : t.holder = s.holder := by rw [← ht]; rfl
  have hentry : t.table.processTable (s.pid i) =
      { s.table.processTable (s.pid i) with exited := true, status := BitVec.ofNat 32 rdi } := by
    rw [← ht]
    exact Processes.set_same _ _
  have hstep : SlotStep s t i (s.pid i) := by
    rw [← ht]
    exact ⟨⟨hi.ok.initialized, hi.ok.next⟩, ⟨Nat.le_refl _, hi.born i (by simp [hu])⟩,
      fun d hd => Processes.set_other _ hd,
      fun _ _ => rfl, fun k hk => setPhase_other _ _ hk, fun _ _ => rfl, fun _ _ => rfl⟩
  refine hi.slotStep hstep (fun k hk => ⟨hi.pid_inj hk hheld, fun e => by rw [e]⟩) (fun _ => ?_) (fun _ => ?_)
    (by simp [hu]) (by simp [hphase]) (by simp [hphase])
  · refine ⟨?_, ?_, ?_, fun h => ?_, fun r hr => ?_⟩
    · rw [hpid]
      exact hs.range
    · rw [hpid, hentry]
      exact hs.used
    · rw [hpid, hholder]
      exact hs.holder
    · rw [hphase] at h
      cases h
    · rw [hphase] at hr
      obtain rfl := Phase.exited.inj hr
      rw [hpid, hentry]
      exact ⟨rfl, rfl⟩
  · rw [hphase, hholder, hpid]
    exact ⟨rfl, hs.holder, rfl⟩

theorem ProcessInv.reaped_exited (hi : ProcessInv s) {c : Int} (h0 : 0 < c) (hlt : c < maxProcesses)
    (hu : (s.table.processTable c).used = true) (he : (s.table.processTable c).exited = true) :
    s.pid (s.holder c) = c ∧ ∃ rdi, s.phase (s.holder c) = .exited rdi ∧
      (s.table.processTable c).status = BitVec.ofNat 32 rdi := by
  obtain ⟨hheld, hp⟩ := hi.used c h0 hlt hu
  have hs := hi.slot _ hheld
  refine ⟨hp, ?_⟩
  cases hph : s.phase (s.holder c) with
  | exited rdi => exact ⟨rdi, rfl, hp ▸ (hs.exited rdi hph).2⟩
  | unborn => rw [hph] at hheld; cases hheld
  | reaped => rw [hph] at hheld; cases hheld
  | _ =>
    have := hs.running (by rw [hph]; rfl)
    rw [hp, he] at this
    cases this

theorem ProcessInv.reaps (hi : ProcessInv s) {c : Int} {p : Nat} (hw : s.phase i = .waiting c p) (hr : Reaps s t i c) :
    ProcessInv t := by
  obtain ⟨h0, hlt⟩ := hi.waiting i c p hw
  obtain ⟨hpid, rdi, hex, -⟩ := hi.reaped_exited h0 hlt hr.used hr.exited
  have hheld : (s.phase (s.holder c)).held = true := by rw [hex]; rfl
  generalize hu : setPhase { s with table := s.table.release c } (s.holder c) .reaped = u
  have hphase : u.phase (s.holder c) = .reaped := by rw [← hu, setPhase_self]
  have hfree : (u.table.processTable c).used = false := by
    rw [← hu]
    exact congrArg ProcessEntry.used (Processes.set_same _ _)
  have hstep : SlotStep s u (s.holder c) c := by
    rw [← hu]
    exact ⟨⟨hi.ok.initialized, hi.ok.next⟩, ⟨Nat.le_refl _, hi.born _ (by simp [hex])⟩,
      fun d hd => Processes.set_other _ hd,
      fun _ _ => rfl, fun k hk => setPhase_other _ _ hk, fun _ _ => rfl, fun _ _ => rfl⟩
  have hgone : ProcessInv u := by
    refine hi.slotStep hstep (fun k hk => ⟨fun e => hi.pid_inj hk hheld (e.trans hpid.symm), fun e => by rw [e, hpid]⟩)
      (fun h => ?_) (fun h => ?_) (by simp [hex]) (by simp [hphase]) (by simp [hphase])
    · rw [hphase] at h
      cases h
    · rw [hfree] at h
      cases h
  have hui : u.phase i = .waiting c p := by
    rw [hstep.phase i, hw]
    rintro e
    rw [← e, hw] at hex
    cases hex
  have ht : t = setPhase u i .user := by rw [hr.state, hu]
  rw [ht]
  exact hgone.same ⟨hgone.ok, rfl, rfl, rfl, rfl, rfl⟩ (Or.inl rfl) (Or.inr ⟨c, p, hui⟩) rfl

theorem ProcessInv.step (hi : ProcessInv s) {a : ProcessOp} (h : ProcessStep s a t) : ProcessInv t := by
  rcases hi.step_cases h with ⟨hs, -, i, p, hp, hold, hphase⟩ | ⟨i, c, -, hu, hf⟩ | ⟨i, j, -, hf, rfl⟩ |
    ⟨i, rdi, -, hu, rfl⟩ | ⟨i, c, p, -, hw, hr⟩
  · exact hi.same hs hp hold hphase
  · exact hi.forks hu hf
  · exact hi.launch hf
  · exact hi.exit rdi hu
  · exact hi.reaps hw hr

theorem ProcessBoot.inv (hb : ProcessBoot s) : ProcessInv s := by
  obtain ⟨u, hrun, hcount, hu, hunborn, hholder, -⟩ := hb
  obtain ⟨v, hrun', hok, -, hone, hfree⟩ := register_process_pid1_spec (s := u)
  rw [hrun', Option.some.injEq, Prod.mk.injEq] at hrun
  obtain ⟨hp, rfl⟩ := hrun
  have hphase : ∀ k, s.phase k ≠ .unborn → k = 0 := by
    intro k hk
    by_contra h
    exact hk (hunborn k (by omega))
  refine ⟨hok, fun k hk => ?_, fun k hk => ?_, fun c h0 hlt huc => ?_, fun k l hf => ?_, fun k c q hw => ?_⟩
  · rw [hphase k hk, hcount]
    decide
  · obtain rfl := hphase k fun h => by rw [h] at hk; cases hk
    rw [← hp] at hholder
    refine ⟨?_, ?_, ?_, fun _ => ?_, fun rdi h => ?_⟩
    · rw [← hp]
      decide
    · rw [← hp, hone]
    · rw [← hp, hholder]
    · rw [← hp, hone]
    · rw [hu] at h
      cases h
  · have hc : c = 1 := by
      by_contra hne
      rw [hfree c (by omega) hlt hne] at huc
      cases huc
    rw [← hp] at hholder
    rw [hc, hholder, hu, ← hp]
    exact ⟨rfl, rfl⟩
  · obtain rfl := hphase k fun h => by rw [h] at hf; cases hf
    rw [hu] at hf
    cases hf
  · obtain rfl := hphase k fun h => by rw [h] at hw; cases hw
    rw [hu] at hw
    cases hw

theorem processInv_run {l : List ProcessOp} (hi : ProcessInv s) (hrun : processSystem.Run s l t) : ProcessInv t :=
  hrun.preserves (fun _ _ _ hi hstep => hi.step hstep) hi

theorem processInv_of_reachable (h : processSystem.Reachable s) : ProcessInv s := by
  obtain ⟨s₀, l, hb, hrun⟩ := h
  exact processInv_run hb.inv hrun

end

end Kernel
