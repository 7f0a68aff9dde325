import Kernel.Blocking.Barrier

/-!
# What latches count and futures give (`count_down_latch.h`, `future.h`)

`sync` goes on when every `up` so far has its `down`. `get` returns what the
last `set` left, though it reads it without the lock.
-/

namespace Kernel.Blocking

open Lib Kernel.Thread

/-! ## Latches -/

section

variable {k c : Nat} {m m' : GateState (BitVec 64) LatchCall} {v : BitVec 64} {x : After} {l : List (Tid × LatchCall)}

/-- How often `call` was made. -/
def made (call : LatchCall) (l : List (Tid × LatchCall)) : Nat := l.countP fun a => a.2 = call

theorem made_concat (call call' : LatchCall) (t : Tid) :
    made call (l ++ [(t, call')]) = made call l + if call' = call then 1 else 0 := by
  rw [made, List.countP_append, List.countP_singleton]
  simp [made]

/-- The count is what `up` and `down` have made of it. -/
def LatchOk (m : GateState (BitVec 64) LatchCall) : Prop := m.value.toNat + made .down m.calls = made .up m.calls

theorem LatchOk.decides (h : LatchOk m) (hd : Decides CountDownLatch m c x v l)
    (hwraps : ∀ call, m.phase (m.current c) = .entered call → CountDownLatch.wraps call m.value = false) :
    v.toNat + made .down l = made .up l := by
  rcases hd.calls with ⟨rfl, rfl, -⟩ | ⟨call, rfl, hupdate, -, hp⟩
  · exact h
  · have hfew := hwraps call hp
    have hcount : m.value.toNat + made .down m.calls = made .up m.calls := h
    cases call with
    | up =>
      have hv : m.value + 1 = v := Option.some.inj hupdate
      have hne : m.value + 1 ≠ 0 := by simpa [CountDownLatch] using hfew
      have hnat : v.toNat = m.value.toNat + 1 := by
        rw [← hv]
        bv_omega
      rw [made_concat, made_concat, if_neg (by simp), if_pos rfl, hnat]
      omega
    | down =>
      have hne : m.value ≠ 0 := fun hz => by simp [CountDownLatch, hz] at hupdate
      have hv : m.value - 1 = v := by
        rw [show CountDownLatch.update .down m.value = some (m.value - 1) from if_pos hne] at hupdate
        exact Option.some.inj hupdate
      have hnat : v.toNat + 1 = m.value.toNat := by
        rw [← hv]
        bv_omega
      rw [made_concat, made_concat, if_pos rfl, if_neg (by simp)]
      omega
    | sync =>
      have hv : m.value = v := Option.some.inj hupdate
      rw [made_concat, made_concat, if_neg (by simp), if_neg (by simp), ← hv]
      exact hcount

theorem latchOk_step {a : Nat × GateOp (BitVec 64) LatchCall} (h : LatchOk m) (hfew : FewCalls CountDownLatch m a)
    (hs : GateStep CountDownLatch k m a m') : LatchOk m' := by
  obtain ⟨c, o⟩ := a
  rcases gate_calls hs with ⟨hcalls, hvalue, -⟩ | ⟨x, v, l, hd, rfl, rfl, -, -, hwraps⟩
  · rw [LatchOk, hcalls, hvalue]
    exact h
  · exact h.decides hd (hwraps hfew)

theorem latchOk_of_guarded (h : (gateSystem CountDownLatch k 0).GuardedReachable (FewCalls CountDownLatch) m) :
    LatchOk m := by
  obtain ⟨m₀, l, hnew, hrun⟩ := h
  refine hrun.preserves (fun _ _ _ h hfew hs => latchOk_step h hfew hs) ?_
  rw [LatchOk, hnew.value, hnew.calls]
  rfl

/-- **Latches.** The `ASSERT` of `down` holds just when an `up` has no `down` yet, and a `sync` goes on only when every
`up` has one. -/
theorem latch_counts (h : (gateSystem CountDownLatch k 0).GuardedReachable (FewCalls CountDownLatch) m) :
    ((CountDownLatch.update .down m.value).isSome ↔ made .down m.calls < made .up m.calls) ∧
      ∀ c m', FewCalls CountDownLatch m (c, .pass) → GateStep CountDownLatch k m (c, .pass) m' →
        made .down m'.calls = made .up m'.calls := by
  have hok := latchOk_of_guarded h
  have hcount : m.value.toNat + made .down m.calls = made .up m.calls := hok
  refine ⟨?_, fun c m' hfew hs => ?_⟩
  · by_cases hz : m.value = 0
    · have hnone : CountDownLatch.update .down m.value = none := if_neg (not_not.mpr hz)
      rw [hnone]
      rw [hz, show (0 : BitVec 64).toNat = 0 from rfl] at hcount
      simp
      omega
    · have hsome : CountDownLatch.update .down m.value = some (m.value - 1) := if_pos hz
      have hpos : m.value.toNat ≠ 0 := fun h => hz (BitVec.eq_of_toNat_eq h)
      rw [hsome]
      simp
      omega
  · have hnext : m'.value.toNat + made .down m'.calls = made .up m'.calls := latchOk_step hok hfew hs
    have hopen : m'.value = 0 := by
      cases hs with
      | pass hd hv => exact beq_iff_eq.mp hv
    rw [hopen, show (0 : BitVec 64).toNat = 0 from rfl, Nat.zero_add] at hnext
    exact hnext

theorem latch_counts_one : ∃ m : GateState (BitVec 64) LatchCall,
    m.calls = [(.idle 0, .up), (.idle 0, .down), (.idle 1, .sync)] ∧ made .down m.calls = made .up m.calls := by
  have h := gate_start_reachable (K := CountDownLatch) (k := 0) (v := 0) boot_apart
  have h := few_gate_step h (.call (c := 0) (x := .up) ⟨rfl, rfl, rfl, rfl⟩ rfl) fun _ hp => by cases hp
  have h := few_gate_step h (.acquire (c := 0) rfl (.lock ⟨rfl, rfl, rfl, rfl⟩ rfl)) fun _ hp => by cases hp
  have h := few_gate_step h (.unlock (c := 0) (v := 1) (.update rfl rfl rfl) (.unlock ⟨rfl, rfl, rfl, rfl⟩ rfl))
    fun _ hp => by cases hp; rfl
  have h := few_gate_step h (.ret (c := 0) ⟨rfl, rfl, rfl, rfl⟩ rfl) fun _ hp => by cases hp
  have h := few_gate_step h (.call (c := 0) (x := .down) ⟨rfl, rfl, rfl, rfl⟩ rfl) fun _ hp => by cases hp
  have h := few_gate_step h (.acquire (c := 0) rfl (.lock ⟨rfl, rfl, rfl, rfl⟩ rfl)) fun _ hp => by cases hp
  have h := few_gate_step h (.notify (c := 0) (v := 0) (.update rfl rfl rfl) (.notify_all ⟨rfl, rfl, rfl, rfl⟩ rfl))
    fun _ hp => by cases hp; rfl
  have h := few_gate_step h (.call (c := 1) (x := .sync) ⟨rfl, rfl, rfl, rfl⟩ rfl) fun _ hp => by cases hp
  have h := few_gate_step h (.acquire (c := 1) rfl (.lock ⟨rfl, rfl, rfl, rfl⟩ rfl)) fun _ hp => by cases hp
  exact ⟨_, rfl, (latch_counts h).2 1 _ (fun _ hp => by cases hp; rfl) (.pass (v := 0) (.update rfl rfl rfl) rfl
    (.unlock ⟨rfl, rfl, rfl, rfl⟩ rfl))⟩

end

/-! ## Futures -/

section

variable {T : Type} {k c : Nat} {m m' : GateState (Bool × T) (FutureCall T)} {init v : T}

def FutureCall.value : FutureCall T → Option T
  | .set v => some v
  | .get => none

/-- What the last `set` has left. -/
def lastSet (l : List (Tid × FutureCall T)) : Option T := (l.filterMap fun a => a.2.value).getLast?

theorem lastSet_concat (l : List (Tid × FutureCall T)) (t : Tid) (call : FutureCall T) :
    lastSet (l ++ [(t, call)]) = call.value.or (lastSet l) := by
  cases call with
  | set v => simp [lastSet, FutureCall.value]
  | get => simp [lastSet, FutureCall.value]

/-- The value is what the last `set` has left, and nobody leaves before there was one. -/
structure FutureOk (init : T) (m : GateState (Bool × T) (FutureCall T)) : Prop where
  value : m.value = ((lastSet m.calls).isSome, (lastSet m.calls).getD init)
  ready : ∀ t, m.Left t → m.value.1 = true

theorem FutureOk.decides (h : FutureOk init m) {x : After} {v : Bool × T} {l : List (Tid × FutureCall T)}
    (hd : Decides (Future T) m c x v l) : v = ((lastSet l).isSome, (lastSet l).getD init) ∧
      (m.value.1 = true → v.1 = true) ∧ (x ≠ .wait → v.1 = true) := by
  rcases hd.calls with ⟨rfl, rfl, rfl⟩ | ⟨call, rfl, hupdate, hafter, -⟩
  · exact ⟨h.value, id, fun h => absurd rfl h⟩
  · rw [lastSet_concat]
    cases call with
    | set w =>
      have hv : (true, w) = v := Option.some.inj hupdate
      rw [← hv]
      exact ⟨rfl, fun _ => rfl, fun _ => rfl⟩
    | get =>
      have hv : m.value = v := Option.some.inj hupdate
      rw [← hv]
      exact ⟨h.value, id, fun hx => absurd hafter.symm hx⟩

theorem FutureOk.step {a : Nat × GateOp (Bool × T) (FutureCall T)} (h : FutureOk init m)
    (hs : GateStep (Future T) k m a m') : FutureOk init m' := by
  obtain ⟨c, o⟩ := a
  have hnext : m'.value = ((lastSet m'.calls).isSome, (lastSet m'.calls).getD init) ∧
      (m.value.1 = true → m'.value.1 = true) := by
    rcases gate_calls hs with ⟨hcalls, hvalue, -⟩ | ⟨x, v, l, hd, rfl, rfl, -⟩
    · rw [hcalls, hvalue]
      exact ⟨h.value, id⟩
    · exact ⟨(h.decides hd).1, (h.decides hd).2.1⟩
  refine ⟨hnext.1, fun t ht => ?_⟩
  rcases left_step hs ht with hleft | ⟨-, x, hd, hopen⟩
  · exact hnext.2 (h.ready t hleft)
  · by_cases hx : x = .wait
    · exact hopen hx
    · exact (h.decides hd).2.2 hx

theorem futureOk_inductive : System.Inductive (gateSystem (Future T) k (false, init)) (FutureOk init) where
  init m h := by
    refine ⟨?_, fun t ht => ?_⟩
    · rw [h.value, h.calls]
      rfl
    · rw [GateState.Left, h.phase, h.calls] at ht
      simp at ht
  step _ _ _ h hs := h.step hs

/-- **Futures.** A call that returns has found the future ready, and what it reads then is what the last `set` has left.
-/
theorem future_gives_last (h : (gateSystem (Future T) k (false, init)).Reachable m) {x : Bool × T}
    (hs : GateStep (Future T) k m (c, .ret x) m') : x.1 = true ∧ lastSet m.calls = some x.2 := by
  have hok := futureOk_inductive.reachable h
  cases hs with
  | ret hr hp =>
    have hready := hok.ready (m.current c) (Or.inl hp)
    have hvalue := hok.value
    cases hlast : lastSet m.calls with
    | none =>
      rw [hvalue, hlast] at hready
      cases hready
    | some w =>
      rw [hlast] at hvalue
      rw [hvalue]
      exact ⟨rfl, rfl⟩

/-- Thread 0 waits for a future, which the idle thread of core 1 sets, and its `get` is about to return. -/
theorem future_gives_seven : ∃ m : GateState (Bool × Nat) (FutureCall Nat), m.current 0 = .thread 0 ∧
    m.phase (.thread 0) = .leaving ∧ m.calls = [(.thread 0, .get), (.idle 1, .set 7)] ∧ m.value.1 = true ∧
    lastSet m.calls = some m.value.2 := by
  have h := gate_start_reachable (K := Future Nat) (k := 0) (v := (false, 0)) oneRuns_apart
  have h := few_gate_step h (.call (c := 0) (x := .get) ⟨rfl, rfl, rfl, rfl⟩ rfl) fun _ _ => rfl
  have h := few_gate_step h (.acquire (c := 0) rfl (.lock ⟨rfl, rfl, rfl, rfl⟩ rfl)) fun _ _ => rfl
  have h := few_gate_step h (.wait (c := 0) (v := (false, 0)) (.update rfl rfl rfl) rfl
    (.wait ⟨rfl, rfl, rfl, rfl⟩ rfl))
    fun _ _ => rfl
  have h := few_gate_step h (.call (c := 1) (x := .set 7) ⟨rfl, rfl, rfl, rfl⟩ rfl) fun _ _ => rfl
  have h := few_gate_step h (.acquire (c := 1) rfl (.lock ⟨rfl, rfl, rfl, rfl⟩ rfl)) fun _ _ => rfl
  have h := few_gate_step h (.notify (c := 1) (.update rfl rfl rfl) (.notify_all ⟨rfl, rfl, rfl, rfl⟩ rfl))
    fun _ _ => rfl
  have h := few_gate_step h (.other (c := 1) (o := .added) (by constructor <;> simp) (Or.inr trivial)
    (.added rfl)) trivial
  have h := few_gate_step h (.ret (c := 1) ⟨rfl, rfl, rfl, rfl⟩ rfl) fun _ _ => rfl
  -- Thread 0 switches to thread 1, is made ready again as the epoch has changed, and gets the core back.
  have h := few_gate_step h (.other (c := 0) (o := .wait_remove) (by constructor <;> simp) (Or.inr trivial)
    (.wait_remove rfl rfl rfl)) trivial
  have h := few_gate_step h (.other (c := 0) (o := .switch) (by constructor <;> simp) (Or.inr trivial)
    (.switch rfl)) trivial
  have h := few_gate_step h (.other (c := 0) (o := .post) (by constructor <;> simp) (Or.inr trivial)
    (.post_again rfl rfl rfl rfl (by decide))) fun _ hp _ => by cases hp; decide
  have h := few_gate_step h (.other (c := 0) (o := .requeue) (by constructor <;> simp) (Or.inr trivial)
    (.requeue rfl (by decide))) trivial
  have h := few_gate_step h (.other (c := 0) (o := .yield) (by constructor <;> simp) (Or.inr trivial)
    (.yield ⟨⟨rfl, rfl, rfl, rfl⟩, rfl, rfl⟩ rfl)) trivial
  have h := few_gate_step h (.other (c := 0) (o := .switch) (by constructor <;> simp) (Or.inr trivial)
    (.switch rfl)) trivial
  have h := few_gate_step h (.other (c := 0) (o := .post) (by constructor <;> simp) (Or.inr trivial)
    (.post_ready rfl rfl (by decide))) fun _ hp hw => by cases hp; cases hw
  have h := few_gate_step h (.relock (c := 0) rfl (.relock rfl rfl rfl)) fun _ _ => rfl
  have h := few_gate_step h (.pass (c := 0) (.test rfl) rfl (.unlock ⟨rfl, rfl, rfl, rfl⟩ rfl)) fun _ _ => rfl
  exact ⟨_, rfl, rfl, rfl, future_gives_last h.reachable (.ret (c := 0) ⟨rfl, rfl, rfl, rfl⟩ rfl)⟩

end

end Kernel.Blocking
