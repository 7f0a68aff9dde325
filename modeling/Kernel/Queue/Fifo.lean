import Kernel.Lib.Places
import Kernel.Queue.Code

/-!
# Queues are first in, first out

What the queues are for is a list for each of them. Every run of the pointers
is a run of the lists.
-/

namespace Kernel.Queue

open Lib

section

variable {ι α : Type} [DecidableEq ι]

/-! ## Lists -/

structure Fifo (ι α : Type) where
  contents : ι → List α
  /-- What a thread took by `remove_all`, and did not add again. -/
  chain : Nat → List α
  /-- Ghost: everything that was added so far, and everything that was returned. -/
  added : ι → List α
  taken : ι → List α

namespace Fifo

def empty : Fifo ι α := ⟨fun _ => [], fun _ => [], fun _ => [], fun _ => []⟩

def append (a : Fifo ι α) (q : ι) (x : α) : Fifo ι α :=
  { a with
    contents := Function.update a.contents q (a.contents q ++ [x])
    added := Function.update a.added q (a.added q ++ [x]) }

def take (a : Fifo ι α) (q : ι) (l rest : List α) : Fifo ι α :=
  { a with
    contents := Function.update a.contents q rest
    taken := Function.update a.taken q (a.taken q ++ l) }

def setChain (a : Fifo ι α) (t : Nat) (l : List α) : Fifo ι α := { a with chain := Function.update a.chain t l }

/-- The queues, and the threads with their chains. -/
def cell (a : Fifo ι α) : ι ⊕ Nat → List α
  | .inl q => a.contents q
  | .inr t => a.chain t

def In (a : Fifo ι α) (x : α) : Prop := ∃ i, x ∈ a.cell i

end Fifo

inductive FifoStep : Fifo ι α → Nat × Op ι α → Fifo ι α → Prop where
  | add {a : Fifo ι α} {t : Nat} {q : ι} {x : α} : ¬ a.In x → FifoStep a (t, .add q x) (a.append q x)
  | test_none {a : Fifo ι α} {t : Nat} {q : ι} : a.contents q = [] → FifoStep a (t, .test q false) a
  | test_some {a : Fifo ι α} {t : Nat} {q : ι} : a.contents q ≠ [] → FifoStep a (t, .test q true) a
  | remove_none {a : Fifo ι α} {t : Nat} {q : ι} : a.contents q = [] → FifoStep a (t, .remove q none) a
  | remove {a : Fifo ι α} {t : Nat} {q : ι} {x : α} {rest : List α} : a.contents q = x :: rest →
      FifoStep a (t, .remove q (some x)) (a.take q [x] rest)
  | remove_all {a : Fifo ι α} {t : Nat} {q : ι} : a.chain t = [] →
      FifoStep a (t, .remove_all q (a.contents q).head?) ((a.take q (a.contents q) []).setChain t (a.contents q))
  | read_next {a : Fifo ι α} {t : Nat} {p : α} {rest : List α} : a.chain t = p :: rest →
      FifoStep a (t, .read_next p) a
  | re_add {a : Fifo ι α} {t : Nat} {q : ι} {p : α} {rest : List α} : a.chain t = p :: rest →
      FifoStep a (t, .re_add q p) ((a.setChain t rest).append q p)
  | done {a : Fifo ι α} {t : Nat} : a.chain t = [] → FifoStep a (t, .done) a

def fifoSystem (ι α : Type) [DecidableEq ι] : System (Fifo ι α) (Nat × Op ι α) where
  init a := a = Fifo.empty
  step := FifoStep

/-- No node is in two places, and what was added is what was returned and what is still there, in order. -/
structure FifoOk (a : Fifo ι α) : Prop where
  placed : Placed a.In a.cell
  history : ∀ q, a.added q = a.taken q ++ a.contents q

variable {a b : Fifo ι α}

@[simp] theorem Fifo.append_cell (q : ι) (x : α) :
    (a.append q x).cell = Function.update a.cell (.inl q) (a.contents q ++ [x]) := by
  funext i
  cases i <;> simp [Fifo.cell, Fifo.append, Function.update_apply]

@[simp] theorem Fifo.take_cell (q : ι) (l rest : List α) :
    (a.take q l rest).cell = Function.update a.cell (.inl q) rest := by
  funext i
  cases i <;> simp [Fifo.cell, Fifo.take, Function.update_apply]

@[simp] theorem Fifo.setChain_cell (t : Nat) (l : List α) :
    (a.setChain t l).cell = Function.update a.cell (.inr t) l := by
  funext i
  cases i <;> simp [Fifo.cell, Fifo.setChain, Function.update_apply]

omit [DecidableEq ι] in
theorem FifoOk.empty : FifoOk (Fifo.empty : Fifo ι α) where
  placed := by
    refine ⟨fun x => Iff.rfl, fun i => ?_, fun i j x hx => ?_⟩
    · cases i <;> exact List.nodup_nil
    · cases i <;> cases hx
  history _ := rfl

theorem FifoOk.placed_append (h : FifoOk a) {q : ι} {x : α} (hx : ¬ a.In x) :
    Placed (a.append q x).In (a.append q x).cell := by
  have hadd : Placed (fun y => y = x ∨ a.In y) (Function.update a.cell (.inl q) (x :: a.contents q)) :=
    h.placed.add (i := .inl q) hx (fun _ => Iff.rfl) (Function.update_self ..) fun j hj => Function.update_of_ne hj ..
  have hplaced : Placed _ (a.append q x).cell := hadd.shuffle [.inl q] (List.nodup_singleton _) (by
    simp only [List.flatMap_cons, List.flatMap_nil, List.append_nil, Fifo.append_cell, Function.update_self]
    exact List.perm_append_singleton x (a.contents q)) fun i hi => by
      rw [List.mem_singleton] at hi
      rw [Fifo.append_cell, Function.update_of_ne hi, Function.update_of_ne hi]
  exact ⟨fun _ => Iff.rfl, hplaced.nodup, hplaced.apart⟩

theorem FifoOk.step (h : FifoOk a) {e : Nat × Op ι α} (hstep : FifoStep a e b) : FifoOk b := by
  cases hstep with
  | @add t q x hx =>
    refine ⟨h.placed_append hx, fun q' => ?_⟩
    have hold := h.history q'
    simp only [Fifo.append, Function.update_apply]
    split_ifs with hq
    · subst hq
      rw [hold, List.append_assoc]
    · exact hold
  | test_none _ => exact h
  | test_some _ => exact h
  | remove_none _ => exact h
  | @remove t q x rest hq =>
    constructor
    · have hplaced : Placed (fun y => y ≠ x ∧ a.In y) (a.take q [x] rest).cell :=
        h.placed.drop (i := .inl q) (a := x) (by rw [Fifo.take_cell, Function.update_self]; exact hq) (fun _ => Iff.rfl)
          fun j hj => by rw [Fifo.take_cell, Function.update_of_ne hj]
      exact ⟨fun _ => Iff.rfl, hplaced.nodup, hplaced.apart⟩
    · intro q'
      have hold := h.history q'
      simp only [Fifo.take, Function.update_apply]
      split_ifs with hqq
      · subst hqq
        rw [hold, hq, List.append_assoc]
        rfl
      · exact hold
  | @remove_all t q hchain =>
    constructor
    · have hplaced : Placed _ ((a.take q (a.contents q) []).setChain t (a.contents q)).cell :=
        h.placed.shuffle [.inl q, .inr t] (by simp) (by
          simp only [List.flatMap_cons, List.flatMap_nil, List.append_nil, Fifo.setChain_cell, Fifo.take_cell,
            Function.update_self, Function.update_of_ne (Sum.inl_ne_inr : Sum.inl q ≠ Sum.inr t)]
          show ([] ++ a.contents q).Perm (a.contents q ++ a.chain t)
          rw [hchain, List.append_nil, List.nil_append]) fun i hi => by
            simp only [List.mem_cons, List.not_mem_nil, or_false, not_or] at hi
            rw [Fifo.setChain_cell, Fifo.take_cell, Function.update_of_ne hi.2, Function.update_of_ne hi.1]
      exact ⟨fun _ => Iff.rfl, hplaced.nodup, hplaced.apart⟩
    · intro q'
      have hold := h.history q'
      simp only [Fifo.take, Fifo.setChain, Function.update_apply]
      split_ifs with hqq
      · subst hqq
        rw [hold, List.append_nil]
      · exact hold
  | read_next _ => exact h
  | @re_add t q p rest hchain =>
    constructor
    · have hplaced : Placed _ ((a.setChain t rest).append q p).cell :=
        h.placed.shuffle [.inl q, .inr t] (by simp) (by
          simp only [List.flatMap_cons, List.flatMap_nil, List.append_nil, Fifo.setChain_cell, Fifo.append_cell,
            Function.update_self, Function.update_of_ne (Sum.inr_ne_inl : Sum.inr t ≠ Sum.inl q)]
          show ((a.contents q ++ [p]) ++ rest).Perm (a.contents q ++ a.chain t)
          rw [hchain, List.append_assoc]
          rfl) fun i hi => by
            simp only [List.mem_cons, List.not_mem_nil, or_false, not_or] at hi
            rw [Fifo.append_cell, Fifo.setChain_cell, Function.update_of_ne hi.1, Function.update_of_ne hi.2]
      exact ⟨fun _ => Iff.rfl, hplaced.nodup, hplaced.apart⟩
    · intro q'
      have hold := h.history q'
      simp only [Fifo.append, Fifo.setChain, Function.update_apply]
      split_ifs with hqq
      · subst hqq
        rw [hold, List.append_assoc]
      · exact hold
  | done _ => exact h

/-! ## Pointers -/

variable {m u : Memory ι α} {q : ι} {l : List α} {x : α}

/-- The members of the queue and the links of its nodes are those of the list. -/
structure Represents (m : Memory ι α) (q : ι) (l : List α) : Prop where
  first : ChainFrom m.next (m.queue q).first l
  last : (m.queue q).last = l.getLast?
  size : (m.queue q).size_count = BitVec.ofNat 64 l.length

/-- Nothing but queue `q` and the links of `x` and of the nodes of `l` has changed. -/
structure Frame (m u : Memory ι α) (q : ι) (x : α) (l : List α) : Prop where
  queue : ∀ q', q' ≠ q → u.queue q' = m.queue q'
  next : ∀ y, y ≠ x → y ∉ l → u.next y = m.next y

omit [DecidableEq ι] in
theorem Represents.frame {q' : ι} {l' : List α} (h : Represents m q' l') (hf : Frame m u q x l) (hq : q' ≠ q)
    (hx : x ∉ l') (hl : ∀ y ∈ l', y ∉ l) : Represents u q' l' := by
  have hqueue := hf.queue q' hq
  constructor
  · rw [hqueue]
    exact h.first.congr fun y hy => hf.next y (fun e => hx (e ▸ hy)) (hl y hy)
  · rw [hqueue, h.last]
  · rw [hqueue, h.size]

theorem remove_none_spec (h : Represents m q []) : (remove_locked q).run m = some (none, m) := by
  have hfirst : (m.queue q).first = none := h.first
  unfold remove_locked
  rw [Prog.get_bind_run, hfirst]
  rfl

theorem remove_spec (h : Represents m q (x :: l)) :
    ∃ u, (remove_locked q).run m = some (some x, u) ∧ Represents u q l ∧ u.next = m.next ∧
      ∀ q', q' ≠ q → u.queue q' = m.queue q' := by
  obtain ⟨hfirst, hrest⟩ := h.first
  have hsize : (m.queue q).size_count - 1 = BitVec.ofNat 64 l.length := by
    rw [h.size, List.length_cons, BitVec.ofNat_add]
    exact BitVec.add_sub_cancel _ _
  have hhead : ((m.setFirst q (m.next x)).queue q).first = l.head? := by
    rw [Memory.setFirst_queue, Function.update_self, hrest.head]
  unfold remove_locked
  simp only [Prog.get_bind_run, hfirst, Prog.modify_bind_run, hhead]
  cases l with
  | nil =>
    refine ⟨((m.setFirst q (m.next x)).setLast q none).setSize q ((m.queue q).size_count - 1), ?_, ⟨?_, ?_, ?_⟩, ?_,
      fun q' hq => ?_⟩
    · rw [if_pos List.head?_nil, Prog.modify_bind_run, Prog.modify_bind_run]
      simp
    · simpa using hrest
    · simp
    · simpa using hsize
    · simp
    · simp [hq]
  | cons z l =>
    have hlast : (m.queue q).last = (z :: l).getLast? := h.last.trans List.getLast?_cons_cons
    refine ⟨(m.setFirst q (m.next x)).setSize q ((m.queue q).size_count - 1), ?_, ⟨?_, ?_, ?_⟩, ?_, fun q' hq => ?_⟩
    · rw [if_neg (by simp), Prog.bind_run rfl]
      simp
    · simpa using hrest
    · simpa using hlast
    · simpa using hsize
    · simp
    · simp [hq]

theorem remove_all_spec (h : Represents m q l) :
    ∃ u, (remove_all q).run m = some (l.head?, u) ∧ Represents u q [] ∧ u.next = m.next ∧
      ∀ q', q' ≠ q → u.queue q' = m.queue q' := by
  refine ⟨((m.setFirst q none).setLast q none).setSize q 0, ?_, ⟨?_, ?_, ?_⟩, ?_, fun q' hq => ?_⟩
  · unfold remove_all
    rw [Prog.get_bind_run, Prog.modify_bind_run, Prog.modify_bind_run, Prog.modify_bind_run, ← h.first.head]
    rfl
  · simp [ChainFrom]
  · simp
  · simp
  · simp
  · simp [hq]

variable [DecidableEq α]

theorem add_spec (h : Represents m q l) (hl : l.Nodup) (hx : x ∉ l) :
    ∃ u, (add q x).run m = some ((), u) ∧ Represents u q (l ++ [x]) ∧ Frame m u q x l := by
  have hsize : (m.queue q).size_count + 1 = BitVec.ofNat 64 (l ++ [x]).length := by
    rw [h.size, List.length_append, List.length_singleton, BitVec.ofNat_add]
    rfl
  rcases hlast : l.getLast? with _ | y
  · obtain rfl := List.getLast?_eq_none_iff.mp hlast
    have hfirst : ((m.setNext x none).queue q).first = none := h.first
    refine ⟨(((m.setNext x none).setFirst q (some x)).setLast q (some x)).setSize q ((m.queue q).size_count + 1),
      ?_, ⟨?_, ?_, ?_⟩, fun q' hq => ?_, fun y hy _ => ?_⟩
    · unfold add set_next
      rw [Prog.modify_bind_run, Prog.get_bind_run, if_pos hfirst, Prog.modify_bind_run, Prog.modify_bind_run,
        Prog.modify_run]
      simp
    · simp [ChainFrom]
    · simp
    · simpa using hsize
    · simp [hq]
    · simp [hy]
  · have hy : y ∈ l := List.mem_of_getLast? hlast
    have hxy : x ≠ y := fun e => hx (e ▸ hy)
    have hfirst : ¬ ((m.setNext x none).queue q).first = none := fun e => by
      rw [h.first.none_iff.mp e] at hy
      cases hy
    have hlast' : ((m.setNext x none).queue q).last = some y := h.last.trans hlast
    refine ⟨(((m.setNext x none).setNext y (some x)).setLast q (some x)).setSize q ((m.queue q).size_count + 1),
      ?_, ⟨?_, ?_, ?_⟩, fun q' hq => ?_, fun z hz hzl => ?_⟩
    · unfold add set_next
      rw [Prog.modify_bind_run, Prog.get_bind_run, if_neg hfirst, hlast']
      simp only
      rw [Prog.modify_bind_run, Prog.modify_bind_run, Prog.modify_run]
      simp
    · simpa using h.first.snoc hl hlast hx
    · simp
    · simpa using hsize
    · simp [hq]
    · have hzy : z ≠ y := fun e => hzl (e ▸ hy)
      simp [hz, hzy]

/-! ## Every run is one of the lists -/

/-- The chain that a thread goes through. -/
def Holds (next : α → Option α) : Phase ι α → List α → Prop
  | .chain p, l => ChainFrom next p l
  | .adding p n, l => ∃ rest, l = p :: rest ∧ ChainFrom next n rest
  | _, l => l = []

structure Sim (s : State ι α) (a : Fifo ι α) : Prop where
  queue : ∀ q, Represents s.memory q (a.contents q)
  phase : ∀ t, Holds s.memory.next (s.phase t) (a.chain t)

variable {s t : State ι α} {p : Phase ι α} {next next' : α → Option α}

omit [DecidableEq ι] [DecidableEq α] in
theorem Holds.congr (h : Holds next p l) (hn : ∀ x ∈ l, next' x = next x) : Holds next' p l := by
  cases p with
  | chain p => exact ChainFrom.congr h hn
  | adding p n =>
    obtain ⟨rest, rfl, hrest⟩ := h
    exact ⟨rest, rfl, hrest.congr fun x hx => hn x (List.mem_cons_of_mem _ hx)⟩
  | idle => exact h
  | removing q => exact h

omit [DecidableEq ι] [DecidableEq α] in
theorem Sim.free_iff (h : Sim s a) : s.Free x ↔ ¬ a.In x := by
  constructor
  · rintro hfree ⟨i, hi⟩
    cases i with
    | inl q => exact hfree.queue q ((h.queue q).first.links_iff.mpr hi)
    | inr t =>
      have hi : x ∈ a.chain t := hi
      have hholds := h.phase t
      cases hphase : s.phase t with
      | chain p =>
        rw [hphase] at hholds
        exact hfree.chain t p hphase (ChainFrom.links_iff hholds |>.mpr hi)
      | adding p n =>
        rw [hphase] at hholds
        obtain ⟨rest, hrest, hchain⟩ := hholds
        obtain ⟨hne, hnot⟩ := hfree.adding t p n hphase
        rw [hrest, List.mem_cons] at hi
        exact hi.elim hne fun hi => hnot (hchain.links_iff.mpr hi)
      | idle =>
        rw [hphase] at hholds
        rw [show a.chain t = [] from hholds] at hi
        cases hi
      | removing q =>
        rw [hphase] at hholds
        rw [show a.chain t = [] from hholds] at hi
        cases hi
  · intro hin
    refine ⟨fun q hlinks => hin ⟨.inl q, (h.queue q).first.links_iff.mp hlinks⟩, fun t p hphase hlinks => ?_,
      fun t p n hphase => ?_⟩
    · have hholds := h.phase t
      rw [hphase] at hholds
      exact hin ⟨.inr t, (ChainFrom.links_iff hholds).mp hlinks⟩
    · have hholds := h.phase t
      rw [hphase] at hholds
      obtain ⟨rest, hrest, hchain⟩ := hholds
      have hmem : ∀ y, y ∈ p :: rest → a.In y := fun y hy => ⟨.inr t, by
        show y ∈ a.chain t
        rwa [hrest]⟩
      exact ⟨fun e => hin (e ▸ hmem p List.mem_cons_self),
        fun hlinks => hin (hmem x (List.mem_cons_of_mem _ (hchain.links_iff.mp hlinks)))⟩

omit [DecidableEq ι] [DecidableEq α] in
theorem Sim.queue_frame (h : Sim s a) {u : Memory ι α} (hnext : u.next = s.memory.next)
    (hqueue : ∀ q', q' ≠ q → u.queue q' = s.memory.queue q') (q' : ι) (hq : q' ≠ q) :
    Represents u q' (a.contents q') := by
  have hold := h.queue q'
  constructor
  · rw [hnext, hqueue q' hq]
    exact hold.first
  · rw [hqueue q' hq]
    exact hold.last
  · rw [hqueue q' hq]
    exact hold.size

omit [DecidableEq α] in
theorem represents_update {u : Memory ι α} (hq : Represents u q l)
    (hother : ∀ q', q' ≠ q → Represents u q' (a.contents q')) (q' : ι) :
    Represents u q' (Function.update a.contents q l q') := by
  by_cases hqq : q' = q
  · rw [hqq, Function.update_self]
    exact hq
  · rw [Function.update_of_ne hqq]
    exact hother q' hqq

omit [DecidableEq ι] [DecidableEq α] in
theorem Sim.phase_update (h : Sim s a) {i : Nat} {chain : Nat → List α} (hown : Holds next p (chain i))
    (hchain : ∀ j, j ≠ i → chain j = a.chain j)
    (hnext : ∀ j, j ≠ i → ∀ y ∈ a.chain j, next y = s.memory.next y) (j : Nat) :
    Holds next (Function.update s.phase i p j) (chain j) := by
  by_cases hj : j = i
  · rw [hj, Function.update_self]
    exact hown
  · rw [Function.update_of_ne hj, hchain j hj]
    exact (h.phase j).congr (hnext j hj)

theorem Sim.add (h : Sim s a) (ha : FifoOk a) (hx : x ∉ a.contents q) :
    ∃ u, (add q x).run s.memory = some ((), u) ∧ Represents u q (a.contents q ++ [x]) ∧
      (∀ q', q' ≠ q → x ∉ a.contents q' → Represents u q' (a.contents q')) ∧
      ∀ i l, l ⊆ a.cell i → i ≠ .inl q → x ∉ l → ∀ y ∈ l, u.next y = s.memory.next y := by
  obtain ⟨u, hrun, hrep, hframe⟩ := add_spec (h.queue q) (ha.placed.nodup (.inl q)) hx
  have hapart : ∀ i y, i ≠ .inl q → y ∈ a.cell i → y ∉ a.contents q := fun i y hi hy hyq =>
    hi (ha.placed.apart i (.inl q) y hy hyq)
  refine ⟨u, hrun, hrep, fun q' hq hxq => ?_, fun i l hl hi hxl y hy => ?_⟩
  · exact (h.queue q').frame hframe hq hxq fun y hy => hapart (.inl q') y (fun e => hq (Sum.inl.inj e)) hy
  · exact hframe.next y (fun e => hxl (e ▸ hy)) (hapart i y hi (hl hy))

theorem Sim.add_step (h : Sim s a) (ha : FifoOk a) {m : Memory ι α} (hin : ¬ a.In x)
    (hrun : (Queue.add q x).run s.memory = some ((), m)) : Sim (s.setMemory m) (a.append q x) := by
  have hnot : ∀ i, x ∉ a.cell i := fun i hi => hin ⟨i, hi⟩
  obtain ⟨u, hrun', hrep, hqueues, hnext⟩ := h.add ha (q := q) (hnot (.inl q))
  rw [hrun, Option.some.injEq, Prod.mk.injEq] at hrun'
  obtain ⟨-, rfl⟩ := hrun'
  refine ⟨represents_update hrep fun q' hq => hqueues q' hq (hnot (.inl q')), fun j => ?_⟩
  exact (h.phase j).congr (hnext (.inr j) (a.chain j) (fun _ => id) nofun (hnot (.inr j)))

omit [DecidableEq α] in
theorem Sim.remove_returns (h : Sim s a) (q : ι) :
    ∃ m, (remove_locked q).run s.memory = some ((a.contents q).head?, m) := by
  have hrep := h.queue q
  cases hq : a.contents q with
  | nil =>
    rw [hq] at hrep
    exact ⟨_, remove_none_spec hrep⟩
  | cons x rest =>
    rw [hq] at hrep
    obtain ⟨m, hrun, -⟩ := remove_spec hrep
    exact ⟨m, hrun⟩

omit [DecidableEq α] in
theorem Sim.remove_all_returns (h : Sim s a) (q : ι) :
    ∃ m, (Queue.remove_all q).run s.memory = some ((a.contents q).head?, m) := by
  obtain ⟨m, hrun, -⟩ := remove_all_spec (h.queue q)
  exact ⟨m, hrun⟩

omit [DecidableEq α] in
theorem Sim.remove_step (h : Sim s a) {i : Nat} {it : Option α} {m : Memory ι α} (hphase : s.phase i = .removing q)
    (hrun : (remove_locked q).run s.memory = some (it, m)) :
    ∃ b, FifoStep a (i, .remove q it) b ∧ Sim ((s.setMemory m).setPhase i .idle) b := by
  have hold := h.phase i
  rw [hphase] at hold
  have hidle : m.next = s.memory.next → ∀ j, Holds m.next (Function.update s.phase i .idle j) (a.chain j) :=
    fun hnext => h.phase_update hold (fun _ _ => rfl) fun _ _ y _ => congrFun hnext y
  have hrep := h.queue q
  cases hq : a.contents q with
  | nil =>
    rw [hq] at hrep
    rw [remove_none_spec hrep, Option.some.injEq, Prod.mk.injEq] at hrun
    obtain ⟨rfl, rfl⟩ := hrun
    exact ⟨a, .remove_none hq, h.queue, hidle rfl⟩
  | cons x rest =>
    rw [hq] at hrep
    obtain ⟨u, hrun', hrep', hnext, hqueue⟩ := remove_spec hrep
    rw [hrun, Option.some.injEq, Prod.mk.injEq] at hrun'
    obtain ⟨rfl, rfl⟩ := hrun'
    exact ⟨_, .remove hq, represents_update hrep' (h.queue_frame hnext hqueue), hidle hnext⟩

omit [DecidableEq α] in
theorem Sim.remove_all_step (h : Sim s a) {i : Nat} {it : Option α} {m : Memory ι α} (hidle : s.phase i = .idle)
    (hrun : (Queue.remove_all q).run s.memory = some (it, m)) :
    ∃ b, FifoStep a (i, .remove_all q it) b ∧ Sim ((s.setMemory m).setPhase i (.chain it)) b := by
  have hold := h.phase i
  rw [hidle] at hold
  obtain ⟨u, hrun', hrep, hnext, hqueue⟩ := remove_all_spec (h.queue q)
  rw [hrun, Option.some.injEq, Prod.mk.injEq] at hrun'
  obtain ⟨rfl, rfl⟩ := hrun'
  refine ⟨_, .remove_all hold, represents_update hrep (h.queue_frame hnext hqueue), ?_⟩
  refine h.phase_update ?_ (fun j hj => Function.update_of_ne hj ..) fun _ _ y _ => congrFun hnext y
  show Holds m.next _ (Function.update a.chain i (a.contents q) i)
  rw [Function.update_self, hnext, ← (h.queue q).first.head]
  exact (h.queue q).first

theorem Sim.re_add_step (h : Sim s a) (ha : FifoOk a) {i : Nat} {x : α} {n : Option α} {m : Memory ι α}
    (hphase : s.phase i = .adding x n) (hrun : (Queue.add q x).run s.memory = some ((), m)) :
    ∃ b, FifoStep a (i, .re_add q x) b ∧ Sim ((s.setMemory m).setPhase i (.chain n)) b := by
  have hold := h.phase i
  rw [hphase] at hold
  obtain ⟨rest, hchain, hrest⟩ := hold
  have hcell : a.cell (.inr i) = x :: rest := hchain
  have hnot : ∀ j, j ≠ .inr i → x ∉ a.cell j := fun j hj hx =>
    hj (ha.placed.apart j (.inr i) x hx (hcell ▸ List.mem_cons_self))
  have hnodup : (x :: rest).Nodup := hcell ▸ ha.placed.nodup (.inr i)
  obtain ⟨u, hrun', hrep, hqueues, hnext⟩ := h.add ha (q := q) (hnot (.inl q) nofun)
  rw [hrun, Option.some.injEq, Prod.mk.injEq] at hrun'
  obtain ⟨-, rfl⟩ := hrun'
  refine ⟨_, .re_add hchain, represents_update hrep fun q' hq => hqueues q' hq (hnot (.inl q') nofun), ?_⟩
  refine h.phase_update ?_ (fun j hj => Function.update_of_ne hj ..) fun j hj => ?_
  · show Holds m.next _ (Function.update a.chain i rest i)
    rw [Function.update_self]
    refine ChainFrom.congr hrest (hnext (.inr i) rest ?_ nofun (List.nodup_cons.mp hnodup).1)
    rw [hcell]
    exact List.subset_cons_self x rest
  · exact hnext (.inr j) (a.chain j) (fun _ => id) nofun (hnot (.inr j) fun e => hj (Sum.inr.inj e))

theorem Sim.step (h : Sim s a) (ha : FifoOk a) {e : Nat × Op ι α} (hstep : Step s e t) :
    ∃ b, FifoStep a e b ∧ Sim t b := by
  cases hstep with
  | add hidle hfree hrun =>
    have hin := h.free_iff.mp hfree
    exact ⟨_, .add hin, h.add_step ha hin hrun⟩
  | test_none hidle hfirst => exact ⟨a, .test_none ((h.queue _).first.none_iff.mp hfirst), h⟩
  | @test_some i q hidle hfirst =>
    have hold := h.phase i
    rw [hidle] at hold
    exact ⟨a, .test_some fun e => hfirst ((h.queue q).first.none_iff.mpr e), h.queue,
      h.phase_update hold (fun _ _ => rfl) fun _ _ _ _ => rfl⟩
  | remove hphase hrun => exact h.remove_step hphase hrun
  | remove_all hidle hrun => exact h.remove_all_step hidle hrun
  | @read_next i p hphase =>
    have hold := h.phase i
    rw [hphase] at hold
    cases hchain : a.chain i with
    | nil =>
      rw [hchain] at hold
      cases (hold : some p = none)
    | cons x rest =>
      rw [hchain] at hold
      obtain ⟨hx, hrest⟩ := hold
      obtain rfl := Option.some.inj hx
      exact ⟨a, .read_next hchain, h.queue, h.phase_update ⟨rest, hchain, hrest⟩ (fun _ _ => rfl) fun _ _ _ _ => rfl⟩
  | re_add hphase hrun => exact h.re_add_step ha hphase hrun
  | @done i hphase =>
    have hold := h.phase i
    rw [hphase] at hold
    have hnil : a.chain i = [] := (ChainFrom.none_iff hold).mp rfl
    exact ⟨a, .done hnil, h.queue, h.phase_update hnil (fun _ _ => rfl) fun _ _ _ _ => rfl⟩

omit [DecidableEq ι] [DecidableEq α] in
theorem Boot.sim (h : Boot s) : Sim s Fifo.empty := by
  constructor
  · intro q
    constructor <;> rw [h.queue q] <;> rfl
  · intro t
    rw [h.phase t]
    rfl

theorem sim_run {s₀ : State ι α} {l : List (Nat × Op ι α)} (h₀ : Boot s₀) (hrun : (queueSystem ι α).Run s₀ l s) :
    ∃ a, (fifoSystem ι α).Run Fifo.empty l a ∧ Sim s a ∧ FifoOk a := by
  induction hrun with
  | nil => exact ⟨_, .nil _, h₀.sim, FifoOk.empty⟩
  | snoc _ hstep ih =>
    obtain ⟨a, hrun, hsim, hok⟩ := ih
    obtain ⟨b, hb, hsim'⟩ := hsim.step hok hstep
    exact ⟨b, hrun.snoc hb, hsim', hok.step hb⟩

/--
A run of the queues is a run of their lists. What was added to a queue is, in order, what was returned and what it
holds; no node is in two places. Every operation returns: `remove` and `remove_all` with the oldest node.
-/
theorem queues_are_fifo {s₀ : State ι α} {l : List (Nat × Op ι α)} (h₀ : (queueSystem ι α).init s₀)
    (hrun : (queueSystem ι α).Run s₀ l s) :
    ∃ a, (fifoSystem ι α).Run Fifo.empty l a ∧ Sim s a ∧
      (∀ q, a.added q = a.taken q ++ a.contents q) ∧
      (∀ i, (a.cell i).Nodup) ∧ (∀ i j x, x ∈ a.cell i → x ∈ a.cell j → i = j) ∧
      (∀ e t, Step s e t → ∃ b, FifoStep a e b ∧ Sim t b) ∧
      (∀ q x, x ∉ a.contents q → ∃ m, (add q x).run s.memory = some ((), m)) ∧
      (∀ q, ∃ m, (remove_locked q).run s.memory = some ((a.contents q).head?, m)) ∧
      ∀ q, ∃ m, (remove_all q).run s.memory = some ((a.contents q).head?, m) := by
  obtain ⟨a, hruna, hsim, hok⟩ := sim_run h₀ hrun
  refine ⟨a, hruna, hsim, hok.history, hok.placed.nodup, hok.placed.apart, fun e t => hsim.step hok,
    fun q x hx => ?_, hsim.remove_returns, hsim.remove_all_returns⟩
  obtain ⟨m, hm, -⟩ := hsim.add hok hx
  exact ⟨m, hm⟩

end

/-! ## One queue -/

def emptyQueue : State Unit Nat := ⟨⟨fun _ => ⟨none, none, 0⟩, fun _ => none⟩, fun _ => .idle⟩

theorem emptyQueue_boot : Boot emptyQueue := ⟨fun _ => rfl, fun _ => rfl⟩

/-- Thread 0 adds two nodes; thread 1 gets the first one, and thread 2 takes the rest. -/
def emptyQueue_ops : List (Nat × Op Unit Nat) :=
  [(0, .add () 5), (0, .add () 6), (1, .test () true), (1, .remove () (some 5)), (2, .remove_all () (some 6))]

theorem emptyQueue_run : ∃ s, (queueSystem Unit Nat).Run emptyQueue emptyQueue_ops s := by
  have hempty : ∀ x, ¬ (Fifo.empty : Fifo Unit Nat).In x := fun x ⟨i, hi⟩ => by cases i <;> cases hi
  have h₀ := emptyQueue_boot.sim
  obtain ⟨m₁, hadd₁, -⟩ := h₀.add FifoOk.empty (q := ()) (x := 5) List.not_mem_nil
  have h₁ := h₀.add_step FifoOk.empty (hempty 5) hadd₁
  have hok₁ := FifoOk.empty.step (FifoStep.add (t := 0) (q := ()) (hempty 5))
  have hin : ¬ ((Fifo.empty : Fifo Unit Nat).append () 5).In 6 := by
    rintro ⟨i, hi⟩
    cases i with
    | inl q => exact absurd (List.mem_singleton.mp hi) (by decide)
    | inr t => cases hi
  obtain ⟨m₂, hadd₂, -⟩ := h₁.add hok₁ (q := ()) fun h => hin ⟨.inl (), h⟩
  have h₂ := h₁.add_step hok₁ hin hadd₂
  have hrep : Represents m₂ () [5, 6] := h₂.queue ()
  have hfirst : (m₂.queue ()).first ≠ none := fun e => by
    rw [hrep.first.none_iff] at e
    cases e
  obtain ⟨m₃, hremove, hrep₃, -⟩ := remove_spec hrep
  obtain ⟨m₄, hall, -⟩ := remove_all_spec hrep₃
  let s₂ := (emptyQueue.setMemory m₁).setMemory m₂
  let s₃ := (s₂.setPhase 1 (.removing ())).setMemory m₃
  exact ⟨_, (((((System.Run.nil _).snoc (Step.add rfl (h₀.free_iff.mpr (hempty 5)) hadd₁)).snoc
    (Step.add rfl (h₁.free_iff.mpr hin) hadd₂)).snoc (Step.test_some (s := s₂) rfl hfirst)).snoc
    (Step.remove (s := s₂.setPhase 1 (.removing ())) rfl hremove)).snoc
    (Step.remove_all (s := s₃.setPhase 1 .idle) rfl hall)⟩

theorem emptyQueue_fifo : ∃ s a, (queueSystem Unit Nat).Run emptyQueue emptyQueue_ops s ∧
    Sim s a ∧ a.added () = a.taken () ++ a.contents () := by
  obtain ⟨s, hrun⟩ := emptyQueue_run
  obtain ⟨a, -, hsim, hhistory, -⟩ := queues_are_fifo emptyQueue_boot hrun
  exact ⟨s, a, hrun, hsim, hhistory ()⟩

end Kernel.Queue
