import Kernel.Lib.Transition

/-!
# Commands

The code of a thread, over operations, tests and reads that a machine gives
meaning to. A context is what is known of the thread at a point of its code;
`Flow` says that the code takes one context to another.
-/

namespace Kernel.Lib

/-- `read r f` goes on with what `r` gives. -/
inductive Cmd (ω τ ρ ν : Type) where
  | skip
  | op (o : ω)
  | seq (c d : Cmd ω τ ρ ν)
  | ite (t : τ) (c d : Cmd ω τ ρ ν)
  | loop (t : τ) (c : Cmd ω τ ρ ν)
  | read (r : ρ) (f : ν → Cmd ω τ ρ ν)

/-- What a step of a thread does: an operation, the outcome of a test, or neither. -/
inductive Event (ω τ : Type) where
  | op (o : ω)
  | test (t : τ) (v : Bool)
  | go

namespace Cmd

variable {ω τ ρ ν η : Type}

def block : List (Cmd ω τ ρ ν) → Cmd ω τ ρ ν
  | [] => skip
  | c :: l => seq c (block l)

/-- One of several. -/
def oneOf (t : τ) : List (Cmd ω τ ρ ν) → Cmd ω τ ρ ν
  | [] => skip
  | c :: l => ite t c (oneOf t l)

/-- A step of a thread that does no operation. The list is what the thread has yet to do. -/
inductive Unfolds (holds : τ → Bool → Prop) (reads : ρ → ν → Prop) :
    List (Cmd ω τ ρ ν) → Event ω τ → List (Cmd ω τ ρ ν) → Prop where
  | skip {k : List (Cmd ω τ ρ ν)} : Unfolds holds reads (.skip :: k) .go k
  | seq {c d : Cmd ω τ ρ ν} {k : List (Cmd ω τ ρ ν)} : Unfolds holds reads (.seq c d :: k) .go (c :: d :: k)
  | ite {t : τ} {c d : Cmd ω τ ρ ν} {v : Bool} {k : List (Cmd ω τ ρ ν)} : holds t v →
      Unfolds holds reads (.ite t c d :: k) (.test t v) ((if v then c else d) :: k)
  | loop {t : τ} {c : Cmd ω τ ρ ν} {v : Bool} {k : List (Cmd ω τ ρ ν)} : holds t v →
      Unfolds holds reads (.loop t c :: k) (.test t v) (if v then c :: .loop t c :: k else k)
  | read {r : ρ} {f : ν → Cmd ω τ ρ ν} {x : ν} {k : List (Cmd ω τ ρ ν)} : reads r x →
      Unfolds holds reads (.read r f :: k) .go (f x :: k)

/-! ## Contexts -/

/-- What the operations do to contexts, and what the outcome of a test adds; `none` if it cannot come. -/
structure Rules (ω τ η : Type) where
  op : η → ω → η → Prop
  learn : η → τ → Bool → Option η

def Flow (R : Rules ω τ η) : Cmd ω τ ρ ν → η → η → Prop
  | .skip, h, h' => h = h'
  | .op o, h, h' => R.op h o h'
  | .seq c d, h, h' => ∃ m, c.Flow R h m ∧ d.Flow R m h'
  | .ite t c d, h, h' => (∀ m, R.learn h t true = some m → c.Flow R m h') ∧
      ∀ m, R.learn h t false = some m → d.Flow R m h'
  | .loop t c, h, h' => (∀ m, R.learn h t true = some m → c.Flow R m h) ∧ ∀ m, R.learn h t false = some m → m = h'
  | .read _ f, h, h' => ∀ x, (f x).Flow R h h'

/-- The code `k` of a thread runs from `h` to its end, where the context is `e`. -/
def Flows (R : Rules ω τ η) (e : η) : List (Cmd ω τ ρ ν) → η → Prop
  | [], h => h = e
  | c :: k, h => ∃ m, c.Flow R h m ∧ Flows R e k m

variable {R : Rules ω τ η} {e h h' m : η} {c d : Cmd ω τ ρ ν} {t : τ} {l k : List (Cmd ω τ ρ ν)}

/-! ## Rules -/

theorem Flow.cons (hc : c.Flow R h m) (hl : (block l).Flow R m h') : (block (c :: l)).Flow R h h' := ⟨m, hc, hl⟩

theorem Flow.nil : (block ([] : List (Cmd ω τ ρ ν))).Flow R h h := rfl

theorem Flow.last (hc : c.Flow R h h') : (block [c]).Flow R h h' := ⟨h', hc, rfl⟩

theorem Flow.ite (ht : ∀ v, R.learn h t v = some h) (hc : c.Flow R h h') (hd : d.Flow R h h') :
    (Cmd.ite t c d).Flow R h h' := by
  refine ⟨fun m hm => ?_, fun m hm => ?_⟩ <;>
  · rw [ht] at hm
    cases hm
    assumption

theorem Flow.loop (ht : ∀ v, R.learn h t v = some h) (hc : c.Flow R h h) : (Cmd.loop t c).Flow R h h := by
  refine ⟨fun m hm => ?_, fun m hm => ?_⟩ <;>
  · rw [ht] at hm
    cases hm
    first | assumption | rfl

theorem Flow.oneOf (ht : ∀ v, R.learn h t v = some h) (hl : ∀ c ∈ l, c.Flow R h h) : (oneOf t l).Flow R h h := by
  induction l with
  | nil => rfl
  | cons c l ih =>
    exact .ite ht (hl c List.mem_cons_self) (ih fun d hd => hl d (List.mem_cons_of_mem c hd))

/-! ## Steps -/

theorem Unfolds.holds {holds : τ → Bool → Prop} {reads : ρ → ν → Prop} {v : Event ω τ} {b : Bool}
    (hu : Unfolds holds reads k v l) (hv : v = .test t b) : holds t b := by
  cases hu <;> cases hv <;> assumption

theorem Unfolds.not_op {holds : τ → Bool → Prop} {reads : ρ → ν → Prop} {o : ω} :
    ¬ Unfolds holds reads k (.op o) l := by
  intro hu
  cases hu

theorem Flows.unfold {holds : τ → Bool → Prop} {reads : ρ → ν → Prop} {v : Event ω τ} (hk : Flows R e k h)
    (hu : Unfolds holds reads k v l)
    (hlearn : ∀ t b, v = .test t b → ∃ m, R.learn h t b = some m) :
    ∃ m, Flows R e l m ∧ (m = h ∨ ∃ t b, v = .test t b ∧ R.learn h t b = some m) := by
  cases hu with
  | skip =>
    obtain ⟨m, hc, hk⟩ := hk
    exact ⟨m, hk, Or.inl hc.symm⟩
  | seq =>
    obtain ⟨m, ⟨i, hc, hd⟩, hk⟩ := hk
    exact ⟨h, ⟨i, hc, m, hd, hk⟩, Or.inl rfl⟩
  | @ite t c d b k hb =>
    obtain ⟨i, hm⟩ := hlearn t b rfl
    obtain ⟨m, ⟨hc, hd⟩, hk⟩ := hk
    refine ⟨i, ⟨m, ?_, hk⟩, Or.inr ⟨t, b, rfl, hm⟩⟩
    cases b with
    | true => exact hc i hm
    | false => exact hd i hm
  | @loop t c b k hb =>
    obtain ⟨i, hm⟩ := hlearn t b rfl
    obtain ⟨m, ⟨hc, hd⟩, hk⟩ := hk
    refine ⟨i, ?_, Or.inr ⟨t, b, rfl, hm⟩⟩
    cases b with
    | true => exact ⟨h, hc i hm, m, ⟨hc, hd⟩, hk⟩
    | false =>
      rw [hd i hm]
      exact hk
  | read =>
    obtain ⟨m, hf, hk⟩ := hk
    exact ⟨h, ⟨m, hf _, hk⟩, Or.inl rfl⟩

end Cmd

end Kernel.Lib
