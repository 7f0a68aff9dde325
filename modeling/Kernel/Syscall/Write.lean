import Kernel.Syscall.Buffer
import Kernel.Vmm.Fault

/-!
# `write` (`syscall.cc`)

The buffer is checked, its pages are mapped, and then its bytes are put out.
-/

namespace Kernel

open Lib

/-- `*va` for a user address. Without the page the access faults. -/
def deref (va : Nat) : K Byte := do
  let s ← get
  match s.userByte s.root va with
  | some b => pure b
  | none => Prog.panic

/-- The loop of `putch`: the bytes that are put out. -/
def putLoop (buffer : Nat) : Nat → K (List Byte)
  | 0 => pure []
  | n + 1 => do
    let out ← putLoop buffer n
    let ch ← deref (buffer + n)
    pure (out ++ [ch])

/-- The value that `write` returns, and what it puts out. `turns` bounds the page loop. -/
def sys_write (nodes : Nat → BlockIO) (turns rdi rsi rdx : Nat) : K (Int × List Byte) := do
  if rdi ≠ 1 then pure (-1, [])
  else if ¬ is_valid_user_buffer rsi rdx then pure (-1, [])
  else do
    let mapped ← is_user_range_mapped nodes turns rsi rdx
    if mapped = false then pure (-1, [])
    else do
      let out ← putLoop rsi rdx
      pure ((BitVec.ofNat 64 rdx).toInt, out)

/-! ## The page loop -/

/-- Each turn of the page loop that starts at `va`, and of which there are `n`, starts in a state with `P`. -/
def EachTurn (nodes : Nat → BlockIO) (P : Nat → Machine → Prop) : Nat → Nat → Machine → Prop
  | 0, _, _ => True
  | n + 1, va, s => P va s ∧ ∀ t, (ensureMappedPage nodes va).run s = some (true, t) →
      EachTurn nodes P n (add64 va FRAME_SIZE) t

theorem pageLoop_turns {nodes : Nat → BlockIO} {lastPage k turns va : Nat} (hlast : va + k * FRAME_SIZE = lastPage)
    (h64 : lastPage < 2 ^ 64) (ht : k < turns) :
    pageLoop nodes lastPage turns va = pageLoop nodes lastPage (k + 1) va := by
  induction k generalizing turns va with
  | zero =>
    obtain ⟨turns, rfl⟩ : ∃ m, turns = m + 1 := ⟨turns - 1, by omega⟩
    have hva : va = lastPage := by omega
    unfold pageLoop
    simp only [if_pos hva]
  | succ k ih =>
    obtain ⟨turns, rfl⟩ : ∃ m, turns = m + 1 := ⟨turns - 1, by omega⟩
    have hadd : add64 va FRAME_SIZE = va + FRAME_SIZE := by
      simp only [add64, FRAME_SIZE] at *
      omega
    rw [pageLoop, pageLoop, hadd, ih (by rw [← hlast, Nat.succ_mul]; omega) (by omega)]

section

variable {s : Machine} {nodes : Nat → BlockIO} {F D : Set Nat} {root : Nat}

theorem expectedByte_page {pageVa a : Nat} (ha : a / FRAME_SIZE = pageVa / FRAME_SIZE) (hp : pageVa % FRAME_SIZE = 0) :
    s.expectedByte nodes root a =
      (s.userByte root a).or ((s.vmeFor pageVa).map fun vme => vmeByte nodes vme pageVa (a % FRAME_SIZE)) := by
  have hpage : a / FRAME_SIZE * FRAME_SIZE = pageVa := by
    simp only [FRAME_SIZE] at *
    omega
  rw [Machine.expectedByte, hpage]

/-- One turn: the page is there now, or it is not to be had and nothing changed. -/
structure Turn (s : Machine) (nodes : Nat → BlockIO) (F D : Set Nat) (root pageVa : Nat) (b : Bool) (t : Machine)
    (F' D' : Set Nat) : Prop where
  space : Space t F' D' s.acting root
  evolves : Evolves s F D t F' D'
  covered : b = true ↔ (s.expectedByte nodes root pageVa).isSome
  bytes : b = true → ∀ a, a < 2 ^ 47 → t.userByte root a =
    if a / FRAME_SIZE = pageVa / FRAME_SIZE then s.expectedByte nodes root a else s.userByte root a

theorem userByte_isSome {a : Nat} : (s.userByte root a).isSome = (s.pageEntry root (a / FRAME_SIZE)).isSome := by
  rw [Machine.userByte, Option.isSome_map]

theorem ensureMappedPage_turn {pageVa : Nat} (h : Space s F D s.acting root) (hr : OnRoot s root)
    (hp : pageVa % FRAME_SIZE = 0) (hva : pageVa < 2 ^ 47)
    (hread : ∀ vme, s.vmeFor pageVa = some vme → Readable nodes vme) (hclean : FaultClean nodes pageVa s)
    (hframes : FramesLeft pageVa s) :
    ∃ b t F' D', (ensureMappedPage nodes pageVa).run s = some (b, t) ∧ Turn s nodes F D root pageVa b t F' D' := by
  rcases ensureMappedPage_run h hr hva hread hclean hframes with ⟨hsome, hrun⟩ |
    ⟨vme, t, f, w, F', hnone, hvme, hrun, hadded, hbytes⟩ | ⟨hnone, hvme, hrun⟩
  · have hhere : ∀ a, a / FRAME_SIZE = pageVa / FRAME_SIZE → s.expectedByte nodes root a = s.userByte root a := by
      intro a ha
      have hbyte : (s.userByte root a).isSome := by rw [userByte_isSome, ha]; exact hsome
      obtain ⟨b, hb⟩ := Option.isSome_iff_exists.mp hbyte
      rw [Machine.expectedByte, hb, Option.some_or]
    refine ⟨true, s, F, D, hrun, h, Evolves.refl s F D, ?_, fun _ a _ => ?_⟩
    · rw [hhere pageVa rfl, userByte_isSome, hsome]
    · split_ifs with ha
      · exact (hhere a ha).symm
      · rfl
  · have hnot : ∀ a, a / FRAME_SIZE = pageVa / FRAME_SIZE → s.userByte root a = none := by
      intro a ha
      rw [Machine.userByte, ha, hnone]
      rfl
    refine ⟨true, t, F', _, hrun, hadded.space, hadded.evolves, ?_, fun _ a ha => ?_⟩
    · rw [expectedByte_page rfl hp, hvme]
      simp
    · rw [hadded.userByte (leafFlags_masked true true) ha]
      split_ifs with hpage
      · rw [expectedByte_page hpage hp, hnot a hpage, hvme, hbytes _ (by simp only [FRAME_SIZE]; omega)]
        rfl
      · rfl
  · refine ⟨false, s, F, D, hrun, h, Evolves.refl s F D, ?_, fun hb => by cases hb⟩
    rw [expectedByte_page rfl hp, hvme, Machine.userByte, hnone]
    simp

/-- What the page loop leaves when it comes back: all its pages, or one of them is not to be had. -/
structure Looped (s : Machine) (nodes : Nat → BlockIO) (F D : Set Nat) (root va lastPage : Nat) (b : Bool) (t : Machine)
    (F' D' : Set Nat) : Prop where
  space : Space t F' D' s.acting root
  evolves : Evolves s F D t F' D'
  covered : b = true ↔ ∀ a, va ≤ a → a < lastPage + FRAME_SIZE → (s.expectedByte nodes root a).isSome
  bytes : b = true → ∀ a, a < 2 ^ 47 → t.userByte root a =
    if va ≤ a ∧ a < lastPage + FRAME_SIZE then s.expectedByte nodes root a else s.userByte root a

theorem vmeFor_congr {t : Machine} (hr : t.regs = s.regs) (pageVa : Nat) : t.vmeFor pageVa = s.vmeFor pageVa := by
  have hpriv : t.privateVmes = s.privateVmes := by
    have := congrArg Machine.privateVmes hr
    exact this
  have hshared : t.sharedVmes = s.sharedVmes := by
    have := congrArg Machine.sharedVmes hr
    exact this
  rw [Machine.vmeFor, Machine.vmeFor, hpriv, hshared]

theorem Turn.expected {t : Machine} {F' D' : Set Nat} {pageVa : Nat} (h : Turn s nodes F D root pageVa true t F' D')
    {a : Nat} (ha : a < 2 ^ 47) (hpage : a / FRAME_SIZE ≠ pageVa / FRAME_SIZE) :
    t.expectedByte nodes root a = s.expectedByte nodes root a := by
  rw [Machine.expectedByte, h.bytes rfl a ha, if_neg hpage, vmeFor_congr h.evolves.regs, Machine.expectedByte]

theorem expectedByte_isSome {pageVa a : Nat} (ha : a / FRAME_SIZE = pageVa / FRAME_SIZE) :
    (s.expectedByte nodes root a).isSome = (s.expectedByte nodes root pageVa).isSome := by
  unfold Machine.expectedByte
  rw [Option.isSome_or, Option.isSome_or, userByte_isSome, userByte_isSome, Option.isSome_map, Option.isSome_map, ha]

theorem Turn.last {t : Machine} {F' D' : Set Nat} {va : Nat} {b : Bool} (h : Turn s nodes F D root va b t F' D')
    (hva : va % FRAME_SIZE = 0) : Looped s nodes F D root va va b t F' D' := by
  have hpage : ∀ a, va ≤ a ∧ a < va + FRAME_SIZE ↔ a / FRAME_SIZE = va / FRAME_SIZE := by
    intro a
    simp only [FRAME_SIZE] at *
    omega
  refine ⟨h.space, h.evolves, ?_, fun hb a ha => ?_⟩
  · rw [h.covered]
    constructor
    · intro hsome a h1 h2
      rw [expectedByte_isSome ((hpage a).mp ⟨h1, h2⟩)]
      exact hsome
    · exact fun hall => hall va le_rfl ((hpage va).mpr rfl).2
  · rw [h.bytes hb a ha]
    simp only [hpage a]

theorem Turn.stop {t : Machine} {F' D' : Set Nat} {va lastPage : Nat} (h : Turn s nodes F D root va false t F' D')
    (hlast : va < lastPage + FRAME_SIZE) : Looped s nodes F D root va lastPage false t F' D' := by
  have hnot : ¬ (s.expectedByte nodes root va).isSome := fun hs => Bool.false_ne_true (h.covered.mpr hs)
  refine ⟨h.space, h.evolves, ?_, fun hb => absurd hb Bool.false_ne_true⟩
  exact ⟨fun hb => absurd hb Bool.false_ne_true, fun hall => absurd (hall va le_rfl hlast) hnot⟩

theorem Turn.next {u t : Machine} {F₁ D₁ F' D' : Set Nat} {va lastPage : Nat} {b : Bool}
    (h : Turn s nodes F D root va true u F₁ D₁) (hl : Looped u nodes F₁ D₁ root (va + FRAME_SIZE) lastPage b t F' D')
    (hva : va % FRAME_SIZE = 0) (hlast : va ≤ lastPage) (hlow : lastPage + FRAME_SIZE ≤ 2 ^ 47) :
    Looped s nodes F D root va lastPage b t F' D' := by
  have hact := Machine.regs_acting h.evolves.regs
  have hpage : ∀ a, va ≤ a ∧ a < va + FRAME_SIZE ↔ a / FRAME_SIZE = va / FRAME_SIZE := by
    intro a
    simp only [FRAME_SIZE] at *
    omega
  -- A page after this one.
  have hexp : ∀ a, va + FRAME_SIZE ≤ a → a < lastPage + FRAME_SIZE →
      u.expectedByte nodes root a = s.expectedByte nodes root a := by
    intro a h1 h2
    refine h.expected (by omega) fun hhere => ?_
    have := ((hpage a).mpr hhere).2
    omega
  refine ⟨hact ▸ hl.space, h.evolves.trans hl.evolves, ?_, fun hb a ha => ?_⟩
  · rw [hl.covered]
    constructor
    · intro hall a h1 h2
      by_cases hhere : a < va + FRAME_SIZE
      · rw [expectedByte_isSome ((hpage a).mp ⟨h1, hhere⟩)]
        exact h.covered.mp rfl
      · rw [← hexp a (by omega) h2]
        exact hall a (by omega) h2
    · intro hall a h1 h2
      rw [hexp a h1 h2]
      exact hall a (by omega) h2
  · rw [hl.bytes hb a ha, h.bytes rfl a ha]
    by_cases hafter : va + FRAME_SIZE ≤ a ∧ a < lastPage + FRAME_SIZE
    · rw [if_pos hafter, if_pos (by omega), hexp a hafter.1 hafter.2]
    · rw [if_neg hafter]
      exact if_congr ((hpage a).symm.trans (by omega)) rfl rfl

theorem pageLoop_spec {lastPage k : Nat} (hlow : lastPage + FRAME_SIZE ≤ 2 ^ 47) :
    ∀ {s : Machine} {F D : Set Nat} {va turns : Nat}, Space s F D s.acting root → OnRoot s root →
      (∀ pageVa vme, s.vmeFor pageVa = some vme → Readable nodes vme) → va % FRAME_SIZE = 0 →
      va + k * FRAME_SIZE = lastPage → k < turns → EachTurn nodes (FaultClean nodes) (k + 1) va s →
      EachTurn nodes FramesLeft (k + 1) va s →
      ∃ b t F' D', (pageLoop nodes lastPage turns va).run s = some (b, t) ∧
        Looped s nodes F D root va lastPage b t F' D' := by
  have hsize : 0 < FRAME_SIZE := by simp [FRAME_SIZE]
  induction k with
  | zero =>
    intro s F D va turns h hr hread hva hlast ht hclean hframes
    obtain ⟨turns, rfl⟩ : ∃ m, turns = m + 1 := ⟨turns - 1, by omega⟩
    have hlast : va = lastPage := by omega
    subst hlast
    obtain ⟨b, t, F', D', hrun, hturn⟩ := ensureMappedPage_turn h hr hva (by omega) (hread va) hclean.1 hframes.1
    refine ⟨b, t, F', D', ?_, hturn.last hva⟩
    unfold pageLoop
    rw [Prog.bind_run hrun]
    cases b
    · rfl
    · simp
  | succ k ih =>
    intro s F D va turns h hr hread hva hlast ht hclean hframes
    obtain ⟨turns, rfl⟩ : ∃ m, turns = m + 1 := ⟨turns - 1, by omega⟩
    rw [Nat.succ_mul] at hlast
    have hadd : add64 va FRAME_SIZE = va + FRAME_SIZE := by
      simp only [add64, FRAME_SIZE] at *
      omega
    obtain ⟨b, u, F₁, D₁, hrun, hturn⟩ := ensureMappedPage_turn h hr hva (by omega) (hread va) hclean.1 hframes.1
    unfold pageLoop
    rw [Prog.bind_run hrun]
    cases b with
    | false => exact ⟨false, u, F₁, D₁, rfl, hturn.stop (by omega)⟩
    | true =>
      have hclean' := hclean.2 u hrun
      have hframes' := hframes.2 u hrun
      rw [hadd] at hclean' hframes'
      obtain ⟨b, t, F', D', hloop, hl⟩ := @ih u F₁ D₁ (va + FRAME_SIZE) turns
        (by rw [Machine.regs_acting hturn.evolves.regs]; exact hturn.space) (hr.congr hturn.evolves.regs)
        (fun p vme hp => hread p vme (by rw [← vmeFor_congr hturn.evolves.regs]; exact hp))
        (by simp only [FRAME_SIZE] at *; omega) (by omega) (by omega) hclean' hframes'
      refine ⟨b, t, F', D', ?_, hturn.next hl hva (by omega) hlow⟩
      rw [if_neg (by simp), if_neg (by omega), hadd]
      exact hloop

end

end Kernel
