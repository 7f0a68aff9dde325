import Kernel.Process.Life

/-!
# Who may wait for whom

A slot names its parent by a pid. That is the parent as long as no new process
is given the pid of one that left a child behind.
-/

namespace Kernel

open Lib

/-- A new process does not get a pid that a slot in use names as its parent. -/
def FreshPid (s : ProcessState) : ProcessOp → Prop
  | .fork _ c => ∀ d : Int, 0 < d → d < maxProcesses → (s.table.processTable d).used = true →
      (s.table.processTable d).parent ≠ c
  | _ => True

/-- The pid that a slot names is that of the instance whose `fork` claimed the slot. -/
def Named (s : ProcessState) : Prop :=
  ∀ c d : Int, 0 < c → c < maxProcesses → 0 < d → d < maxProcesses →
    (s.table.processTable c).used = true → (s.table.processTable d).used = true →
    (s.table.processTable c).parent = d → s.parent (s.holder c) = some (s.holder d)

section

variable {s t : ProcessState} {i j : Nat}

theorem Named.step (hn : Named s) (hi : ProcessInv s) {a : ProcessOp} (hg : FreshPid s a) (h : ProcessStep s a t) :
    Named t := by
  intro c d hc hcl hd hdl huc hud hp
  rcases hi.step_cases h with ⟨hs, -, -⟩ | ⟨i, e, rfl, hu, hf⟩ | ⟨i, j, -, -, rfl⟩ | ⟨i, rdi, -, hu, rfl⟩ |
    ⟨i, e, p, -, -, hr⟩
  · rw [hs.entries] at huc hud hp
    rw [hs.parent, hs.holder]
    exact hn c d hc hcl hd hdl huc hud hp
  · have hs := hi.slot i (by rw [hu]; rfl)
    have hold : ∀ {k : Int}, 0 < k → k < maxProcesses → (s.table.processTable k).used = true →
        s.holder k ≠ s.count := by
      intro k hk hkl hku e
      have := hi.born (s.holder k) fun h => by
        have := (hi.used k hk hkl hku).1
        rw [h] at this
        cases this
      omega
    have hother : ∀ {k}, k ≠ e → t.table.processTable k = s.table.processTable k := fun hk => by
      rw [hf.entries, Processes.set_other _ hk]
    by_cases hce : c = e
    · -- The new slot names the instance that forked.
      have hd' : d = s.pid i := by
        rw [← hp, hce, hf.entries, Processes.set_same]
      have hne : d ≠ e := by
        rintro rfl
        have := hs.used
        rw [← hd', hf.free] at this
        cases this
      rw [hf.holder, hce, Function.update_self, hf.parent, Function.update_self, Function.update_of_ne hne, hd',
        hs.holder]
    · rw [hother hce] at huc hp
      by_cases hde : d = e
      · exact absurd (hp.trans hde) (hg c hc hcl huc)
      · rw [hother hde] at hud
        rw [hf.holder, Function.update_of_ne hce, Function.update_of_ne hde, hf.parent,
          Function.update_of_ne (hold hc hcl huc)]
        exact hn c d hc hcl hd hdl huc hud hp
  · exact hn c d hc hcl hd hdl huc hud hp
  · have hkeep : ∀ k, ((s.table.recordExit (s.pid i) rdi).processTable k).used = (s.table.processTable k).used ∧
        ((s.table.recordExit (s.pid i) rdi).processTable k).parent = (s.table.processTable k).parent := by
      intro k
      by_cases hk : k = s.pid i
      · rw [hk, Processes.recordExit, Processes.set_same]
        exact ⟨rfl, rfl⟩
      · rw [Processes.recordExit, Processes.set_other _ hk]
        exact ⟨rfl, rfl⟩
    exact hn c d hc hcl hd hdl ((hkeep c).1 ▸ huc) ((hkeep d).1 ▸ hud) ((hkeep c).2 ▸ hp)
  · obtain ⟨-, -, -, rfl⟩ := hr
    have hkeep : ∀ k, ((s.table.release e).processTable k).used = true →
        (s.table.release e).processTable k = s.table.processTable k := by
      intro k hk
      by_cases hke : k = e
      · rw [hke, Processes.release, Processes.set_same] at hk
        cases hk
      · rw [Processes.release, Processes.set_other _ hke]
    exact hn c d hc hcl hd hdl (hkeep c huc ▸ huc) (hkeep d hud ▸ hud) (hkeep c huc ▸ hp)

theorem ProcessBoot.named (hb : ProcessBoot s) : Named s := by
  intro c d hc hcl hd hdl huc hud hp
  obtain ⟨u, hrun, -⟩ := hb
  obtain ⟨v, hrun', -, -, hone, hfree⟩ := register_process_pid1_spec (s := u)
  rw [hrun', Option.some.injEq, Prod.mk.injEq] at hrun
  obtain ⟨-, rfl⟩ := hrun
  have hc1 : c = 1 := by
    by_contra hne
    rw [hfree c (by omega) hcl hne] at huc
    cases huc
  rw [hc1, hone] at hp
  exact absurd hp.symm (by simp only; omega)

/-- **Authority.** While every new process gets a fresh pid, `waitpid` reaps only what the same instance forked. -/
theorem fresh_waitpid_authority (h : processSystem.GuardedReachable FreshPid s) {c : Int} {store : Option (BitVec 32)}
    (hstep : ProcessStep s (.turn i j (.reaped c store)) t) :
    s.pid j = c ∧ (s.phase j).held = true ∧ s.parent j = some i := by
  have hi := processInv_of_reachable h.reachable
  have hn : Named s := by
    obtain ⟨s₀, l, hb, hrun⟩ := h
    have := hrun.preserves (I := fun s => ProcessInv s ∧ Named s)
      (fun _ _ _ hI hg hstep => ⟨hI.1.step hstep, hI.2.step hI.1 hg hstep⟩) ⟨hb.inv, hb.named⟩
    exact this.2
  cases hstep with
  | @reaped i p d e st u hw hturn =>
    rcases waitpid_turn_spec hi.ok hturn with ⟨hbad | hbad, -⟩ | ⟨hused, hparent, hexited, -, hres⟩
    · cases hbad
    · cases hbad
    · obtain ⟨rfl, -⟩ := Wait.reaped.inj hres
      obtain ⟨h0, hlt⟩ := hi.waiting _ _ _ hw
      have hs := hi.slot i (by rw [hw]; rfl)
      obtain ⟨hheld, hp⟩ := hi.used _ h0 hlt hused
      refine ⟨hp, hheld, ?_⟩
      rw [hn _ _ h0 hlt hs.range.1 hs.range.2 hused hs.used hparent, hs.holder]

theorem firstChild_authority : ∃ s t, ProcessStep s (.turn 0 1 (.reaped 2 none)) t ∧ s.parent 1 = some 0 := by
  obtain ⟨s, hb, hnext, -, hone, hfree⟩ := boot_run
  obtain ⟨u, t, hrun, hstep⟩ := firstChild_run hb hnext hfree
  have hfork : FreshPid s (.fork 0 2) := by
    intro d hd hdl hud
    have hd1 : d = 1 := by
      by_contra hne
      rw [hfree d (by omega) hdl hne] at hud
      cases hud
    rw [hd1, hone]
    decide
  have hguard := hrun.guarded (G := FreshPid) (by rintro a ⟨⟩; exact hfork) (by simp [FreshPid, firstChild_ops])
  exact ⟨u, t, hstep, (fresh_waitpid_authority ⟨s, _, hb, hguard⟩ hstep).2.2⟩

/-! ## A pid that names two parents -/

/-- Instance 2 has pid 3 and runs. Its parent, instance 1, had pid 2 and is gone, and pid `n` is next. -/
structure Orphan (s : ProcessState) (n : Int) : Prop where
  reachable : processSystem.Reachable s
  init : s.phase 0 = .user ∧ s.pid 0 = 1
  child : s.phase 2 = .user ∧ s.pid 2 = 3
  entry : s.table.processTable 3 = ⟨true, 2, false, 0⟩
  holder : s.holder 3 = 2
  parent : s.parent 2 = some 1
  next : s.table.nextPid = n
  free : ∀ c : Int, 0 ≤ c → c < maxProcesses → c ≠ 1 → c ≠ 3 → (s.table.processTable c).used = false

theorem Orphan.turn {n : Int} (h : Orphan s n) (h4 : 4 ≤ n) (hlt : n < maxProcesses) : ∃ t, Orphan t (succPid n) := by
  have hi := processInv_of_reachable h.reachable
  have hborn := hi.born 2 (by rw [h.child.1]; exact nofun)
  obtain ⟨t, l, hrun, hnext, hsame, hfree, hkeep⟩ := spawn_reap_run hi h.init.1
    (by rw [h.next]; exact h.free n (by omega) hlt (by omega) (by omega))
  rw [h.next] at hnext hsame hfree
  obtain ⟨hpid₀, hphase₀, -⟩ := hkeep 0 (by omega)
  obtain ⟨hpid₂, hphase₂, hparent₂⟩ := hkeep 2 hborn
  obtain ⟨hentry, hholder⟩ := hsame 3 (by omega)
  refine ⟨t, h.reachable.run hrun, ⟨hphase₀.trans h.init.1, hpid₀.trans h.init.2⟩,
    ⟨hphase₂.trans h.child.1, hpid₂.trans h.child.2⟩, hentry.trans h.entry, hholder.trans h.holder,
    hparent₂.trans h.parent, hnext, fun c h0 hcl h1 h3 => ?_⟩
  by_cases hcn : c = n
  · rw [hcn, hfree]
  · rw [(hsame c hcn).1]
    exact h.free c h0 hcl h1 h3

theorem Orphan.turns (k : Nat) (hk : k ≤ 1020) {n : Int} (h : Orphan s n) (hn : n + k = maxProcesses) (hpos : 0 < k) :
    ∃ t, Orphan t 2 := by
  induction k generalizing s n with
  | zero => omega
  | succ k ih =>
    simp only [maxProcesses] at hn
    obtain ⟨t, ht⟩ := h.turn (by omega) (by simp only [maxProcesses]; omega)
    rw [succPid] at ht
    by_cases hlast : n + 1 ≥ maxProcesses
    · rw [if_pos hlast] at ht
      exact ⟨t, ht⟩
    · rw [if_neg hlast] at ht
      simp only [maxProcesses] at hlast
      exact ih (by omega) ht (by simp only [maxProcesses]; omega) (by omega)

/-- The first process forks one that forks and exits, and waits for it. -/
theorem orphan_run : ∃ s, Orphan s 4 := by
  obtain ⟨s, hb, hnext, hp, hone, hfree⟩ := boot_run
  have hi := hb.inv
  have hboot : s.phase 0 = .user ∧ s.count = 1 := by
    obtain ⟨-, -, hcount, hu, -⟩ := hb
    exact ⟨hu, hcount⟩
  obtain ⟨hu, hcount⟩ := hboot
  obtain ⟨t₁, hrun₁, hnext₁, htable₁, hcount₁, hpid₁, hphase₁, -, -⟩ := spawn_run hi hu
    (by rw [hnext]; exact hfree 2 (by decide) (by decide) (by decide))
  rw [hcount, hnext] at *
  have hi₁ := processInv_run hi hrun₁
  have hnext₁ : t₁.table.nextPid = 3 := hnext₁
  have hu₁ : t₁.phase 1 = .user := by rw [hphase₁, Function.update_self]
  obtain ⟨t₂, hrun₂, hnext₂, htable₂, -, hpid₂, hphase₂, hparent₂, hholder₂⟩ := spawn_run hi₁ hu₁
    (by rw [hnext₁, htable₁, Processes.set_other _ (by decide)]; exact hfree 3 (by decide) (by decide) (by decide))
  rw [hcount₁, hnext₁] at *
  have hnext₂ : t₂.table.nextPid = 4 := hnext₂
  have hpid₂₁ : t₂.pid 1 = 2 := by rw [hpid₂, Function.update_of_ne (by decide), hpid₁, Function.update_self]
  have hpid₂₀ : t₂.pid 0 = 1 := by
    rw [hpid₂, Function.update_of_ne (by decide), hpid₁, Function.update_of_ne (by decide), hp]
  have hu₂ : t₂.phase 0 = .user := by
    rw [hphase₂, Function.update_of_ne (by decide), hphase₁, Function.update_of_ne (by decide), hu]
  obtain ⟨u, t, hrun₃, hstep, -, hnext₃, hother, hreaped, -, hpid₃, hparent₃, hholder₃, hphase₃⟩ :=
    exit_reap_run (processInv_run hi₁ hrun₂) (i := 0) (j := 1) hu₂
      (by rw [hphase₂, Function.update_of_ne (by decide), hu₁]) (by decide)
      (by rw [hpid₂₁, hpid₂₀, htable₂, Processes.set_other _ (by decide), htable₁, Processes.set_same, hp])
  rw [hpid₂₁] at hother hreaped
  refine ⟨t, ⟨s, _, hb, (((hrun₁.trans hrun₂).trans hrun₃).snoc hstep)⟩, ⟨?_, ?_⟩, ⟨?_, ?_⟩, ?_, ?_, ?_, ?_,
    fun c h0 hlt h1 h3 => ?_⟩
  · rw [hphase₃ 0 (by decide), hu₂]
  · rw [hpid₃, hpid₂₀]
  · rw [hphase₃ 2 (by decide), hphase₂, Function.update_self]
  · rw [hpid₃, hpid₂, Function.update_self]
  · rw [hother 3 (by decide), htable₂, Processes.set_same, hpid₁, Function.update_self]
  · rw [hholder₃, hholder₂, Function.update_self]
  · rw [hparent₃, hparent₂, Function.update_self]
  · rw [hnext₃, hnext₂]
  · by_cases h2 : c = 2
    · rw [h2, hreaped]
    · rw [hother c h2, htable₂, Processes.set_other _ h3, htable₁, Processes.set_other _ h2]
      exact hfree c h0 hlt h1

/-- **No authority.** After pid 2 was given to a new process, that process reaps the child of another. -/
theorem stranger_reaps : ∃ s t i j, processSystem.Reachable s ∧ ProcessStep s (.turn i j (.reaped 3 none)) t ∧
    s.parent j ≠ some i := by
  obtain ⟨s₀, h₀⟩ := orphan_run
  obtain ⟨s, h⟩ := h₀.turns 1020 (Nat.le_refl _) rfl (by decide)
  have hi := processInv_of_reachable h.reachable
  have hborn := hi.born 2 (by rw [h.child.1]; exact nofun)
  obtain ⟨t, hrun, -, htable, -, hpid, hphase, hparent, -⟩ := spawn_run hi h.init.1
    (by rw [h.next]; exact h.free 2 (by decide) (by decide) (by decide) (by decide))
  rw [h.next] at *
  have hpid₂ : t.pid 2 = 3 := by rw [hpid, Function.update_of_ne (by omega), h.child.2]
  have hparent₂ : t.parent 2 = some 1 := by rw [hparent, Function.update_of_ne (by omega), h.parent]
  obtain ⟨u, v, hrun₂, hstep, hparentu, -⟩ := exit_reap_run (processInv_run hi hrun) (i := s.count) (j := 2)
    (by rw [hphase, Function.update_self]) (by rw [hphase, Function.update_of_ne (by omega), h.child.1]) (by omega)
    (by rw [hpid₂, htable, Processes.set_other _ (by decide), h.entry, hpid, Function.update_self])
  rw [hpid₂] at hstep
  refine ⟨u, v, s.count, 2, (h.reachable.run hrun).run hrun₂, hstep, ?_⟩
  rw [hparentu, hparent₂]
  intro e
  have := Option.some.inj e
  omega

end

end Kernel
