import Kernel.Vmm.Mmap

/-!
# The list of private mappings

`munmap` cuts a range out of the list, and what is left of a VME names the same
bytes of its file.
-/

namespace Kernel

open Lib

def vmeSpan : Span VME := ⟨VME.start, VME.end⟩

@[simp] theorem vmeSpan_lo (vme : VME) : vmeSpan.lo vme = vme.start := rfl
@[simp] theorem vmeSpan_hi (vme : VME) : vmeSpan.hi vme = vme.end := rfl

/-- A whole number of pages of the lower half, and no other process has it. -/
structure VME.Private (vme : VME) : Prop where
  forward : vme.start ≤ vme.end
  low : 0x1000 ≤ vme.start
  high : vme.end ≤ 2 ^ 47
  aligned : vme.start % FRAME_SIZE = 0 ∧ vme.end % FRAME_SIZE = 0
  unshared : vme.shared = false

/-- In order of address and apart. -/
structure PrivateVmes (l : List VME) : Prop where
  ordered : vmeSpan.Ordered l
  each : ∀ vme ∈ l, vme.Private

/-- The byte of the file behind address `va`. -/
def VME.fileAt (vme : VME) (va : Nat) : Nat := add64 vme.offset (sub64 va vme.start)

/-- `w` is a part of `v`. -/
structure VME.Part (v w : VME) : Prop where
  node : w.node = v.node
  file : ∀ va, w.fileAt va = v.fileAt va
  unshared : v.shared = false → w.shared = false
  aligned : v.start % FRAME_SIZE = 0 ∧ v.end % FRAME_SIZE = 0 → w.start % FRAME_SIZE = 0 ∧ w.end % FRAME_SIZE = 0
  nonempty : v.start < v.end → w.start < w.end

theorem VME.Part.refl (v : VME) : v.Part v := ⟨rfl, fun _ => rfl, id, id, id⟩

section

variable {s t : Machine} {start stop overlap_start overlap_end : Nat} {vme : VME} {l l' kept : List VME}
  {touched : Bool} {r : Int}

/-- `VME` and range have an address in common. -/
def VME.Meets (vme : VME) (start stop : Nat) : Prop := max start vme.start < min stop vme.end

instance (vme : VME) (start stop : Nat) : Decidable (vme.Meets start stop) := by
  unfold VME.Meets; infer_instance

/-! ## One node -/

theorem fileAt_moved (offset va i : Nat) {j : Nat} (hj : j ≤ 2 ^ 47) :
    add64 (add64 offset (sub64 j i)) (sub64 va j) = add64 offset (sub64 va i) := by
  unfold add64 sub64
  omega

theorem VME.Part.front {i : Nat} (hi : i % FRAME_SIZE = 0) (h : vme.start < i) :
    vme.Part { vme with «end» := i } :=
  ⟨rfl, fun _ => rfl, id, fun ha => ⟨ha.1, hi⟩, fun _ => h⟩

theorem VME.Part.back (addr : Nat) {j : Nat} (hj : j % FRAME_SIZE = 0) (h : j < vme.end) (hv : vme.Private) :
    vme.Part ⟨addr, j, vme.end, vme.shared, vme.node, add64 vme.offset (sub64 j vme.start)⟩ :=
  ⟨rfl, fun va => fileAt_moved vme.offset va vme.start (Nat.le_trans (Nat.le_of_lt h) hv.high), id,
    fun ha => ⟨hj, ha.2⟩, fun _ => h⟩

theorem VME.max_start (vme : VME) (start : Nat) :
    (if start > vme.start then start else vme.start) = max start vme.start := by
  split_ifs <;> omega

theorem VME.min_end (vme : VME) (stop : Nat) : (if stop < vme.end then stop else vme.end) = min stop vme.end := by
  split_ifs <;> omega

theorem cutVme_left (hv : vme.Private) (hstart : start % FRAME_SIZE = 0) (hstop : stop % FRAME_SIZE = 0)
    (hmeets : vme.Meets start stop)
    (hrun : (cutVme (max start vme.start) (min stop vme.end) vme).run s = some (kept, t)) :
    vmeSpan.Left VME.Part start stop vme kept := by
  unfold VME.Meets at hmeets
  unfold cutVme at hrun
  rcases Prog.run_ite.mp hrun with ⟨⟨hs, he⟩, hrun⟩ | ⟨hnot, hrun⟩
  · -- The whole node goes.
    rw [deleteVME, Prog.modify_bind_run, Prog.run_pure] at hrun
    obtain ⟨rfl, -⟩ := hrun
    refine ⟨List.Pairwise.nil, by simp, by simp, by simp, by simp, fun n hn hout => ?_⟩
    simp only [Span.Holds, vmeSpan_lo, vmeSpan_hi] at hn
    omega
  rcases Prog.run_ite.mp hrun with ⟨hs, hrun⟩ | ⟨hs, hrun⟩
  · -- The start goes.
    rw [Prog.run_pure, hs] at hrun
    obtain ⟨rfl, -⟩ := hrun
    have hj : min stop vme.end = stop := by omega
    rw [hj]
    have hpart := VME.Part.back vme.addr hstop (show stop < vme.end by omega) hv
    refine ⟨List.pairwise_singleton _ _, ?_, ?_, ?_, by simpa using hpart,
      fun n hn hout => ⟨_, List.mem_singleton_self _, ?_⟩⟩
    all_goals simp only [Span.Holds, vmeSpan_lo, vmeSpan_hi, List.mem_singleton, forall_eq] at *
    all_goals omega
  rcases Prog.run_ite.mp hrun with ⟨he, hrun⟩ | ⟨he, hrun⟩
  · -- The end goes.
    rw [Prog.run_pure] at hrun
    obtain ⟨rfl, -⟩ := hrun
    have hi : max start vme.start = start := by omega
    rw [hi]
    have hpart := VME.Part.front hstart (show vme.start < start by omega)
    refine ⟨List.pairwise_singleton _ _, ?_, ?_, ?_, by simpa using hpart,
      fun n hn hout => ⟨_, List.mem_singleton_self _, ?_⟩⟩
    all_goals simp only [Span.Holds, vmeSpan_lo, vmeSpan_hi, List.mem_singleton, forall_eq] at *
    all_goals omega
  · -- The middle goes.
    obtain ⟨addr, u, -, hrun⟩ := Prog.run_bind.mp hrun
    rw [Prog.run_pure] at hrun
    obtain ⟨rfl, -⟩ := hrun
    have hi : max start vme.start = start := by omega
    have hj : min stop vme.end = stop := by omega
    rw [hi, hj]
    have hfront := VME.Part.front hstart (show vme.start < start by omega)
    have hback := VME.Part.back addr hstop (show stop < vme.end by omega) hv
    refine ⟨?_, ?_, ?_, ?_, by simpa using ⟨hfront, hback⟩, fun n hn hout => ?_⟩
    · exact List.pairwise_pair.mpr (by simp only [vmeSpan_lo, vmeSpan_hi]; omega)
    · simp; omega
    · simp; omega
    · simp only [Span.Holds, List.mem_cons, List.not_mem_nil, or_false, forall_eq_or_imp, forall_eq,
        vmeSpan_lo, vmeSpan_hi]
      exact ⟨fun n hn => Or.inl hn.2, fun n hn => Or.inr hn.1⟩
    · simp only [Span.Covers, Span.Holds, vmeSpan_lo, vmeSpan_hi, List.mem_cons, List.not_mem_nil, or_false,
        exists_eq_or_imp, exists_eq_left] at *
      omega

/-! ## The whole list -/

theorem not_meets (h : ¬ vme.Meets start stop) (n : Nat) (hn : vmeSpan.Holds vme n) : n < start ∨ stop ≤ n := by
  unfold VME.Meets at h
  simp only [Span.Holds, vmeSpan_lo, vmeSpan_hi] at hn
  omega

theorem PrivateVmes.tail (h : PrivateVmes (vme :: l)) : PrivateVmes l :=
  ⟨(List.pairwise_cons.mp h.ordered).2, fun v hv => h.each v (by simp [hv])⟩

theorem PrivateVmes.behind (h : PrivateVmes (vme :: l)) (hstop : stop ≤ vme.start) (v : VME) (hv : v ∈ vme :: l) :
    ¬ v.Meets start stop := by
  unfold VME.Meets
  rcases List.mem_cons.mp hv with rfl | hv
  · omega
  · have hpair : vme.end ≤ v.start := (List.pairwise_cons.mp h.ordered).1 v hv
    have := (h.each vme (by simp)).forward
    omega

theorem PrivateVmes.uncut (h : PrivateVmes l) (hnone : ∀ v ∈ l, ¬ v.Meets start stop) :
    vmeSpan.CutOut VME.Part start stop l l :=
  Span.CutOut.whole (fun v hv => (h.each v hv).forward) (fun v hv => not_meets (hnone v hv)) VME.Part.refl

/-- **The loop of `munmap`.** It cuts its range out of every node, and returns 0 when a node met the range. -/
theorem munmapFrom_cuts (hl : PrivateVmes l) (hstart : start % FRAME_SIZE = 0) (hstop : stop % FRAME_SIZE = 0)
    (hrun : (munmapFrom start stop touched l).run s = some ((l', r), t)) :
    vmeSpan.CutOut VME.Part start stop l l' ∧
      r = if touched = true ∨ ∃ vme ∈ l, vme.Meets start stop then 0 else -1 := by
  induction l generalizing s t touched l' with
  | nil =>
    unfold munmapFrom at hrun
    rw [Prog.run_pure, Prod.mk.injEq] at hrun
    obtain ⟨⟨rfl, rfl⟩, -⟩ := hrun
    exact ⟨Span.CutOut.nil, by simp⟩
  | cons vme next ih =>
    have hv := hl.each vme (by simp)
    unfold munmapFrom at hrun
    -- The node stays.
    have hkept : ¬ vme.Meets start stop →
        (keepVmes [vme] (munmapFrom start stop touched next)).run s = some ((l', r), t) →
        vmeSpan.CutOut VME.Part start stop (vme :: next) l' ∧
          r = if touched = true ∨ ∃ v ∈ vme :: next, v.Meets start stop then 0 else -1 := by
      intro hmeets hrun
      obtain ⟨⟨rest, r'⟩, u, hrest, hrun⟩ := Prog.run_bind.mp hrun
      rw [Prog.run_pure, Prod.mk.injEq] at hrun
      obtain ⟨⟨rfl, rfl⟩, -⟩ := hrun
      obtain ⟨hcut, hr⟩ := ih hl.tail hrest
      refine ⟨Span.CutOut.cons (Span.Left.whole hv.forward (not_meets hmeets) (VME.Part.refl vme)) hcut, ?_⟩
      rw [hr]
      simp [hmeets]
    rcases Prog.run_ite.mp hrun with ⟨hbehind, hrun⟩ | ⟨hbehind, hrun⟩
    · rw [Prog.run_pure, Prod.mk.injEq] at hrun
      obtain ⟨⟨rfl, rfl⟩, -⟩ := hrun
      have hnone : ∀ v ∈ vme :: next, ¬ v.Meets start stop := hl.behind hbehind
      have hex : ¬ ∃ v ∈ vme :: next, v.Meets start stop := fun ⟨v, hv, hm⟩ => hnone v hv hm
      exact ⟨hl.uncut hnone, by simp only [hex, or_false]⟩
    rcases Prog.run_ite.mp hrun with ⟨hbefore, hrun⟩ | ⟨hbefore, hrun⟩
    · exact hkept (by unfold VME.Meets; omega) hrun
    rcases Prog.run_ite.mp hrun with ⟨hshared, -⟩ | ⟨-, hrun⟩
    · rw [hv.unshared] at hshared
      cases hshared
    simp only [vme.max_start, vme.min_end] at hrun
    rcases Prog.run_ite.mp hrun with ⟨hempty, hrun⟩ | ⟨hmeets, hrun⟩
    · exact hkept (by unfold VME.Meets; omega) hrun
    have hmeets : vme.Meets start stop := by
      unfold VME.Meets
      omega
    obtain ⟨-, u, -, hrun⟩ := Prog.run_bind.mp hrun
    obtain ⟨kept, v, hcutrun, hrun⟩ := Prog.run_bind.mp hrun
    obtain ⟨⟨rest, r'⟩, w, hrest, hrun⟩ := Prog.run_bind.mp hrun
    rw [Prog.run_pure, Prod.mk.injEq] at hrun
    obtain ⟨⟨rfl, rfl⟩, -⟩ := hrun
    obtain ⟨hcut, hr⟩ := ih hl.tail hrest
    refine ⟨Span.CutOut.cons (cutVme_left hv hstart hstop hmeets hcutrun) hcut, ?_⟩
    rw [hr]
    simp [hmeets]

theorem PrivateVmes.cut (h : PrivateVmes l) (hcut : vmeSpan.CutOut VME.Part start stop l l') : PrivateVmes l' := by
  refine ⟨hcut.ordered h.ordered, fun w hw => ?_⟩
  obtain ⟨v, hv, hpart, hlo, hmid, hhi, -⟩ := hcut.part hw
  have hpriv := h.each v hv
  simp only [vmeSpan_lo, vmeSpan_hi] at hlo hmid hhi
  exact ⟨hmid, Nat.le_trans hpriv.low hlo, Nat.le_trans hhi hpriv.high, hpart.aligned hpriv.aligned,
    hpart.unshared hpriv.unshared⟩

theorem add64_aligned {i j : Nat} (hi : i % FRAME_SIZE = 0) (hj : j % FRAME_SIZE = 0) : add64 i j % FRAME_SIZE = 0 := by
  simp only [add64, FRAME_SIZE] at *
  omega

/-! ## The call -/

/-- The arguments pass the checks of `munmap`. -/
def Machine.mayUnmap (s : Machine) (start length : Nat) : Prop :=
  start % FRAME_SIZE = 0 ∧ length ≠ 0 ∧ ¬ s.isSharedAddress start ∧ start ≤ add64 start (roundUpPage length)

instance (s : Machine) (start length : Nat) : Decidable (s.mayUnmap start length) := by
  unfold Machine.mayUnmap; infer_instance

theorem munmap_checked {length : Nat} (h : s.mayUnmap start length) :
    (munmap start length).run s =
      ((munmapFrom start (add64 start (roundUpPage length)) false s.privateVmes).run s).map fun x =>
        (x.1.2, { x.2 with privateVmes := x.1.1 }) := by
  obtain ⟨haligned, hlength, hshared, hwrap⟩ := h
  rw [munmap, Prog.get_bind_run, if_neg (by simp [haligned]), if_neg hlength, if_neg hshared]
  dsimp only
  rw [if_neg (by omega), StateT.run_bind]
  cases (munmapFrom start (add64 start (roundUpPage length)) false s.privateVmes).run s <;> rfl

theorem munmap_refused {length : Nat} (h : ¬ s.mayUnmap start length) : (munmap start length).run s = some (-1, s) := by
  rw [munmap, Prog.get_bind_run]
  by_cases haligned : start % FRAME_SIZE = 0
  · rw [if_neg (by simp [haligned])]
    by_cases hlength : length = 0
    · rw [if_pos hlength]
      rfl
    · rw [if_neg hlength]
      by_cases hshared : s.isSharedAddress start
      · rw [if_pos hshared]
        rfl
      · rw [if_neg hshared]
        dsimp only
        rw [if_pos (Nat.lt_of_not_le fun hwrap => h ⟨haligned, hlength, hshared, hwrap⟩)]
        rfl
  · rw [if_pos haligned]
    rfl

/-- **`munmap` and the list.** The range is cut out of it, and the call says whether a node met the range. -/
theorem munmap_cuts {length : Nat} (hl : PrivateVmes s.privateVmes) (h : s.mayUnmap start length)
    (hrun : (munmap start length).run s = some (r, t)) :
    vmeSpan.CutOut VME.Part start (add64 start (roundUpPage length)) s.privateVmes t.privateVmes ∧
      r = if ∃ vme ∈ s.privateVmes, vme.Meets start (add64 start (roundUpPage length)) then 0 else -1 := by
  rw [munmap_checked h, Option.map_eq_some_iff] at hrun
  obtain ⟨⟨⟨vmes, result⟩, u⟩, hloop, hrun⟩ := hrun
  obtain ⟨rfl, rfl⟩ := Prod.mk.inj hrun
  obtain ⟨hcut, hr⟩ := munmapFrom_cuts hl h.1 (add64_aligned h.1 (roundUpPage_aligned length)) hloop
  exact ⟨hcut, by simpa using hr⟩

end

end Kernel
