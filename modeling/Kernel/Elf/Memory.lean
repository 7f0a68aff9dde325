import Kernel.Elf.Code
import Kernel.Vmm.Cleared

/-!
# What the operations of the loader leave in memory

Each operation refines one on the bytes of the address space, so a list of them does too.
-/

namespace Kernel

open Lib

/-! ## One byte -/

section

variable {s u t : Machine} {F F' D : Set Nat} {p root f g i j va c : Nat} {b : Byte} {w : Word} {M : Image}
  {nodes : Nat → BlockIO}

theorem setByte_frameByte : (s.setByte f j b).frameByte g i = if g = f ∧ i = j then b else s.frameByte g i := by
  have hword : ∀ k, (s.setByte f j b).mem g k =
      if g = f ∧ k = j / 8 then wordOfBytes fun l => if l = j % 8 then b else wordByte (s.mem f (j / 8)) l
      else s.mem g k := fun k => rfl
  unfold Machine.frameByte
  rw [hword]
  split_ifs with hslot hbyte hbyte
  · rw [wordByte_wordOfBytes _ (by omega), if_pos (by omega)]
  · rw [wordByte_wordOfBytes _ (by omega), if_neg (by omega), hslot.1, hslot.2]
  · exact absurd ⟨hbyte.1, by rw [hbyte.2]⟩ hslot
  · rfl

theorem Space.poke_tables (h : Space s F D p root) (hf : f ∈ s.lowerPages root) :
    ∀ g ∈ s.lowerTables root, (s.poke f j w).mem g = s.mem g := by
  rintro g ⟨ρ, hρ, hlen, hw⟩
  refine Machine.poke_mem_of_ne ?_
  rintro rfl
  obtain ⟨π, hπ, hlen', hw'⟩ := hf
  have := congrArg List.length (h.forest.paths_inj hρ hπ (by omega) (by omega) hw hw')
  omega

theorem Space.poke (h : Space s F D p root) (hf : f ∈ s.lowerPages root) : Space (s.poke f j w) F D p root := by
  have hfD := h.pages hf
  refine ⟨h.wf.congr rfl rfl rfl fun g hg => Machine.poke_mem_of_ne ?_, h.owned, h.root_mem, ?_⟩
  · rintro rfl
    exact (h.owned g hfD).1 hg
  · exact h.forest.congr_walk (fun π hπ hlen => lower_walk_congr hπ hlen (h.poke_tables hf)) fun _ _ => rfl

def Image.put (M : Image) (p : Nat) (b : Byte) : Image := fun a => if a = p then some b else M a

theorem pageEntry_of_userByte {a : Nat} (h : (s.userByte root a).isSome) :
    ∃ entry, s.pageEntry root (a / FRAME_SIZE) = some entry := by
  unfold Machine.userByte at h
  rw [Option.isSome_map] at h
  exact Option.isSome_iff_exists.mp h

theorem setByte_userByte (h : Space s F D p root) (hva : va < 2 ^ 47) {entry : Word}
    (hentry : s.pageEntry root (va / FRAME_SIZE) = some entry) {a : Nat} (ha : a < 2 ^ 47) :
    (s.setByte (entryPpn entry) (va % FRAME_SIZE) b).userByte root a = Image.put (s.userByte root) va b a := by
  have hv : va / FRAME_SIZE < 2 ^ 35 := by
    simp only [FRAME_SIZE]; omega
  have hv' : a / FRAME_SIZE < 2 ^ 35 := by
    simp only [FRAME_SIZE]; omega
  have htables : ∀ g ∈ s.lowerTables root, (s.setByte (entryPpn entry) (va % FRAME_SIZE) b).mem g = s.mem g :=
    h.poke_tables (Machine.page_mem hv hentry)
  unfold Image.put Machine.userByte
  rw [pageEntry_congr hv' htables]
  cases he : s.pageEntry root (a / FRAME_SIZE) with
  | none =>
    rw [if_neg fun e => ?_]
    · rfl
    · rw [← e, he] at hentry
      cases hentry
  | some entry' =>
    rw [Option.map_some, Option.map_some, setByte_frameByte]
    by_cases ha' : a = va
    · obtain rfl := ha'
      obtain rfl := Option.some.inj (he.symm.trans hentry)
      rw [if_pos ⟨rfl, rfl⟩, if_pos rfl]
    · rw [if_neg ha', if_neg]
      rintro ⟨hframe, hoff⟩
      have hvpn := h.frames_inj hv' hv he hentry hframe
      refine ha' ?_
      simp only [FRAME_SIZE] at hvpn hoff
      omega

theorem putByte_target (h : s.storeTarget va = some f) :
    (putByte nodes va b).run s = some ((), s.setByte f (va % FRAME_SIZE) b) := by
  unfold putByte storeFrame
  rw [Prog.bind_run (a := f) (u := s)]
  · rfl
  · rw [Prog.get_bind_run, h]
    rfl

theorem Space.ensureMappedPage_there (h : Space s F D s.acting root) (hr : OnRoot s root) (hva : va < 2 ^ 47)
    {entry : Word} (he : s.pageEntry root (va / FRAME_SIZE) = some entry) :
    (ensureMappedPage nodes (va / FRAME_SIZE * FRAME_SIZE)).run s = some (true, s) := by
  have hpage : va / FRAME_SIZE * FRAME_SIZE / FRAME_SIZE = va / FRAME_SIZE := by
    simp only [FRAME_SIZE]
    omega
  have hlow : va / FRAME_SIZE * FRAME_SIZE < 2 ^ 47 := by
    simp only [FRAME_SIZE]
    omega
  unfold ensureMappedPage
  rw [Prog.bind_run (h.isMapped_run hr hlow), hpage, he]
  rfl

/-- If the page is there and the store is made, it does not fault: the handler would change nothing. -/
theorem putByte_made (hensure : (ensureMappedPage nodes (va / FRAME_SIZE * FRAME_SIZE)).run s = some (true, s))
    (hrun : (putByte nodes va b).run s = some ((), t)) :
    ∃ f, s.storeTarget va = some f ∧ t = s.setByte f (va % FRAME_SIZE) b := by
  cases htarget : s.storeTarget va with
  | some f =>
    rw [putByte_target htarget, Option.some.injEq, Prod.mk.injEq] at hrun
    exact ⟨f, rfl, hrun.2.symm⟩
  | none =>
    obtain ⟨f, u, hframe, -⟩ := Prog.run_bind.mp hrun
    unfold storeFrame at hframe
    rw [Prog.get_bind_run] at hframe
    simp only [htarget] at hframe
    rw [Prog.bind_run hensure, Prog.assert_bind_run rfl, Prog.get_bind_run] at hframe
    simp only [htarget] at hframe
    exact absurd hframe Prog.run_panic.mp

theorem Holding.setByte (h : Holding s F D root u F' M c) (hva : va < 2 ^ 47) {entry : Word}
    (hentry : u.pageEntry root (va / FRAME_SIZE) = some entry) :
    Holding s F D root (u.setByte (entryPpn entry) (va % FRAME_SIZE) b) F' (M.put va b) c := by
  have hpage := Machine.page_mem (show va / FRAME_SIZE < 2 ^ 35 by simp only [FRAME_SIZE]; omega) hentry
  have hpageD := h.space.pages hpage
  have hother : ∀ g, g ≠ entryPpn entry → (u.setByte (entryPpn entry) (va % FRAME_SIZE) b).mem g = u.mem g :=
    fun g hg => Machine.poke_mem_of_ne hg
  have htables : ∀ g ∈ u.lowerTables root, (u.setByte (entryPpn entry) (va % FRAME_SIZE) b).mem g = u.mem g :=
    h.space.poke_tables hpage
  refine ⟨h.space.poke hpage, ⟨h.evolves.sub, fun g hg => ?_, h.evolves.regs⟩, h.sub, ?_, ?_,
    h.cost, fun a ha => ?_, fun Q hQ hs => (h.entries Q hQ hs).congr htables⟩
  · have hne : g ≠ entryPpn entry := fun e => hg (h.evolves.sub (Or.inr (e ▸ hpageD)))
    exact ⟨(hother g hne).trans (h.evolves.other g hg).1, (h.evolves.other g hg).2⟩
  · unfold Machine.lowerFrames at *
    rw [lowerTables_congr htables, lowerPages_congr htables]
    exact h.frames
  · -- The next frame of the list is free, so it is not the page.
    intro havail i hi
    refine (congrFun (hother _ ?_) i).trans (h.zeros havail i hi)
    obtain ⟨l, hl, hF⟩ := h.space.wf
    cases l with
    | nil => exact absurd hl.chain havail
    | cons g l =>
      have hg : u.frameOf u.avail = g := by
        rw [hl.chain.1]
        exact frameOf_vaOf u g 0 (by omega)
      show u.frameOf u.avail ≠ _
      rw [hg]
      rintro rfl
      exact (h.space.owned _ hpageD).1 ((hF _).mpr (Or.inl List.mem_cons_self))
  · rw [setByte_userByte h.space hva hentry ha]
    unfold Image.put
    rw [h.bytes a ha]

theorem Holding.there (h : Holding s F D root u F' M c) (hva : va < 2 ^ 47) (hthere : (M va).isSome) :
    ∃ entry, u.pageEntry root (va / FRAME_SIZE) = some entry :=
  pageEntry_of_userByte (by rwa [h.bytes va hva])

theorem Holding.small (h : Holding s F D root u F' M c) (hr : OnRoot s root) (hs : SmallOnly s root) :
    SmallOnly u u.root := by
  rw [(h.onRoot hr).root h.next.root_lt]
  exact h.entries _ ofMap_small hs

theorem Holding.put (h : Holding s F D root u F' M c) (hr : OnRoot s root) (hs : SmallOnly s root) (hva : va < 2 ^ 47)
    (hthere : (M va).isSome) (hrun : (putByte nodes va b).run u = some ((), t)) :
    Holding s F D root t F' (M.put va b) c := by
  obtain ⟨entry, hentry⟩ := h.there hva hthere
  obtain ⟨f, htarget, rfl⟩ := putByte_made (h.next.ensureMappedPage_there (h.onRoot hr) hva hentry) hrun
  rw [(h.small hr hs).target_eq hva (by rwa [(h.onRoot hr).root h.next.root_lt]) htarget]
  exact h.setByte hva hentry

theorem Holding.put_returns (nodes : Nat → BlockIO) (b : Byte) (h : Holding s F D root u F' M c) (hr : OnRoot s root)
    (hs : SmallOnly s root) (ho : StoreOpen s root) (hva : va < 2 ^ 47) (hthere : (M va).isSome) :
    ∃ t, (putByte nodes va b).run u = some ((), t) := by
  obtain ⟨entry, hentry⟩ := h.there hva hthere
  have hroot : u.root = root := (h.onRoot hr).root h.next.root_lt
  have hopen : StoreOpen u u.root := by
    rw [hroot]
    exact h.entries _ ofMap_writable ho
  exact ⟨_, putByte_target (hopen.target (h.small hr hs) hva (by rwa [hroot]))⟩

end

end Kernel
