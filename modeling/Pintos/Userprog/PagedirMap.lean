import Pintos.Base.Reach
import Pintos.Userprog.LoadStack

/-!
# Page directories as finite maps

Any number of page directories, with the page tables that `lookup_page` makes. `pteOf` is
the entry of a user page, or 0 where there is no page table; each function changes it for
one page of one directory.
-/

namespace Pintos.Userprog.Loader

open Pintos.Base Pintos.Kernel Pintos.Threads

/-- The pages below `PHYS_BASE`. -/
def userPages : Nat := 768 * 1024

namespace Vm

/-- The page table of an entry of the directory. -/
def tableOf (s : Vm) (pd i : Nat) : Option Nat :=
  if s.entry pd i = 0 then none else some (pdeGetPt (s.entry pd i))

/-- The entry of user page `v`. -/
def pteOf (s : Vm) (pd v : Nat) : Nat :=
  match s.tableOf pd (v / 1024) with
  | none => 0
  | some pt => s.entry pt (v % 1024)

/-- A page that the allocator has given away. -/
def InUse (s : Vm) (x : Nat) : Prop := ∃ p i, i < s.size p ∧ s.used p i = true ∧ x = s.page p i

/-- The pages that hold the directories: that of the kernel, those made, and the tables. -/
def Owned (s : Vm) (pds : List Nat) (x : Nat) : Prop :=
  x = s.basePageDir ∨ x ∈ pds ∨ ∃ pd ∈ pds, ∃ i < 768, s.tableOf pd i = some x

end Vm

/-- The directories `pds` lie apart in pages in use, and so do their tables; above
`PHYS_BASE` they are those of the kernel. -/
structure Shape (s : Vm) (pds : List Nat) : Prop where
  ok : VmOk s
  userHalf : ∀ i < 768, s.entry s.basePageDir i = 0
  baseUsed : ∀ p i, i < s.size p → s.page p i = s.basePageDir → s.used p i = true
  dir : ∀ pd ∈ pds, s.InUse pd ∧ pd ≠ s.basePageDir
  kernelHalf : ∀ pd ∈ pds, ∀ i, 768 ≤ i → i < 1024 → s.entry pd i = s.entry s.basePageDir i
  table : ∀ pd ∈ pds, ∀ i < 768, ∀ pt, s.tableOf pd i = some pt →
    present (s.entry pd i) = true ∧ s.InUse pt ∧ pt ∉ pds ∧ pt ≠ s.basePageDir
  inj : ∀ pd ∈ pds, ∀ pd' ∈ pds, ∀ i < 768, ∀ i' < 768, ∀ pt, s.tableOf pd i = some pt →
    s.tableOf pd' i' = some pt → pd = pd' ∧ i = i'

section

variable {s s' : Vm} {pds : List Nat} {pd v pt x : Nat}

theorem tableOf_congr (h : ∀ i, s'.entry pd i = s.entry pd i) (i : Nat) :
    s'.tableOf pd i = s.tableOf pd i := by
  unfold Vm.tableOf
  rw [h]

theorem entry_congr (h : s'.mem x = s.mem x) (i : Nat) : s'.entry x i = s.entry x i := by
  unfold Vm.entry
  rw [h]

theorem owned_table {i : Nat} (hpd : pd ∈ pds) (hi : i < 768) (ht : s.tableOf pd i = some pt) :
    s.Owned pds pt := .inr (.inr ⟨pd, hpd, i, hi, ht⟩)

theorem Shape.owned_used (h : Shape s pds) (hx : s.Owned pds x) {p : PoolId} {i : Nat}
    (hi : i < s.size p) (he : x = s.page p i) : s.used p i = true := by
  have huse : s.InUse x → s.used p i = true := by
    rintro ⟨q, j, hj, hu, hq⟩
    obtain ⟨rfl, rfl⟩ := h.ok.page_inj hi hj (he.symm.trans hq)
    exact hu
  rcases hx with rfl | hx | ⟨pd, hpd, j, hj, ht⟩
  · exact h.baseUsed p i hi he.symm
  · exact huse (h.dir x hx).1
  · exact huse (h.table pd hpd j hj x ht).2.1

theorem Shape.addressable (h : Shape s pds) (hx : s.InUse x) : Addressable x := by
  obtain ⟨p, i, hi, -, rfl⟩ := hx
  exact h.ok.addressable hi

/-- The shape depends on the directories, the pools and the pages in use. -/
theorem Shape.frame (h : Shape s pds) (hpools : SamePools s s') (hbase : s'.basePageDir = s.basePageDir)
    (hdirs : ∀ x, x = s.basePageDir ∨ x ∈ pds → ∀ i, s'.entry x i = s.entry x i)
    (hused : ∀ p i, i < s.size p → s.used p i = true → s.Owned pds (s.page p i) →
      s'.used p i = true) : Shape s' pds := by
  have htable : ∀ pd ∈ pds, ∀ i, s'.tableOf pd i = s.tableOf pd i :=
    fun pd hpd => tableOf_congr (hdirs pd (.inr hpd))
  have huse : ∀ x, s.InUse x → s.Owned pds x → s'.InUse x := by
    rintro _ ⟨p, i, hi, hu, rfl⟩ hx
    exact ⟨p, i, by rw [hpools.size]; exact hi, hused p i hi hu hx, (hpools.page p i).symm⟩
  have hb := hdirs s.basePageDir (.inl rfl)
  refine ⟨hpools.ok h.ok, fun i hi => ?_, fun p i hi he => ?_, fun pd hpd => ?_, fun pd hpd i h1 h2 => ?_,
    fun pd hpd i hi pt ht => ?_, fun pd hpd pd' hpd' i hi i' hi' pt ht ht' => ?_⟩
  · rw [hbase, hb]
    exact h.userHalf i hi
  · rw [hpools.size] at hi
    rw [hpools.page, hbase] at he
    exact hused p i hi (h.baseUsed p i hi he) (.inl he)
  · rw [hbase]
    exact ⟨huse pd (h.dir pd hpd).1 (.inr (.inl hpd)), (h.dir pd hpd).2⟩
  · rw [hbase, hb, hdirs pd (.inr hpd)]
    exact h.kernelHalf pd hpd i h1 h2
  · rw [htable pd hpd] at ht
    obtain ⟨h1, h2, h3, h4⟩ := h.table pd hpd i hi pt ht
    rw [hbase, hdirs pd (.inr hpd)]
    exact ⟨h1, huse pt h2 (owned_table hpd hi ht), h3, h4⟩
  · rw [htable pd hpd] at ht
    rw [htable pd' hpd'] at ht'
    exact h.inj pd hpd pd' hpd' i hi i' hi' pt ht ht'

theorem Shape.owned_congr (h : ∀ pd ∈ pds, ∀ i, s'.entry pd i = s.entry pd i)
    (hbase : s'.basePageDir = s.basePageDir) : s'.Owned pds x ↔ s.Owned pds x := by
  unfold Vm.Owned
  rw [hbase]
  refine or_congr_right (or_congr_right (exists_congr fun pd => and_congr_right fun hpd => ?_))
  simp only [tableOf_congr (h pd hpd)]

/-- The entries of user pages, when nothing is written to the directories and tables. -/
theorem pteOf_frame (h : ∀ x, s.Owned pds x → s'.mem x = s.mem x) (hpd : pd ∈ pds)
    (hv : v < userPages) : s'.pteOf pd v = s.pteOf pd v := by
  have ht := tableOf_congr (entry_congr (h pd (.inr (.inl hpd)))) (v / 1024)
  unfold Vm.pteOf
  rw [ht]
  cases hpt : s.tableOf pd (v / 1024) with
  | none => rfl
  | some pt =>
    refine entry_congr (h pt (owned_table hpd ?_ hpt)) _
    unfold userPages at hv
    omega

/-! ## A store to one entry -/

/-- What a function may change: the entry of page `v` of `pd`, which becomes `w`. -/
structure Touches (s s' : Vm) (pds : List Nat) (pd v w : Nat) : Prop where
  shape : Shape s' pds
  base : s'.basePageDir = s.basePageDir
  baseMem : ∀ i, s'.entry s.basePageDir i = s.entry s.basePageDir i
  ram : s'.ramPages = s.ramPages
  pte : ∀ pd' ∈ pds, ∀ v' < userPages,
    s'.pteOf pd' v' = if pd' = pd ∧ v' = v then w else s.pteOf pd' v'

theorem Shape.set_pte (h : Shape s pds) (hpd : pd ∈ pds) (hv : v < userPages)
    (ht : s.tableOf pd (v / 1024) = some pt) {w : Nat} (hw : w < 2 ^ 32) :
    Touches s (s.setEntry pt (v % 1024) w) pds pd v w := by
  have hi : v / 1024 < 768 := by
    unfold userPages at hv
    omega
  obtain ⟨-, -, hnot, hbase⟩ := h.table pd hpd _ hi pt ht
  have hentry : ∀ q, q ≠ pt → ∀ j, (s.setEntry pt (v % 1024) w).entry q j = s.entry q j :=
    fun q hq j => by rw [entry_setEntry s _ _ _ _ hw, if_neg fun hc => hq hc.1]
  have hdirs : ∀ x, x = s.basePageDir ∨ x ∈ pds →
      ∀ j, (s.setEntry pt (v % 1024) w).entry x j = s.entry x j := by
    rintro x (rfl | hx)
    · exact hentry _ (Ne.symm hbase)
    · exact hentry _ fun he => hnot (he ▸ hx)
  refine ⟨h.frame ⟨fun _ => rfl, fun _ => rfl, fun _ => rfl, rfl⟩ rfl hdirs fun _ _ _ hu _ => hu, rfl,
    hdirs _ (.inl rfl), rfl, fun pd' hpd' v' hv' => ?_⟩
  have hi' : v' / 1024 < 768 := by
    unfold userPages at hv'
    omega
  have htab : (s.setEntry pt (v % 1024) w).tableOf pd' (v' / 1024) = s.tableOf pd' (v' / 1024) :=
    tableOf_congr (hdirs pd' (.inr hpd')) _
  unfold Vm.pteOf
  rw [htab]
  cases ht' : s.tableOf pd' (v' / 1024) with
  | none =>
    rw [if_neg]
    rintro ⟨rfl, rfl⟩
    rw [ht] at ht'
    cases ht'
  | some pt' =>
    simp only
    rw [entry_setEntry s _ _ _ _ hw]
    by_cases hc : pd' = pd ∧ v' = v
    · obtain ⟨rfl, rfl⟩ := hc
      rw [ht] at ht'
      cases ht'
      rw [if_pos ⟨rfl, rfl⟩, if_pos ⟨rfl, rfl⟩]
    · rw [if_neg hc, if_neg]
      rintro ⟨rfl, hm⟩
      obtain ⟨rfl, hd⟩ := h.inj pd' hpd' pd hpd _ hi' _ hi pt' ht' ht
      exact hc ⟨rfl, by omega⟩

/-! ## A page obtained -/

theorem setUsed_mono {p q : PoolId} {i j : Nat} (hi : i < s.size p) (hu : s.used q j = true) :
    (s.setUsed p i true).used q j = true := by
  rw [setUsed_used s hi]
  split
  · rfl
  · exact hu

/-- A page that was free is no page of the directories. -/
theorem Shape.not_owned (h : Shape s pds) {p : PoolId} {i : Nat} (hi : i < s.size p)
    (hu : s.used p i = false) : ¬ s.Owned pds (s.page p i) := fun hx => by
  have := h.owned_used hx hi rfl
  rw [hu] at this
  cases this

/-- The allocator marks a page, and only that page is written. -/
theorem Shape.get (h : Shape s pds) (s' : Vm) {p : PoolId} {i : Nat} (hi : i < s.size p)
    (hu : s.used p i = false) (hpool : s'.pool = (s.setUsed p i true).pool)
    (hram : s'.ramPages = s.ramPages) (hbase : s'.basePageDir = s.basePageDir)
    (hmem : ∀ x, x ≠ s.page p i → s'.mem x = s.mem x) :
    Shape s' pds ∧ s'.InUse (s.page p i) ∧ (∀ x, s.Owned pds x → s'.mem x = s.mem x) ∧
      ∀ q j, s.used q j = true → s'.used q j = true := by
  have hsame := setUsed_same s p i true
  have hpools : SamePools s s' := by
    refine ⟨fun q => ?_, fun q => ?_, fun q => ?_, hram⟩
    · rw [hpool]
      exact hsame.base q
    · rw [hpool]
      exact hsame.mapAddr q
    · rw [Vm.size, hpool]
      exact hsame.size q
  have hused : ∀ q j, s'.used q j = (s.setUsed p i true).used q j := fun q j => by
    rw [Vm.used, hpool]
    rfl
  have hmono : ∀ q j, s.used q j = true → s'.used q j = true := fun q j hj => by
    rw [hused]
    exact setUsed_mono hi hj
  have howned : ∀ x, s.Owned pds x → s'.mem x = s.mem x := fun x hx => hmem x fun he =>
    h.not_owned hi hu (he ▸ hx)
  refine ⟨h.frame hpools hbase (fun x hx => entry_congr (howned x ?_)) fun q j _ hj _ => hmono q j hj,
    ⟨p, i, by rw [hpools.size]; exact hi, ?_, (hpools.page p i).symm⟩, howned, hmono⟩
  · rcases hx with rfl | hx
    · exact .inl rfl
    · exact .inr (.inl hx)
  · rw [hused, setUsed_used s hi, if_pos ⟨rfl, rfl⟩]

/-! ## The functions -/

variable {va : Nat}

theorem pgNo_lt (hu : isUserVaddr va = true) : pgNo va < userPages := by
  have hlt : va < physBase := of_decide_eq_true hu
  simp only [pgNo, userPages, physBase, pgSize] at *
  omega

theorem pgNo_split (va : Nat) : pgNo va / 1024 = pdNo va ∧ pgNo va % 1024 = ptNo va := by
  simp only [pgNo, pdNo, ptNo, pgSize]
  omega

theorem pteOf_pgNo (s : Vm) (pd va : Nat) : s.pteOf pd (pgNo va) =
    match s.tableOf pd (pdNo va) with
    | none => 0
    | some pt => s.entry pt (ptNo va) := by
  rw [Vm.pteOf, (pgNo_split va).1, (pgNo_split va).2]

theorem Shape.lookup (h : Shape s pds) (hpd : pd ∈ pds) (hu : isUserVaddr va = true) :
    lookupPage pd va false s = .ok ((s.tableOf pd (pdNo va)).map (·, ptNo va), s) := by
  by_cases hz : s.entry pd (pdNo va) = 0
  · have ht : s.tableOf pd (pdNo va) = none := if_pos hz
    simp [lookupPage, assert, hz, ht]
  · have ht : s.tableOf pd (pdNo va) = some (pdeGetPt (s.entry pd (pdNo va))) := if_neg hz
    have hp := (h.table pd hpd _ (pdNo_lt hu) _ ht).1
    simp [lookupPage, assert, hz, ht, hp]

/-- `pagedir_get_page` reads the entry of the page. -/
theorem Shape.get_page (h : Shape s pds) (hpd : pd ∈ pds) (hu : isUserVaddr va = true) :
    pagedirGetPage pd va s = .ok (if present (s.pteOf pd (pgNo va)) then
      some (pteGetPage (s.pteOf pd (pgNo va)) + pgOfs va) else none, s) := by
  have hl := h.lookup hpd hu
  rw [pteOf_pgNo, pagedirGetPage, bind_run, assert_run hu, ok_bind, bind_run, hl, ok_bind]
  cases s.tableOf pd (pdNo va) with
  | none =>
    simp only
    rw [if_neg (by decide)]
    rfl
  | some pt =>
    simp only [Option.map_some, bind_run, get_run, ok_bind]
    cases present (s.entry pt (ptNo va)) <;> rfl

/-- An entry changed in place: it becomes `f` of what it was, unless there is no page table. -/
theorem Shape.update_pte (h : Shape s pds) (hpd : pd ∈ pds) (hu : isUserVaddr va = true)
    {f : Nat → Nat} (hf : ∀ w, w < 2 ^ 32 → f w < 2 ^ 32) :
    ∃ s' w, updatePte pd va f s = .ok ((), s') ∧ Touches s s' pds pd (pgNo va) w ∧
      (w = f (s.pteOf pd (pgNo va)) ∨ w = s.pteOf pd (pgNo va) ∧ w = 0) := by
  have hl := h.lookup hpd hu
  rw [updatePte, bind_run, hl, ok_bind]
  cases ht : s.tableOf pd (pdNo va) with
  | none =>
    have hz : s.pteOf pd (pgNo va) = 0 := by
      rw [pteOf_pgNo, ht]
    refine ⟨s, _, rfl, ⟨h, rfl, fun _ => rfl, rfl, fun pd' _ v' _ => ?_⟩, .inr ⟨rfl, hz⟩⟩
    split
    · next hc => rw [hc.1, hc.2]
    · rfl
  | some pt =>
    have hpte : s.pteOf pd (pgNo va) = s.entry pt (ptNo va) := by
      rw [pteOf_pgNo, ht]
    have htouch := h.set_pte hpd (pgNo_lt hu) ((pgNo_split va).1.symm ▸ ht)
      (hf (s.entry pt (ptNo va)) (load32_lt ..))
    rw [(pgNo_split va).2] at htouch
    exact ⟨_, _, rfl, htouch, .inl (by rw [hpte])⟩

/-- A cleared page becomes the page table of an entry that has none. -/
theorem Shape.set_pde (h : Shape s pds) (hpd : pd ∈ pds) {i : Nat} (hi : i < 768)
    (hz : s.entry pd i = 0) (huse : s.InUse x) (hnot : ¬ s.Owned pds x)
    (hclear : ∀ j, s.entry x j = 0) :
    Shape (s.setEntry pd i (pdeCreate x)) pds ∧
      (s.setEntry pd i (pdeCreate x)).tableOf pd i = some x ∧
      (∀ j, (s.setEntry pd i (pdeCreate x)).entry s.basePageDir j = s.entry s.basePageDir j) ∧
      ∀ pd' ∈ pds, ∀ v' < userPages,
        (s.setEntry pd i (pdeCreate x)).pteOf pd' v' = s.pteOf pd' v' := by
  obtain ⟨hp1, hp2, hp3⟩ := (h.addressable huse).pde
  have hpde0 : pdeCreate x ≠ 0 := by
    intro h0
    rw [h0] at hp1
    cases hp1
  have hentry : ∀ q j, (s.setEntry pd i (pdeCreate x)).entry q j =
      if q = pd ∧ j = i then pdeCreate x else s.entry q j := fun q j => entry_setEntry s _ _ _ _ hp3
  have hne : s.basePageDir ≠ pd := (h.dir pd hpd).2.symm
  have hbase : ∀ j, (s.setEntry pd i (pdeCreate x)).entry s.basePageDir j =
      s.entry s.basePageDir j := fun j => by rw [hentry, if_neg fun hc => hne hc.1]
  have htab : ∀ pd' j, (s.setEntry pd i (pdeCreate x)).tableOf pd' j =
      if pd' = pd ∧ j = i then some x else s.tableOf pd' j := by
    intro pd' j
    unfold Vm.tableOf
    rw [hentry]
    by_cases hc : pd' = pd ∧ j = i
    · rw [if_pos hc, if_pos hc, if_neg hpde0, hp2]
    · rw [if_neg hc, if_neg hc]
  -- the new table is not one of the old ones
  have hold : ∀ pd' ∈ pds, ∀ j < 768, s.tableOf pd' j ≠ some x :=
    fun pd' hpd' j hj ht => hnot (owned_table hpd' hj ht)
  have hpools : SamePools s (s.setEntry pd i (pdeCreate x)) :=
    ⟨fun _ => rfl, fun _ => rfl, fun _ => rfl, rfl⟩
  refine ⟨⟨hpools.ok h.ok, fun j hj => (hbase j).trans (h.userHalf j hj), h.baseUsed, h.dir,
    fun pd' hpd' j h1 h2 => ?_, fun pd' hpd' j hj pt ht => ?_,
    fun pd' hpd' pd'' hpd'' j hj j' hj' pt ht ht' => ?_⟩, by rw [htab, if_pos ⟨rfl, rfl⟩], hbase,
    fun pd' hpd' v' hv' => ?_⟩
  · rw [hentry, if_neg (by omega), show (s.setEntry pd i (pdeCreate x)).basePageDir = s.basePageDir
      from rfl, hbase]
    exact h.kernelHalf pd' hpd' j h1 h2
  · rw [hentry]
    rw [htab] at ht
    by_cases hc : pd' = pd ∧ j = i
    · rw [if_pos hc] at ht ⊢
      cases ht
      exact ⟨hp1, huse, fun hx => hnot (.inr (.inl hx)), fun hx => hnot (.inl hx)⟩
    · rw [if_neg hc] at ht ⊢
      exact h.table pd' hpd' j hj pt ht
  · rw [htab] at ht ht'
    by_cases hc : pd' = pd ∧ j = i <;> by_cases hc' : pd'' = pd ∧ j' = i
    · exact ⟨hc.1.trans hc'.1.symm, hc.2.trans hc'.2.symm⟩
    · rw [if_pos hc] at ht
      rw [if_neg hc', ← ht] at ht'
      exact absurd ht' (hold pd'' hpd'' j' hj')
    · rw [if_pos hc'] at ht'
      rw [if_neg hc, ← ht'] at ht
      exact absurd ht (hold pd' hpd' j hj)
    · rw [if_neg hc] at ht
      rw [if_neg hc'] at ht'
      exact h.inj pd' hpd' pd'' hpd'' j hj j' hj' pt ht ht'
  · have hnotPd : ∀ pt j, s.tableOf pd' (v' / 1024) = some pt →
        (s.setEntry pd i (pdeCreate x)).entry pt j = s.entry pt j := by
      intro pt j ht
      rw [hentry, if_neg]
      rintro ⟨rfl, -⟩
      refine (h.table pd' hpd' _ ?_ pt ht).2.2.1 hpd
      unfold userPages at hv'
      omega
    unfold Vm.pteOf
    rw [htab]
    by_cases hc : pd' = pd ∧ v' / 1024 = i
    · have hnone : s.tableOf pd' (v' / 1024) = none := by
        rw [hc.1, hc.2]
        exact if_pos hz
      rw [if_pos hc, hnone]
      show (s.setEntry pd i (pdeCreate x)).entry x (v' % 1024) = 0
      rw [hentry, if_neg fun he : x = pd ∧ _ => hnot (.inr (.inl (he.1 ▸ hpd)))]
      exact hclear _
    · rw [if_neg hc]
      cases ht : s.tableOf pd' (v' / 1024) with
      | none => rfl
      | some pt => exact hnotPd pt _ ht

/-- A page table for an entry that has none: there is no page, or it is a page that was free,
all zeros. -/
theorem Shape.add_table (h : Shape s pds) (hpd : pd ∈ pds) {i : Nat} (hi : i < 768)
    (hz : s.entry pd i = 0) :
    addTable pd i s = .ok (false, { s with answers := s.answers.tail }) ∧ Refused s ∨
    ∃ k s', k < s.size .kernel ∧ s.used .kernel k = false ∧ addTable pd i s = .ok (true, s') ∧
      Shape s' pds ∧ s'.basePageDir = s.basePageDir ∧ s'.ramPages = s.ramPages ∧
      s'.tableOf pd i = some (s.page .kernel k) ∧
      (∀ j, s'.entry s.basePageDir j = s.entry s.basePageDir j) ∧
      ∀ pd' ∈ pds, ∀ v' < userPages, s'.pteOf pd' v' = s.pteOf pd' v' := by
  rcases pallocGetPage_cases .kernel true s with he | ⟨k, hk, hu, he⟩
  · exact .inl ⟨by simp [addTable, he], _, he⟩
  obtain ⟨hshape, huse, howned, -⟩ := h.get { s with
    answers := s.answers.tail
    pool := (s.setUsed .kernel k true).pool
    mem := Function.update s.mem (s.page .kernel k) zeros
    obtained := s.obtained ++ [s.page .kernel k] } hk hu rfl rfl rfl
    fun y hy => Function.update_of_ne hy ..
  have hofs : (pgOfs (s.page .kernel k) == 0) = true := beq_iff_eq.mpr (h.ok.aligned .kernel k)
  have hrun : addTable pd i s = .ok (true, Vm.setEntry { s with
      answers := s.answers.tail
      pool := (s.setUsed .kernel k true).pool
      mem := Function.update s.mem (s.page .kernel k) zeros
      obtained := s.obtained ++ [s.page .kernel k] } pd i (pdeCreate (s.page .kernel k))) := by
    rw [addTable, bind_run, he, ok_bind]
    simp only
    rw [bind_run, assert_run hofs, ok_bind, bind_run, modify_run]
    rfl
  generalize hs1 : ({ s with
    answers := s.answers.tail
    pool := (s.setUsed .kernel k true).pool
    mem := Function.update s.mem (s.page .kernel k) zeros
    obtained := s.obtained ++ [s.page .kernel k] } : Vm) = s1 at *
  have hbase1 : s1.basePageDir = s.basePageDir := by rw [← hs1]
  have hnot : ¬ s1.Owned pds (s.page .kernel k) := fun hx =>
    h.not_owned hk hu ((Shape.owned_congr
      (fun pd' hpd' => entry_congr (howned pd' (.inr (.inl hpd')))) hbase1).mp hx)
  have hclear : ∀ j, s1.entry (s.page .kernel k) j = 0 := fun j => by
    rw [← hs1, Vm.entry]
    simp only [Function.update_self]
    rfl
  obtain ⟨h1, h2, h3, h4⟩ := hshape.set_pde hpd hi
    ((entry_congr (howned pd (.inr (.inl hpd))) i).trans hz) huse hnot hclear
  refine .inr ⟨k, _, hk, hu, hrun, h1, hbase1, ?_, h2, fun j => ?_, fun pd' hpd' v' hv' => ?_⟩
  · show s1.ramPages = s.ramPages
    rw [← hs1]
  · rw [← hbase1, h3, hbase1, entry_congr (howned _ (.inl rfl))]
  · rw [h4 pd' hpd' v' hv', pteOf_frame howned hpd' hv']

/-- No entry of a user page changes. -/
structure Stays (s s' : Vm) (pds : List Nat) : Prop where
  shape : Shape s' pds
  base : s'.basePageDir = s.basePageDir
  baseMem : ∀ i, s'.entry s.basePageDir i = s.entry s.basePageDir i
  ram : s'.ramPages = s.ramPages
  pte : ∀ pd ∈ pds, ∀ v < userPages, s'.pteOf pd v = s.pteOf pd v

theorem Stays.touches {s'' : Vm} {w : Nat} (h : Stays s s' pds) (ht : Touches s' s'' pds pd v w) :
    Touches s s'' pds pd v w where
  shape := ht.shape
  base := ht.base.trans h.base
  baseMem i := by
    have := ht.baseMem i
    rw [h.base] at this
    exact this.trans (h.baseMem i)
  ram := ht.ram.trans h.ram
  pte pd' hpd' v' hv' := by
    rw [ht.pte pd' hpd' v' hv', h.pte pd' hpd' v' hv']

theorem Shape.answers (h : Shape s pds) (l : List (Option Nat)) : Stays s { s with answers := l } pds :=
  ⟨h.frame ⟨fun _ => rfl, fun _ => rfl, fun _ => rfl, rfl⟩ rfl (fun _ _ _ => rfl)
    fun _ _ _ hu _ => hu, rfl, fun _ => rfl, rfl, fun _ _ _ _ => rfl⟩

/-- The page table of a page was there, or it is a page that was free. -/
def FreshTable (s : Vm) (pd i pt : Nat) : Prop :=
  s.tableOf pd i = some pt ∨
    s.tableOf pd i = none ∧ ∃ k, k < s.size .kernel ∧ s.used .kernel k = false ∧ pt = s.page .kernel k

theorem Shape.lookup_create (h : Shape s pds) (hpd : pd ∈ pds) (hu : isUserVaddr va = true) :
    (∃ s', lookupPage pd va true s = .ok (none, s') ∧ Stays s s' pds ∧ Refused s ∧
      s.tableOf pd (pdNo va) = none) ∨
    ∃ pt s', lookupPage pd va true s = .ok (some (pt, ptNo va), s') ∧ Stays s s' pds ∧
      s'.tableOf pd (pdNo va) = some pt ∧ FreshTable s pd (pdNo va) pt := by
  have hi := pdNo_lt hu
  by_cases hz : s.entry pd (pdNo va) = 0
  · have ht : s.tableOf pd (pdNo va) = none := if_pos hz
    rcases h.add_table hpd hi hz with ⟨he, hno⟩ | ⟨k, s', hk, hused, he, hs', hb, hr, ht', hbm, hpte⟩
    · refine .inl ⟨_, ?_, h.answers s.answers.tail, hno, ht⟩
      simp [lookupPage, assert, hu, hz, he]
    · obtain ⟨hp, -⟩ := hs'.table pd hpd _ hi _ ht'
      refine .inr ⟨_, s', ?_, ⟨hs', hb, hbm, hr, hpte⟩, ht', .inr ⟨ht, k, hk, hused, rfl⟩⟩
      have hget : pdeGetPt (s'.entry pd (pdNo va)) = s.page .kernel k := by
        unfold Vm.tableOf at ht'
        split at ht'
        · cases ht'
        · exact Option.some.inj ht'
      simp [lookupPage, assert, hu, hz, he, hp, hget]
  · have ht : s.tableOf pd (pdNo va) = some (pdeGetPt (s.entry pd (pdNo va))) := if_neg hz
    obtain ⟨hp, -⟩ := h.table pd hpd _ hi _ ht
    refine .inr ⟨_, s, ?_, ⟨h, rfl, fun _ => rfl, rfl, fun _ _ _ _ => rfl⟩, ht, .inl ht⟩
    simp [lookupPage, assert, hu, hz, hp]

/-- A frame that `pagedir_set_page` takes: a page of the kernel's memory. -/
structure Frame (s : Vm) (kpage : Nat) : Prop where
  aligned : pgOfs kpage = 0
  base : physBase ≤ kpage
  ram : vtop kpage / pgSize < s.ramPages

theorem Frame.addressable {kpage : Nat} (hk : Frame s kpage) (h : VmOk s) : Addressable kpage := by
  have h1 := hk.aligned
  have h2 := hk.base
  have h3 := hk.ram
  have h4 := h.cap
  refine ⟨h1, h2, ?_⟩
  simp only [pgOfs, vtop, pgSize, physBase] at *
  omega

/-- **`pagedir_set_page`** for a page that is not mapped. -/
theorem Shape.set_page (h : Shape s pds) (hpd : pd ∈ pds) (hu : isUserVaddr va = true)
    (hofs : pgOfs va = 0) {kpage : Nat} (hk : Frame s kpage)
    (hno : present (s.pteOf pd (pgNo va)) = false) (w : Bool) :
    (∃ s', pagedirSetPage pd va kpage w s = .ok (false, s') ∧ Stays s s' pds ∧ Refused s ∧
      s.tableOf pd (pdNo va) = none) ∨
    ∃ pt s', pagedirSetPage pd va kpage w s = .ok (true, s') ∧
      Touches s s' pds pd (pgNo va) (pteCreateUser kpage w) ∧
      s'.tableOf pd (pdNo va) = some pt ∧ FreshTable s pd (pdNo va) pt := by
  have hofs' : (pgOfs va == 0) = true := beq_iff_eq.mpr hofs
  have hkofs : (pgOfs kpage == 0) = true := beq_iff_eq.mpr hk.aligned
  have hram : decide (vtop kpage / pgSize < s.ramPages) = true := decide_eq_true hk.ram
  have hbase : (pd != s.basePageDir) = true := bne_iff_ne.mpr (h.dir pd hpd).2
  have hrun : pagedirSetPage pd va kpage w s =
      (lookupPage pd va true s).bind fun r => setPte kpage w r.1 r.2 := by
    rw [pagedirSetPage, bind_run, assert_run hofs', ok_bind, bind_run, assert_run hkofs, ok_bind,
      bind_run, assert_run hu, ok_bind, bind_run, get_run, ok_bind, bind_run, assert_run hram,
      ok_bind, bind_run, assert_run hbase, ok_bind]
    rfl
  rcases h.lookup_create hpd hu with ⟨s', he, hs', href⟩ | ⟨pt, s', he, hs', ht, hfresh⟩
  · refine .inl ⟨s', ?_, hs', href⟩
    rw [hrun, he]
    rfl
  · have hpte : s'.pteOf pd (pgNo va) = s'.entry pt (ptNo va) := by
      rw [pteOf_pgNo, ht]
    have hnot : (!present (s'.entry pt (ptNo va))) = true := by
      rw [← hpte, hs'.pte pd hpd _ (pgNo_lt hu), hno]
      rfl
    have htouch := hs'.shape.set_pte hpd (pgNo_lt hu) ((pgNo_split va).1.symm ▸ ht)
      ((hk.addressable h.ok).pte w).2.2.2
    rw [(pgNo_split va).2] at htouch
    refine .inr ⟨pt, s'.setEntry pt (ptNo va) (pteCreateUser kpage w), ?_, hs'.touches htouch, ?_, hfresh⟩
    · rw [hrun, he, ok_bind]
      show ((assert (!present (s'.entry pt (ptNo va))) : M Unit) s').bind _ = _
      rw [assert_run hnot]
      rfl
    · rw [← ht]
      have hne := (hs'.shape.table pd hpd _ (pdNo_lt hu) pt ht).2.2.1
      refine tableOf_congr (fun j => ?_) _
      exact entry_setPage_of_ne s' (fun he : pd = pt => hne (he ▸ hpd)) j _

/-- **`pagedir_create`** -/
theorem Shape.create (h : Shape s pds) :
    (∃ s', pagedirCreate s = .ok (none, s') ∧ Stays s s' pds) ∨
    ∃ pd s', pagedirCreate s = .ok (some pd, s') ∧ pd ∉ pds ∧ Stays s s' pds ∧
      Shape s' (pd :: pds) ∧ ∀ v < userPages, s'.pteOf pd v = 0 := by
  rcases pallocGetPage_cases .kernel false s with he | ⟨k, hk, hu, he⟩
  · refine .inl ⟨_, ?_, h.answers s.answers.tail⟩
    rw [pagedirCreate, bind_run, he]
    rfl
  right
  have hnot := h.not_owned hk hu
  obtain ⟨hshape, huse, howned, -⟩ := h.get { s with
    answers := s.answers.tail
    pool := (s.setUsed .kernel k true).pool
    mem := Function.update s.mem (s.page .kernel k)
      (memcpy (s.mem (s.page .kernel k)) 0 (s.mem s.basePageDir) 0 pgSize)
    obtained := s.obtained ++ [s.page .kernel k] } hk hu rfl rfl rfl
    fun y hy => Function.update_of_ne hy ..
  have hrun : pagedirCreate s = .ok (some (s.page .kernel k), { s with
      answers := s.answers.tail
      pool := (s.setUsed .kernel k true).pool
      mem := Function.update s.mem (s.page .kernel k)
        (memcpy (s.mem (s.page .kernel k)) 0 (s.mem s.basePageDir) 0 pgSize)
      obtained := s.obtained ++ [s.page .kernel k] }) := by
    rw [pagedirCreate, bind_run, he]
    rfl
  generalize hs1 : ({ s with
    answers := s.answers.tail
    pool := (s.setUsed .kernel k true).pool
    mem := Function.update s.mem (s.page .kernel k)
      (memcpy (s.mem (s.page .kernel k)) 0 (s.mem s.basePageDir) 0 pgSize)
    obtained := s.obtained ++ [s.page .kernel k] } : Vm) = s1 at *
  generalize hpd : s.page .kernel k = pd at *
  have hbase1 : s1.basePageDir = s.basePageDir := by rw [← hs1]
  have hbaseMem : ∀ j, s1.entry s.basePageDir j = s.entry s.basePageDir j :=
    entry_congr (howned _ (.inl rfl))
  have hcopy : ∀ j < 1024, s1.entry pd j = s.entry s.basePageDir j := by
    intro j hj
    rw [← hs1, Vm.entry, Vm.entry]
    simp only [Function.update_self]
    refine load32_congr fun l hl => ?_
    rw [memcpy_in (by omega) (by simp only [pgSize]; omega)]
    congr 1
    omega
  have hnone : ∀ j < 768, s1.tableOf pd j = none := fun j hj =>
    if_pos ((hcopy j (by omega)).trans (h.userHalf j hj))
  have hne : pd ≠ s.basePageDir := fun hx => hnot (.inl hx)
  have hout : pd ∉ pds := fun hx => hnot (.inr (.inl hx))
  refine ⟨pd, s1, hrun, hout, ⟨hshape, hbase1, hbaseMem, by rw [← hs1], fun pd' hpd' v' hv' =>
    pteOf_frame howned hpd' hv'⟩, ⟨hshape.ok, hshape.userHalf, hshape.baseUsed, fun q hq => ?_,
    fun q hq i h1 h2 => ?_, fun q hq i hi pt ht => ?_, fun q hq q' hq' i hi i' hi' pt ht ht' => ?_⟩,
    fun v hv => ?_⟩
  · rcases List.mem_cons.mp hq with rfl | hq
    · exact ⟨huse, hbase1.symm ▸ hne⟩
    · exact hshape.dir q hq
  · rcases List.mem_cons.mp hq with rfl | hq
    · rw [hcopy i h2, hbase1, hbaseMem]
    · exact hshape.kernelHalf q hq i h1 h2
  · rcases List.mem_cons.mp hq with rfl | hq
    · rw [hnone i hi] at ht
      cases ht
    · obtain ⟨h1, h2, h3, h4⟩ := hshape.table q hq i hi pt ht
      refine ⟨h1, h2, fun hx => ?_, h4⟩
      rcases List.mem_cons.mp hx with hx | hx
      · rw [tableOf_congr (entry_congr (howned q (.inr (.inl hq)))) i, hx] at ht
        exact hnot (owned_table hq hi ht)
      · exact h3 hx
  · rcases List.mem_cons.mp hq with rfl | hq
    · rw [hnone i hi] at ht
      cases ht
    rcases List.mem_cons.mp hq' with rfl | hq'
    · rw [hnone i' hi'] at ht'
      cases ht'
    exact hshape.inj q hq q' hq' i hi i' hi' pt ht ht'
  · unfold Vm.pteOf
    rw [hnone (v / 1024) (by unfold userPages at hv; omega)]

/-! ## Flags -/

theorem and_lt_word {w n : Nat} (h : w < 2 ^ 32) : w &&& n < 2 ^ 32 :=
  Nat.lt_of_le_of_lt Nat.and_le_left h

theorem notPresent_spec {w : Nat} (hw : w < 2 ^ 32) :
    notPresent w < 2 ^ 32 ∧ present (notPresent w) = false := by
  unfold notPresent
  split
  · refine ⟨and_lt_word hw, ?_⟩
    unfold present
    rw [Nat.and_assoc]
    simp
  · next hp => exact ⟨hw, by simpa using hp⟩

/-- The bits outside a flag stay. -/
theorem setFlag_and {flag n : Nat} (h0 : flag &&& n = 0) (h1 : (0xffffffff - flag) &&& n = n)
    (v : Bool) (w : Nat) : setFlag flag v w &&& n = w &&& n := by
  cases v with
  | false =>
    show w &&& (0xffffffff - flag) &&& n = w &&& n
    rw [Nat.and_assoc, h1]
  | true =>
    show (w ||| flag) &&& n = w &&& n
    rw [Nat.and_or_distrib_right, h0, Nat.or_zero]

/-- A flag that is neither `PTE_P` nor in the address. -/
structure IsFlag (flag : Nat) : Prop where
  lt : flag < 2 ^ 32
  off_present : flag &&& 1 = 0 ∧ (0xffffffff - flag) &&& 1 = 1
  off_addr : flag &&& 0xfffff000 = 0 ∧ (0xffffffff - flag) &&& 0xfffff000 = 0xfffff000

theorem isFlag_pteD : IsFlag pteD := ⟨by decide, by decide, by decide⟩

theorem isFlag_pteA : IsFlag pteA := ⟨by decide, by decide, by decide⟩

theorem IsFlag.setFlag {flag : Nat} (hf : IsFlag flag) (v : Bool) {w : Nat} (hw : w < 2 ^ 32) :
    setFlag flag v w < 2 ^ 32 ∧ present (setFlag flag v w) = present w ∧
      pteGetPage (setFlag flag v w) = pteGetPage w := by
  refine ⟨?_, ?_, ?_⟩
  · cases v
    · exact and_lt_word hw
    · exact Nat.or_lt_two_pow hw hf.lt
  · unfold present
    rw [setFlag_and hf.off_present.1 hf.off_present.2]
  · unfold pteGetPage
    rw [setFlag_and hf.off_addr.1 hf.off_addr.2]

theorem pteOf_lt (s : Vm) (pd v : Nat) : s.pteOf pd v < 2 ^ 32 := by
  unfold Vm.pteOf
  split
  · decide
  · exact load32_lt ..

end

/-! ## Runs -/

/-- The page directories and, for each user page, the frame last set and not cleared since. -/
structure Dirs where
  vm : Vm
  pds : List Nat
  map : Nat → Nat → Option Nat

inductive DirOp where
  | create
  | setPage (pd upage kpage : Nat) (writable : Bool)
  | clearPage (pd upage : Nat)
  | setDirty (pd vpage : Nat) (dirty : Bool)
  | setAccessed (pd vpage : Nat) (accessed : Bool)
  /-- The rest of the kernel runs. -/
  | other (vm : Vm)

/-- The page that a call is about. -/
def DirOp.page : DirOp → Option (Nat × Nat)
  | .create | .other _ => none
  | .setPage pd upage _ _ | .clearPage pd upage => some (pd, pgNo upage)
  | .setDirty pd vpage _ | .setAccessed pd vpage _ => some (pd, pgNo vpage)

def setMap (m : Nat → Nat → Option Nat) (pd v : Nat) (k : Option Nat) (pd' v' : Nat) : Option Nat :=
  if pd' = pd ∧ v' = v then k else m pd' v'

def dirStep (d : Dirs) : DirOp → Option Dirs
  | .create => (pagedirCreate d.vm).toOption.map fun
    | (some pd, vm) => ⟨vm, pd :: d.pds, fun pd' v => if pd' = pd then none else d.map pd' v⟩
    | (none, vm) => { d with vm }
  | .setPage pd upage kpage writable => (pagedirSetPage pd upage kpage writable d.vm).toOption.map fun
    | (true, vm) => { d with vm, map := setMap d.map pd (pgNo upage) (some kpage) }
    | (false, vm) => { d with vm }
  | .clearPage pd upage => (pagedirClearPage pd upage d.vm).toOption.map fun
    | (_, vm) => { d with vm, map := setMap d.map pd (pgNo upage) none }
  | .setDirty pd vpage dirty => (pagedirSetDirty pd vpage dirty d.vm).toOption.map fun
    | (_, vm) => { d with vm }
  | .setAccessed pd vpage accessed => (pagedirSetAccessed pd vpage accessed d.vm).toOption.map fun
    | (_, vm) => { d with vm }
  | .other vm => some { d with vm }

/-- What the rest of the kernel leaves alone: the directories and their tables, which it
neither writes nor frees. -/
structure HandsOff (s s' : Vm) (pds : List Nat) : Prop where
  pools : SamePools s s'
  base : s'.basePageDir = s.basePageDir
  mem : ∀ x, s.Owned pds x → s'.mem x = s.mem x
  used : ∀ p i, i < s.size p → s.used p i = true → s.Owned pds (s.page p i) → s'.used p i = true

/-- Calls are on the directories made and on user pages; a page that is set is not mapped. -/
def DirAllowed (d : Dirs) : DirOp → Prop
  | .create => True
  | .setPage pd upage kpage _ => pd ∈ d.pds ∧ isUserVaddr upage = true ∧ pgOfs upage = 0 ∧
      Frame d.vm kpage ∧ d.map pd (pgNo upage) = none
  | .clearPage pd upage => pd ∈ d.pds ∧ isUserVaddr upage = true ∧ pgOfs upage = 0
  | .setDirty pd vpage _ | .setAccessed pd vpage _ => pd ∈ d.pds ∧ isUserVaddr vpage = true
  | .other vm => HandsOff d.vm vm d.pds

/-- What an entry says: the frame of a page that is mapped. -/
def frameOf (pte : Nat) : Option Nat := if present pte then some (pteGetPage pte) else none

theorem frameOf_eq_none {pte : Nat} : frameOf pte = none ↔ present pte = false := by
  unfold frameOf
  cases present pte <;> simp

structure DirInv (d : Dirs) : Prop where
  shape : Shape d.vm d.pds
  map : ∀ pd ∈ d.pds, ∀ v < userPages, d.map pd v = frameOf (d.vm.pteOf pd v)

/-- What a step leaves alone: the entries of all pages but one, and the kernel's directory. -/
structure DirFrame (d d' : Dirs) (op : DirOp) : Prop where
  base : d'.vm.basePageDir = d.vm.basePageDir
  baseMem : ∀ i, d'.vm.entry d.vm.basePageDir i = d.vm.entry d.vm.basePageDir i
  pds : ∀ pd ∈ d.pds, pd ∈ d'.pds
  pte : ∀ pd ∈ d.pds, ∀ v < userPages, op.page ≠ some (pd, v) → d'.vm.pteOf pd v = d.vm.pteOf pd v

section

variable {d d' : Dirs} {s' : Vm} {pd v w : Nat} {op : DirOp}

theorem DirInv.stays (h : DirInv d) (hs : Stays d.vm s' d.pds) (op : DirOp) :
    DirInv { d with vm := s' } ∧ DirFrame d { d with vm := s' } op :=
  ⟨⟨hs.shape, fun pd hpd v hv => by rw [hs.pte pd hpd v hv]; exact h.map pd hpd v hv⟩,
    hs.base, hs.baseMem, fun _ hpd => hpd, fun pd hpd v hv _ => hs.pte pd hpd v hv⟩

theorem DirInv.touches (h : DirInv d) (ht : Touches d.vm s' d.pds pd v w)
    (hop : op.page = some (pd, v)) {m : Nat → Nat → Option Nat}
    (hm : ∀ pd' ∈ d.pds, ∀ v' < userPages, m pd' v' = setMap d.map pd v (frameOf w) pd' v') :
    DirInv { d with vm := s', map := m } ∧ DirFrame d { d with vm := s', map := m } op := by
  refine ⟨⟨ht.shape, fun pd' hpd' v' hv' => ?_⟩, ht.base, ht.baseMem, fun _ hpd => hpd,
    fun pd' hpd' v' hv' hne => ?_⟩
  · show m pd' v' = _
    rw [hm pd' hpd' v' hv', setMap, ht.pte pd' hpd' v' hv']
    split
    · rfl
    · exact h.map pd' hpd' v' hv'
  · rw [ht.pte pd' hpd' v' hv', if_neg]
    rintro ⟨rfl, rfl⟩
    exact hne hop

/-- A flag of an entry says nothing about its frame. -/
theorem DirInv.set_flag (h : DirInv d) (op : DirOp) (hpd : pd ∈ d.pds) {va : Nat} (hu : isUserVaddr va = true)
    {flag : Nat} (hf : IsFlag flag) (b : Bool) (hop : op.page = some (pd, pgNo va)) :
    ∃ s', updatePte pd va (setFlag flag b) d.vm = .ok ((), s') ∧ DirInv { d with vm := s' } ∧
      DirFrame d { d with vm := s' } op := by
  obtain ⟨s', w, hrun, ht, hw⟩ := h.shape.update_pte hpd hu fun w hw => (hf.setFlag b hw).1
  have hframe : frameOf w = d.map pd (pgNo va) := by
    rw [h.map pd hpd _ (pgNo_lt hu)]
    rcases hw with rfl | ⟨rfl, -⟩
    · obtain ⟨-, h1, h2⟩ := hf.setFlag b (pteOf_lt d.vm pd (pgNo va))
      rw [frameOf, frameOf, h1, h2]
    · rfl
  refine ⟨s', hrun, h.touches (m := d.map) ht hop fun pd' _ v' _ => ?_⟩
  rw [setMap]
  split
  · next hc => rw [hframe, hc.1, hc.2]
  · rfl

/-- **A step** is defined and keeps what is known of the directories. -/
theorem DirInv.step (h : DirInv d) (hok : DirAllowed d op) :
    ∃ d', dirStep d op = some d' ∧ DirInv d' ∧ DirFrame d d' op := by
  cases op with
  | create =>
    rcases h.shape.create with ⟨s', hrun, hs⟩ | ⟨pd, s', hrun, hout, hs, hshape, hzero⟩
    · have hrun' : dirStep d .create = some { d with vm := s' } := by
        rw [dirStep, hrun]
        rfl
      exact ⟨_, hrun', h.stays hs .create⟩
    · have hrun' : dirStep d .create = some ⟨s', pd :: d.pds, fun pd' v => if pd' = pd then none else d.map pd' v⟩ := by
        rw [dirStep, hrun]
        rfl
      refine ⟨_, hrun', ⟨hshape, fun pd' hpd' v hv => ?_⟩, hs.base, hs.baseMem,
        fun _ hpd => List.mem_cons_of_mem _ hpd, fun pd' hpd' v hv _ => hs.pte pd' hpd' v hv⟩
      simp only
      rcases List.mem_cons.mp hpd' with rfl | hpd'
      · rw [if_pos rfl, hzero v hv]
        rfl
      · rw [if_neg fun he : pd' = pd => hout (he ▸ hpd'), hs.pte pd' hpd' v hv]
        exact h.map pd' hpd' v hv
  | setPage pd upage kpage writable =>
    obtain ⟨hpd, hu, hofs, hk, hno⟩ := hok
    rw [h.map pd hpd _ (pgNo_lt hu), frameOf_eq_none] at hno
    rcases h.shape.set_page hpd hu hofs hk hno writable with ⟨s', hrun, hs, -⟩ | ⟨pt, s', hrun, ht, -⟩
    · have hrun' : dirStep d (.setPage pd upage kpage writable) = some { d with vm := s' } := by
        rw [dirStep, hrun]
        rfl
      exact ⟨_, hrun', h.stays hs _⟩
    · have hrun' : dirStep d (.setPage pd upage kpage writable) =
          some { d with vm := s', map := setMap d.map pd (pgNo upage) (some kpage) } := by
        rw [dirStep, hrun]
        rfl
      refine ⟨_, hrun', h.touches ht rfl fun pd' _ v' _ => ?_⟩
      obtain ⟨h1, h2, -⟩ := (hk.addressable h.shape.ok).pte writable
      rw [frameOf, h1, if_pos rfl, h2]
  | clearPage pd upage =>
    obtain ⟨hpd, hu, hofs⟩ := hok
    have hofs' : (pgOfs upage == 0) = true := beq_iff_eq.mpr hofs
    obtain ⟨s', w, hrun, ht, hw⟩ := h.shape.update_pte hpd hu fun w hw => (notPresent_spec hw).1
    have hclear : pagedirClearPage pd upage d.vm = .ok ((), s') := by
      rw [pagedirClearPage, bind_run, assert_run hofs', ok_bind, bind_run, assert_run hu, ok_bind, hrun]
    have hrun' : dirStep d (.clearPage pd upage) =
        some { d with vm := s', map := setMap d.map pd (pgNo upage) none } := by
      rw [dirStep, hclear]
      rfl
    have hframe : frameOf w = none := by
      apply frameOf_eq_none.mpr
      rcases hw with rfl | ⟨-, rfl⟩
      · exact (notPresent_spec (pteOf_lt d.vm pd (pgNo upage))).2
      · rfl
    refine ⟨_, hrun', h.touches ht rfl fun pd' _ v' _ => ?_⟩
    rw [hframe]
  | setDirty pd vpage dirty =>
    obtain ⟨s', hrun, hI⟩ := h.set_flag (.setDirty pd vpage dirty) hok.1 hok.2 isFlag_pteD dirty rfl
    exact ⟨_, by rw [dirStep, pagedirSetDirty, hrun]; rfl, hI⟩
  | setAccessed pd vpage accessed =>
    obtain ⟨s', hrun, hI⟩ := h.set_flag (.setAccessed pd vpage accessed) hok.1 hok.2 isFlag_pteA
      accessed rfl
    exact ⟨_, by rw [dirStep, pagedirSetAccessed, hrun]; rfl, hI⟩
  | other vm =>
    have hmem : ∀ x, x = d.vm.basePageDir ∨ x ∈ d.pds → vm.mem x = d.vm.mem x := by
      rintro x (rfl | hx)
      · exact hok.mem _ (.inl rfl)
      · exact hok.mem x (.inr (.inl hx))
    have hs : Stays d.vm vm d.pds :=
      ⟨h.shape.frame hok.pools hok.base (fun x hx => entry_congr (hmem x hx)) hok.used, hok.base,
        entry_congr (hmem _ (.inl rfl)), hok.pools.ram, fun pd hpd v hv => pteOf_frame hok.mem hpd hv⟩
    exact ⟨_, rfl, h.stays hs _⟩

theorem DirInv.reach (h : DirInv d) (hr : Reach dirStep DirAllowed d d') : DirInv d' :=
  hr.invariant h fun _ _ _ hI hok hs => by
    obtain ⟨d2, hs2, hI2, -⟩ := hI.step hok
    cases hs.symm.trans hs2
    exact hI2

theorem Boot.dirs {s : Vm} (h : Boot s) : DirInv ⟨s, [], fun _ _ => none⟩ :=
  ⟨⟨h.ok, h.userHalf, h.baseUsed, fun _ hpd => (by cases hpd), fun _ hpd => (by cases hpd),
    fun _ hpd => (by cases hpd), fun _ hpd => (by cases hpd)⟩, fun _ hpd => (by cases hpd)⟩

end

/-- What `pagedir_set_page` does: there is no page for the page table and no mapping changes, or
the table is there, or it is a page that was free, with zeros but for the new entry. -/
def SetOutcome (d : Dirs) (pd upage kpage : Nat) (writable : Bool) : Prop :=
  (∃ s', pagedirSetPage pd upage kpage writable d.vm = .ok (false, s') ∧ Refused d.vm ∧
    ∀ pd' ∈ d.pds, ∀ v < userPages, s'.pteOf pd' v = d.vm.pteOf pd' v) ∨
  ∃ pt s', pagedirSetPage pd upage kpage writable d.vm = .ok (true, s') ∧
    s'.tableOf pd (pdNo upage) = some pt ∧ (d.vm.tableOf pd (pdNo upage) = some pt ∨
      (∃ k, k < d.vm.size .kernel ∧ d.vm.used .kernel k = false ∧ pt = d.vm.page .kernel k) ∧
        ∀ j < 1024, j ≠ ptNo upage → s'.entry pt j = 0)

theorem DirInv.set_outcome {d : Dirs} (h : DirInv d) {pd upage kpage : Nat} {writable : Bool}
    (hok : DirAllowed d (.setPage pd upage kpage writable)) : SetOutcome d pd upage kpage writable := by
  obtain ⟨hpd, hu, hofs, hk, hno⟩ := hok
  rw [h.map pd hpd _ (pgNo_lt hu), frameOf_eq_none] at hno
  rcases h.shape.set_page hpd hu hofs hk hno writable with
    ⟨s', hrun, hs, href, -⟩ | ⟨pt, s', hrun, ht, htab, hfresh⟩
  · exact .inl ⟨s', hrun, href, hs.pte⟩
  · refine .inr ⟨pt, s', hrun, htab, hfresh.imp_right fun hf => ⟨hf.2, fun j hj hne => ?_⟩⟩
    have hi := pdNo_lt hu
    have hv : 1024 * pdNo upage + j < userPages := by
      unfold userPages
      omega
    have hd : (1024 * pdNo upage + j) / 1024 = pdNo upage := by omega
    have hm : (1024 * pdNo upage + j) % 1024 = j := by omega
    have hpte := ht.pte pd hpd _ hv
    rw [if_neg, Vm.pteOf, Vm.pteOf, hd, hm, htab, hf.1] at hpte
    · exact hpte
    · rintro ⟨-, he⟩
      apply hne
      rw [← (pgNo_split upage).2, ← he, hm]

/-- **Page directories refine a finite map**: after any calls on any directories made by
`pagedir_create`, `pagedir_get_page` finds the frame last set and not cleared since, the upper
part of each directory is that of `base_page_dir`, and a call changes the entry of its own page
only. -/
theorem pagedir_refines_map {s : Vm} (h : Boot s) {d : Dirs}
    (hrun : Reach dirStep DirAllowed ⟨s, [], fun _ _ => none⟩ d) :
    (∀ pd ∈ d.pds, ∀ a, isUserVaddr a = true →
      pagedirGetPage pd a d.vm = .ok ((d.map pd (pgNo a)).map (· + pgOfs a), d.vm)) ∧
    (∀ pd ∈ d.pds, ∀ i, 768 ≤ i → i < 1024 → d.vm.entry pd i = d.vm.entry d.vm.basePageDir i) ∧
    (∀ op, DirAllowed d op → ∃ d', dirStep d op = some d' ∧ DirFrame d d' op) ∧
    ∀ pd upage kpage writable, DirAllowed d (.setPage pd upage kpage writable) →
      SetOutcome d pd upage kpage writable := by
  have hI := h.dirs.reach hrun
  refine ⟨fun pd hpd a hu => ?_, hI.shape.kernelHalf, fun op hok => ?_, fun _ _ _ _ => hI.set_outcome⟩
  · rw [hI.shape.get_page hpd hu, hI.map pd hpd _ (pgNo_lt hu), frameOf]
    cases present (d.vm.pteOf pd (pgNo a)) <;> rfl
  · obtain ⟨d', hs, -, hf⟩ := hI.step hok
    exact ⟨d', hs, hf⟩

theorem dirStep_seen {d d' : Dirs} {op : DirOp} {α : Type} (h : dirStep d op = some d') (f : Dirs → α)
    {c : α} (he : (dirStep d op).map f = some c) : f d' = c := by
  rw [h] at he
  exact Option.some.inj he

theorem page_in_one_directory : ∃ d, Reach dirStep DirAllowed
      ⟨bootVm [some 1, some 2, some 3], [], fun _ _ => none⟩ d ∧
    pagedirGetPage (physBase + 8192) 0x08048123 d.vm = .ok (some (physBase + 7 * 4096 + 0x123), d.vm) ∧
    pagedirGetPage (physBase + 12288) 0x08048123 d.vm = .ok (none, d.vm) := by
  have h := bootVm_boot [some 1, some 2, some 3]
  let set : DirOp := .setPage (physBase + 8192) 0x08048000 (physBase + 7 * 4096) true
  obtain ⟨d1, hs1, hI1, -⟩ := @DirInv.step _ .create h.dirs trivial
  obtain ⟨d2, hs2, hI2, -⟩ := @DirInv.step _ .create hI1 trivial
  let pds := [physBase + 12288, physBase + 8192]
  let look (d : Dirs) := (d.pds, d.map (physBase + 8192) 0x8048, d.map (physBase + 12288) 0x8048)
  let first (d : Dirs) := (dirStep d .create).map fun d => (d.vm.ramPages, look d)
  let second (d : Dirs) := (dirStep d .create).bind fun d => (dirStep d set).map look
  have he : first d1 = some (12, pds, none, none) := dirStep_seen hs1 first (by decide +kernel)
  have he' : second d1 = some (pds, some (physBase + 7 * 4096), none) :=
    dirStep_seen hs1 second (by decide +kernel)
  simp only [first, second, hs2, Option.map_some, Option.bind_some, Option.some.injEq, look,
    Prod.mk.injEq] at he he'
  obtain ⟨hram, hpds, hmap, -⟩ := he
  have hok : DirAllowed d2 set := by
    refine ⟨?_, by decide, by decide, ⟨by decide, by decide, ?_⟩, hmap⟩
    · rw [hpds]
      decide
    · rw [hram]
      decide
  obtain ⟨d3, hs3, -⟩ := hI2.step hok
  simp only [hs3, Option.map_some, Option.some.injEq, Prod.mk.injEq] at he'
  obtain ⟨hpds3, hfirst, hsecond⟩ := he'
  have hr : Reach dirStep DirAllowed ⟨bootVm [some 1, some 2, some 3], [], fun _ _ => none⟩ d3 :=
    ((Reach.refl.next trivial hs1).next trivial hs2).next hok hs3
  obtain ⟨hget, -⟩ := pagedir_refines_map h hr
  refine ⟨d3, hr, ?_, ?_⟩
  · rw [hget _ (by rw [hpds3]; decide) _ (by decide)]
    exact congrArg (fun k => Except.ok (Option.map _ k, _)) hfirst
  · rw [hget _ (by rw [hpds3]; decide) _ (by decide)]
    exact congrArg (fun k => Except.ok (Option.map _ k, _)) hsecond

end Pintos.Userprog.Loader
