import Pintos.Userprog.LoadStack
import Pintos.Userprog.PagedirDestroy

/-!
# From `load` to `process_exit`

Whatever `load` returned, and whatever the program did in between, `process_exit` gives
back each page that `load` obtained and not given back yet, and no other page.
-/

namespace Pintos.Userprog.Loader

open Pintos.Base Pintos.Kernel Pintos.Threads

/-! ## The program runs -/

/-- The processor sets the accessed bit and the dirty bit of an entry that it uses. -/
def Touched (w w' : Nat) : Prop := w' = w ∨ present w = true ∧ w' ||| 0x60 = w ||| 0x60

theorem or_and_of_disjoint {w w' m n : Nat} (h : w' ||| m = w ||| m) (hn : m &&& n = 0) :
    w' &&& n = w &&& n := by
  have h' := congrArg (· &&& n) h
  simp only [Nat.and_or_distrib_right, hn, Nat.or_zero] at h'
  exact h'

section

variable {w w' : Nat} {o : Option Nat} {b : Bool}

theorem Touched.and (h : Touched w w') {n : Nat} (hn : 0x60 &&& n = 0) : w' &&& n = w &&& n := by
  rcases h with rfl | ⟨-, h⟩
  · rfl
  · exact or_and_of_disjoint h hn

theorem Touched.present (h : Touched w w') : present w' = present w := by
  unfold Loader.present
  rw [h.and (by decide)]

theorem PdeIs.touched (h : PdeIs w o) (ht : Touched w w') : PdeIs w' o := by
  cases o with
  | none =>
    have hz : w = 0 := h
    subst hz
    rcases ht with ht | ⟨hp, -⟩
    · exact ht
    · cases hp
  | some pt =>
    refine ⟨by rw [ht.present]; exact h.1, ?_⟩
    rw [pdeGetPt, ht.and (by decide)]
    exact h.2

theorem PteIs.touched (h : PteIs w b o) (ht : Touched w w') : PteIs w' b o := by
  cases o with
  | none =>
    have hp : Loader.present w = false := h
    exact ht.present.trans hp
  | some k =>
    refine ⟨by rw [ht.present]; exact h.1, ?_, ?_⟩
    · rw [pteGetPage, ht.and (by decide)]
      exact h.2.1
    · rw [ht.and (by decide)]
      exact h.2.2

end

/-- What happens to the memory of a process while its program runs: user pages change in any
way, its page tables as the processor changes them. No system call maps or unmaps a page. -/
structure UserRun (s s' : Vm) : Prop where
  pool : s'.pool = s.pool
  ramPages : s'.ramPages = s.ramPages
  basePageDir : s'.basePageDir = s.basePageDir
  pagedir : s'.pagedir = s.pagedir
  obtained : s'.obtained = s.obtained
  freed : s'.freed = s.freed
  pde : ∀ pd, s.pagedir = some pd → ∀ i < 768, Touched (s.entry pd i) (s'.entry pd i)
  pte : ∀ pd, s.pagedir = some pd → ∀ i < 768, present (s.entry pd i) = true → ∀ j < 1024,
    Touched (s.entry (pdeGetPt (s.entry pd i)) j) (s'.entry (pdeGetPt (s.entry pd i)) j)

theorem UserRun.refl (s : Vm) : UserRun s s :=
  ⟨rfl, rfl, rfl, rfl, rfl, rfl, fun _ _ _ _ => .inl rfl, fun _ _ _ _ _ _ _ => .inl rfl⟩

section

variable {s s' s0 : Vm} {pd : Nat} {T : Tree} {held : List Nat}

/-- The address space is as it was. -/
theorem Space.user_run (h : Space s0 s pd T held) (hpd : s.pagedir = some pd) (hr : UserRun s s') :
    Space s0 s' pd T held where
  toLedger := h.toLedger.congr hr.pool hr.ramPages hr.basePageDir hr.obtained hr.freed
  root := h.root
  mem := h.mem
  pool := h.pool
  inj := h.inj
  table := h.table
  frame := h.frame
  pde i hi := (h.pde i hi).touched (hr.pde pd hpd i hi)
  pte i pt j hpt hj := by
    have hi := h.table i pt hpt
    have hpde := h.pde i hi
    rw [hpt] at hpde
    have ht := hr.pte pd hpd i hi hpde.1 j hj
    rw [hpde.2] at ht
    exact (h.pte i pt j hpt hj).touched ht
  baseUsed := h.baseUsed

/-! ## What `pagedir_destroy` reaches -/

/-- No page is obtained. -/
def Obtains (l : List Nat) (m : M Unit) : Prop :=
  ∀ s : Vm, s.obtained = l → Wp (fun _ => True) m (fun _ s' => s'.obtained = l) s

theorem pallocFreePage_obtained (page : Nat) (l : List Nat) : Obtains l (pallocFreePage page) := by
  intro s hs
  unfold pallocFreePage assert
  split <;> rw [wp_bind]
  · rw [wp_pure]
    split
    · rw [wp_pure]
      exact hs
    rw [wp_bind, wp_get]
    cases s.poolOf page with
    | none =>
      simp only
      rw [wp_throw]
      trivial
    | some p =>
      simp only
      split <;> rw [wp_bind]
      · rw [wp_pure, wp_set]
        exact hs
      · rw [wp_throw]
        trivial
  · rw [wp_throw]
    trivial

theorem freePages_obtained (pt : Nat) (l js : List Nat) : Obtains l (freePages pt js) := by
  induction js with
  | nil =>
    intro s hs
    rw [freePages, wp_pure]
    exact hs
  | cons j js ih =>
    intro s hs
    rw [freePages, wp_bind, wp_get]
    split
    · rw [wp_bind]
      exact (pallocFreePage_obtained _ l s hs).mono fun _ s' => ih s'
    · exact ih s hs

theorem freeTables_obtained (pd : Nat) (l is : List Nat) : Obtains l (freeTables pd is) := by
  induction is with
  | nil =>
    intro s hs
    rw [freeTables, wp_pure]
    exact hs
  | cons i is ih =>
    intro s hs
    rw [freeTables, wp_bind, wp_get]
    split
    · generalize List.range 1024 = js
      refine (freePages_obtained _ l js s hs).bind fun _ s1 h1 => ?_
      exact (pallocFreePage_obtained _ l s1 h1).bind fun _ s' => ih s'
    · exact ih s hs

theorem pagedirDestroy_obtained (pd : Nat) (l : List Nat) : Obtains l (pagedirDestroy pd) := by
  intro s hs
  unfold pagedirDestroy assert
  rw [wp_bind, wp_get]
  split
  · rw [wp_bind, wp_pure, wp_bind]
    exact (freeTables_obtained pd l _ s hs).mono fun _ s1 => pallocFreePage_obtained pd l s1
  · rw [wp_bind, wp_throw]
    trivial

/-- A page that the walk through the user half of a directory comes to: the directory, a page
table, or a page that such a table maps. -/
def Vm.Reaches (s : Vm) (pd x : Nat) : Prop :=
  x = pd ∨ ∃ i < pdNo physBase, present (s.entry pd i) = true ∧
    (x = pdeGetPt (s.entry pd i) ∨ ∃ j < 1024,
      present (s.entry (pdeGetPt (s.entry pd i)) j) = true ∧
        x = pteGetPage (s.entry (pdeGetPt (s.entry pd i)) j))

theorem Space.reaches (h : Space s0 s pd T held) (hl : T.addr .loose = none) {x : Nat}
    (hx : x ∈ held) : s.Reaches pd x := by
  obtain ⟨n, hn⟩ := (h.mem x).mp hx
  cases n with
  | root =>
    rw [h.root] at hn
    exact .inl (Option.some.inj hn).symm
  | loose =>
    rw [hl] at hn
    cases hn
  | table i =>
    have hi := h.table i x hn
    have hpde := h.pde i hi
    rw [hn] at hpde
    exact .inr ⟨i, hi, hpde.1, .inl hpde.2.symm⟩
  | frame v =>
    obtain ⟨pt, hpt⟩ := h.frame v x hn
    have hi := h.table _ pt hpt
    have hpde := h.pde _ hi
    have hpte := h.pte _ pt (v % 1024) hpt (Nat.mod_lt _ (by decide))
    rw [show 1024 * (v / 1024) + v % 1024 = v by omega, hn] at hpte
    rw [hpt] at hpde
    refine .inr ⟨v / 1024, hi, hpde.1, .inr ⟨v % 1024, Nat.mod_lt _ (by decide), ?_⟩⟩
    rw [hpde.2]
    exact ⟨hpte.1, hpte.2.1.symm⟩

/-- **`process_exit`** gives back what is held. -/
theorem Space.process_exit (h : Space s0 s pd T held) (hl : T.addr .loose = none)
    (hpd : s.pagedir = some pd) :
    ∃ s', processExit s = .ok ((), s') ∧ Ledger s0 s' [] ∧ s'.obtained = s.obtained ∧
      ∀ x ∈ s'.freed, x ∈ s.freed ∨ s.Reaches pd x := by
  have h' : Space s0 { s with pagedir := none } pd T held :=
    h.congr rfl rfl rfl rfl rfl fun _ _ _ _ => rfl
  obtain ⟨s', he, hl'⟩ := h'.destroy hl
  have ho : s'.obtained = s.obtained := 
    (pagedirDestroy_obtained pd s.obtained { s with pagedir := none } rfl).ok he
  refine ⟨s', ?_, hl', ho, fun x hx => ?_⟩
  · rw [processExit, bind_run, get_run, ok_bind, hpd]
    exact he
  · have hmem : x ∈ s.obtained := by
      rw [← ho, hl'.perm.mem_iff, List.append_nil]
      exact hx
    rcases List.mem_append.mp (h.perm.mem_iff.mp hmem) with hf | hh
    · exact .inl hf
    · exact .inr (h.reaches hl hh)

/-- **The pages of a process are conserved.** After `load`, however it ended, and after
anything the program did, `process_exit` runs through, and then each page that was obtained has
been freed exactly once, the pools are as they were before `load`, no page that was in use before
has been freed, and `process_exit` itself has freed only pages that the user half of the directory
leads to. -/
theorem load_exit_conserves {s1 s2 : Vm} {x : CString} {words : List CString} {stale : Stale}
    {file : Option Image} {r : Option (Nat × Nat)} (h : Boot s)
    (hload : load (x :: words) stale file s = .ok (r, s1)) (hrun : UserRun s1 s2) :
    ∃ s3, processExit s2 = .ok ((), s3) ∧
      s3.obtained = s1.obtained ∧ s3.obtained.Perm s3.freed ∧
      (∀ p i, i < s.size p → s3.used p i = s.used p i) ∧
      (∀ y ∈ s3.freed, ∃ p i, i < s.size p ∧ y = s.page p i ∧ s.used p i = false) ∧
      ∀ y ∈ s3.freed, y ∈ s1.freed ∨ ∃ pd, s2.pagedir = some pd ∧ s2.Reaches pd y := by
  -- it is enough to end with an empty ledger
  have key : ∀ s3, Ledger s s3 [] → s3.obtained.Perm s3.freed ∧
      (∀ p i, i < s.size p → s3.used p i = s.used p i) ∧
      ∀ y ∈ s3.freed, ∃ p i, i < s.size p ∧ y = s.page p i ∧ s.used p i = false := by
    intro s3 hl
    have hperm : s3.obtained.Perm s3.freed := by simpa using hl.perm
    refine ⟨hperm, fun p i hi => ?_, fun y hy => hl.fresh y (hperm.mem_iff.mpr hy)⟩
    have hu := hl.used p i hi
    simp only [List.not_mem_nil, or_false] at hu
    exact Bool.eq_iff_iff.mpr hu
  rcases (load_spec h).ok hload with ⟨-, hnone, hl⟩ | ⟨pd, ⟨V, ⟨T, held, hs, hloose, -⟩, hpd⟩, -⟩
  · have hl2 := hl.congr hrun.pool hrun.ramPages hrun.basePageDir hrun.obtained hrun.freed
    obtain ⟨h1, h2, h3⟩ := key s2 hl2
    refine ⟨s2, ?_, hrun.obtained, h1, h2, h3, fun y hy => .inl ?_⟩
    · rw [processExit, bind_run, get_run, ok_bind, hrun.pagedir, hnone]
      rfl
    · rw [← hrun.freed]
      exact hy
  · have hpd2 : s2.pagedir = some pd := hrun.pagedir.trans hpd
    obtain ⟨s3, he, hl3, ho, hfreed⟩ := (hs.user_run hpd hrun).process_exit hloose hpd2
    obtain ⟨h1, h2, h3⟩ := key s3 hl3
    refine ⟨s3, he, ho.trans hrun.obtained, h1, h2, h3, fun y hy => ?_⟩
    rcases hfreed y hy with hf | hre
    · exact .inl (by rw [← hrun.freed]; exact hf)
    · exact .inr ⟨pd, hpd2, hre⟩

/-- There is no page for a page table: `setup_stack` frees its page, `process_exit` the
directory. -/
theorem exit_after_failed_load : ∃ s1 s3,
    load [⟨[101, 99], by decide⟩] ⟨fun _ => .null, fun _ => 0⟩ none (bootVm [some 1, some 0]) =
      .ok (none, s1) ∧
    s1.obtained = [physBase + 8192, physBase + 7 * 4096] ∧ s1.freed = [physBase + 7 * 4096] ∧
    processExit s1 = .ok ((), s3) ∧ s3.obtained.Perm s3.freed := by
  have hrun : load [⟨[101, 99], by decide⟩] ⟨fun _ => .null, fun _ => 0⟩ none
      (bootVm [some 1, some 0]) = .ok (none, _) := rfl
  obtain ⟨s3, he, -, hp, -⟩ := load_exit_conserves (bootVm_boot _) hrun (.refl _)
  exact ⟨_, s3, hrun, rfl, rfl, he, hp⟩
end

end Pintos.Userprog.Loader
