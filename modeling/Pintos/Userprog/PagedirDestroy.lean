import Pintos.Userprog.PagedirSpec

/-!
# `pagedir_destroy` frees every page of an address space once

The two loops free what the entries name, so the proof follows the held pages: each table's
frames, then the table, and last the directory. A page is filled with 0xcc when it is
freed, so it matters that the tables still to come are other pages.
-/

namespace Pintos.Userprog.Loader

open Pintos.Base Pintos.Kernel Pintos.Threads

section

variable {s s' s0 : Vm} {pd pt : Nat} {T : Tree} {held : List Nat}

/-- A page table entry, whether writable or not. -/
def FrameIs (e : Nat) : Option Nat → Prop
  | none => present e = false
  | some k => present e = true ∧ pteGetPage e = k

theorem PteIs.frameIs {e : Nat} {w : Bool} {o : Option Nat} (h : PteIs e w o) : FrameIs e o := by
  cases o with
  | none => exact h
  | some k => exact ⟨h.1, h.2.1⟩

theorem free_mem {p : PoolId} {i q : Nat} (h : q ≠ s.page p i) : (s.free p i).mem q = s.mem q :=
  Function.update_of_ne h ..

/-- The inner loop frees the frames of the entries it visits. -/
theorem freePages_run (o : Nat → Option Nat) {js : List Nat} (hnd : js.Nodup)
    (hinj : ∀ j ∈ js, ∀ j' ∈ js, ∀ k, o j = some k → o j' = some k → j = j')
    (hl : Ledger s0 s held) (ho : ∀ j ∈ js, FrameIs (s.entry pt j) (o j))
    (hheld : ∀ j ∈ js, ∀ k, o j = some k → k ∈ held ∧ k ≠ pt) :
    ∃ s' held', freePages pt js s = .ok ((), s') ∧ Ledger s0 s' held' ∧
      (∀ x, x ∈ held' ↔ x ∈ held ∧ ∀ j ∈ js, o j ≠ some x) ∧
      ∀ q, (∀ j ∈ js, o j ≠ some q) → s'.mem q = s.mem q := by
  induction js generalizing s held with
  | nil => exact ⟨s, held, rfl, hl, by simp, fun _ _ => rfl⟩
  | cons j js ih =>
    rw [List.nodup_cons] at hnd
    have hj := ho j List.mem_cons_self
    have hinj' : ∀ a ∈ js, ∀ b ∈ js, ∀ k, o a = some k → o b = some k → a = b :=
      fun a ha b hb => hinj a (List.mem_cons_of_mem _ ha) b (List.mem_cons_of_mem _ hb)
    cases hoj : o j with
    | none =>
      rw [hoj] at hj
      have hp : present (s.entry pt j) = false := hj
      obtain ⟨s', held', he, hl', hm, hq⟩ := ih hnd.2 hinj' hl
        (fun a ha => ho a (List.mem_cons_of_mem _ ha))
        (fun a ha => hheld a (List.mem_cons_of_mem _ ha))
      refine ⟨s', held', ?_, hl', fun x => ?_, fun q hq' => ?_⟩
      · rw [freePages, bind_run, get_run, ok_bind, hp]
        exact he
      · rw [hm]
        simp [hoj]
      · exact hq q fun a ha => hq' a (List.mem_cons_of_mem _ ha)
    | some k =>
      rw [hoj] at hj
      obtain ⟨hk, hkpt⟩ := hheld j List.mem_cons_self k hoj
      obtain ⟨p, i, hi, hkp, hfree, hl1⟩ := hl.free hk
      have hother : ∀ a ∈ js, o a ≠ some k := fun a ha hak => hnd.1
        (hinj j List.mem_cons_self a (List.mem_cons_of_mem _ ha) k hoj hak ▸ ha)
      have hentry : ∀ a, (s.free p i).entry pt a = s.entry pt a := by
        intro a
        unfold Vm.entry
        rw [free_mem]
        rw [← hkp]
        exact Ne.symm hkpt
      obtain ⟨s', held', he, hl', hm, hq⟩ := ih hnd.2 hinj' hl1
        (fun a ha => by rw [hentry]; exact ho a (List.mem_cons_of_mem _ ha))
        (fun a ha b hb => by
          obtain ⟨h1, h2⟩ := hheld a (List.mem_cons_of_mem _ ha) b hb
          refine ⟨(List.mem_erase_of_ne ?_).mpr h1, h2⟩
          rintro rfl
          exact hother a ha hb)
      refine ⟨s', held', ?_, hl', fun x => ?_, fun q hq' => ?_⟩
      · rw [freePages, bind_run, get_run, ok_bind, if_pos hj.1, hj.2, bind_run, hfree]
        exact he
      · rw [hm, hl.nodup.mem_erase_iff]
        simp only [List.mem_cons, forall_eq_or_imp, hoj, ne_eq, Option.some.injEq]
        constructor
        · rintro ⟨⟨h1, h2⟩, h3⟩
          exact ⟨h2, Ne.symm h1, h3⟩
        · rintro ⟨h1, h2, h3⟩
          exact ⟨⟨Ne.symm h2, h1⟩, h3⟩
      · rw [hq q fun a ha => hq' a (List.mem_cons_of_mem _ ha), free_mem]
        rintro rfl
        exact hq' j List.mem_cons_self (by rw [hoj, hkp])

/-- `x` is the table of entry `i`, or a frame under it. -/
def Tree.Under (T : Tree) (i x : Nat) : Prop :=
  T.addr (.table i) = some x ∨ ∃ j < 1024, T.addr (.frame (1024 * i + j)) = some x

/-- The outer loop frees the tables of the entries it visits, and the frames under them. -/
theorem freeTables_run {is : List Nat} (hnd : is.Nodup)
    (hinj : ∀ n m x, T.addr n = some x → T.addr m = some x → n = m)
    (hroot : T.addr .root = some pd)
    (hframe : ∀ v x, T.addr (.frame v) = some x → ∃ pt, T.addr (.table (v / 1024)) = some pt)
    (hl : Ledger s0 s held)
    (hpde : ∀ i ∈ is, PdeIs (s.entry pd i) (T.addr (.table i)))
    (hpte : ∀ i ∈ is, ∀ pt, T.addr (.table i) = some pt → ∀ j < 1024,
      FrameIs (s.entry pt j) (T.addr (.frame (1024 * i + j))))
    (hheld : ∀ i ∈ is, ∀ x, T.Under i x → x ∈ held) :
    ∃ s' held', freeTables pd is s = .ok ((), s') ∧ Ledger s0 s' held' ∧
      ∀ x, x ∈ held' ↔ x ∈ held ∧ ∀ i ∈ is, ¬ T.Under i x := by
  induction is generalizing s held with
  | nil => exact ⟨s, held, rfl, hl, by simp⟩
  | cons i is ih =>
    rw [List.nodup_cons] at hnd
    have hi := hpde i List.mem_cons_self
    cases ht : T.addr (.table i) with
    | none =>
      rw [ht] at hi
      have hp : present (s.entry pd i) = false := by
        rw [show s.entry pd i = 0 from hi]
        rfl
      obtain ⟨s', held', he, hl', hm⟩ := ih hnd.2 hl
        (fun a ha => hpde a (List.mem_cons_of_mem _ ha))
        (fun a ha => hpte a (List.mem_cons_of_mem _ ha))
        (fun a ha => hheld a (List.mem_cons_of_mem _ ha))
      refine ⟨s', held', ?_, hl', fun x => ?_⟩
      · rw [freeTables, bind_run, get_run, ok_bind, hp]
        exact he
      · have hnone : ¬ T.Under i x := by
          rintro (h | ⟨j, hj, h⟩)
          · rw [ht] at h
            cases h
          · obtain ⟨pt, hpt⟩ := hframe _ x h
            rw [show (1024 * i + j) / 1024 = i by omega, ht] at hpt
            cases hpt
        rw [hm]
        simp [hnone]
    | some pt =>
      rw [ht] at hi
      -- first the frames under the table
      obtain ⟨s1, held1, he1, hl1, hm1, hq1⟩ := freePages_run
        (fun j => T.addr (.frame (1024 * i + j))) List.nodup_range
        (fun a _ b _ k ha hb => by
          have := hinj _ _ k ha hb
          simpa using this) hl
        (fun j hj => hpte i List.mem_cons_self pt ht j (List.mem_range.mp hj))
        (fun j hj k hk => ⟨hheld i List.mem_cons_self k (.inr ⟨j, List.mem_range.mp hj, hk⟩), by
          rintro rfl
          cases hinj _ _ k hk ht⟩)
      -- then the table itself
      have hpt1 : pt ∈ held1 := by
        rw [hm1]
        refine ⟨hheld i List.mem_cons_self pt (.inl ht), fun j _ hj => ?_⟩
        cases hinj _ _ pt hj ht
      obtain ⟨p, k, hk, hkp, hfree, hl2⟩ := hl1.free hpt1
      have hsame : ∀ n q, T.addr n = some q → ¬ T.Under i q → (s1.free p k).mem q = s.mem q := by
        intro n q hn hu
        rw [free_mem, hq1]
        · intro j hj hjq
          exact hu (.inr ⟨j, List.mem_range.mp hj, hjq⟩)
        · rintro rfl
          exact hu (.inl (by rw [ht, hkp]))
      have hnot : ∀ n q, T.addr n = some q → n ≠ .table i →
          (∀ j < 1024, n ≠ .frame (1024 * i + j)) → ¬ T.Under i q := by
        rintro n q hn h1 h2 (h | ⟨j, hj, h⟩)
        · exact h1 (hinj n _ q hn h)
        · exact h2 j hj (hinj n _ q hn h)
      have hpd : (s1.free p k).mem pd = s.mem pd :=
        hsame .root pd hroot (hnot .root pd hroot (by simp) (by simp))
      have htab : ∀ a ∈ is, ∀ q, T.addr (.table a) = some q → (s1.free p k).mem q = s.mem q := by
        intro a ha q hq
        refine hsame _ q hq (hnot _ q hq ?_ (by simp))
        rintro hc
        cases hc
        exact hnd.1 ha
      obtain ⟨s', held', he, hl', hm⟩ := ih (s := s1.free p k) hnd.2 hl2
        (fun a ha => by
          unfold Vm.entry
          rw [hpd]
          exact hpde a (List.mem_cons_of_mem _ ha))
        (fun a ha q hq j hj => by
          unfold Vm.entry
          rw [htab a ha q hq]
          exact hpte a (List.mem_cons_of_mem _ ha) q hq j hj)
        (fun a ha x hx => by
          have hai : a ≠ i := fun hc => hnd.1 (hc ▸ ha)
          rw [hl1.nodup.mem_erase_iff, hm1]
          refine ⟨?_, hheld a (List.mem_cons_of_mem _ ha) x hx, fun j hj hjx => ?_⟩
          · rintro rfl
            rcases hx with hx | ⟨j, -, hx⟩
            · have := hinj _ _ x hx ht
              exact hai (by simpa using this)
            · cases hinj _ _ x hx ht
          · rcases hx with hx | ⟨l, hl, hx⟩
            · cases hinj _ _ x hx hjx
            · have := hinj _ _ x hx hjx
              simp only [Node.frame.injEq] at this
              have := List.mem_range.mp hj
              omega)
      refine ⟨s', held', ?_, hl', fun x => ?_⟩
      · rw [freeTables, bind_run, get_run, ok_bind, if_pos hi.1, hi.2, bind_run, he1]
        show ((pallocFreePage pt s1).bind fun r => freeTables pd is r.2) = _
        rw [hfree]
        exact he
      · rw [hm, hl1.nodup.mem_erase_iff, hm1]
        simp only [List.mem_cons, forall_eq_or_imp, Tree.Under, ht, Option.some.injEq, not_or,
          not_exists, not_and, List.mem_range, ne_eq]
        constructor
        · rintro ⟨⟨h1, h2, h3⟩, h4⟩
          exact ⟨h2, ⟨Ne.symm h1, h3⟩, h4⟩
        · rintro ⟨h1, ⟨h2, h3⟩, h4⟩
          exact ⟨⟨Ne.symm h2, h1, h3⟩, h4⟩

/-- **`pagedir_destroy`** frees all pages of an address space. -/
theorem Space.destroy (h : Space s0 s pd T held) (hloose : T.addr .loose = none) :
    ∃ s', pagedirDestroy pd s = .ok ((), s') ∧ Ledger s0 s' [] := by
  have hbase : (pd != s.basePageDir) = true := bne_iff_ne.mpr (h.ne_base h.root)
  obtain ⟨s1, held1, he1, hl1, hm1⟩ := freeTables_run
    (List.nodup_range : (List.range (pdNo physBase)).Nodup) h.inj h.root h.frame h.toLedger
    (fun i hi => h.pde i (List.mem_range.mp hi))
    (fun i hi pt hpt j hj => (h.pte i pt j hpt hj).frameIs)
    (fun i hi x hx => by
      rw [h.mem]
      rcases hx with hx | ⟨j, -, hx⟩
      · exact ⟨_, hx⟩
      · exact ⟨_, hx⟩)
  -- what is left is the directory
  have hleft : ∀ x, x ∈ held1 ↔ x = pd := by
    intro x
    rw [hm1, h.mem]
    constructor
    · rintro ⟨⟨n, hn⟩, hu⟩
      cases n with
      | root =>
        rw [h.root] at hn
        exact (Option.some.inj hn).symm
      | table i => exact absurd (.inl hn) (hu i (List.mem_range.mpr (h.table i x hn)))
      | frame v =>
        obtain ⟨pt, hpt⟩ := h.frame v x hn
        refine absurd (.inr ⟨v % 1024, Nat.mod_lt _ (by decide), ?_⟩)
          (hu (v / 1024) (List.mem_range.mpr (h.table _ pt hpt)))
        rwa [show 1024 * (v / 1024) + v % 1024 = v by omega]
      | loose =>
        rw [hloose] at hn
        cases hn
    · rintro rfl
      refine ⟨⟨_, h.root⟩, ?_⟩
      rintro i - (hx | ⟨j, -, hx⟩)
      · cases h.inj _ _ _ hx h.root
      · cases h.inj _ _ _ hx h.root
  obtain ⟨p, i, -, -, hfree, hl2⟩ := hl1.free ((hleft pd).mpr rfl)
  refine ⟨s1.free p i, ?_, ?_⟩
  · rw [pagedirDestroy, bind_run, get_run, ok_bind, bind_run, assert_run hbase, ok_bind, bind_run,
      he1]
    exact hfree
  · have hnil : held1.erase pd = [] := by
      rw [List.eq_nil_iff_forall_not_mem]
      intro x hx
      rw [hl1.nodup.mem_erase_iff, hleft] at hx
      exact hx.1 hx.2
    rwa [hnil] at hl2

end

end Pintos.Userprog.Loader
