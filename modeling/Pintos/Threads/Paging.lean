import Pintos.Userprog.PagedirSpec

/-!
# The kernel page tables (threads/init.c)

`paging_init` maps physical memory at `PHYS_BASE`. One loop fills all the page tables, through a
pointer that changes only where the entry of the directory is empty. `translate` is what the
processor does with the tables once the directory is in CR3.
-/

namespace Pintos.Threads.Paging

open Pintos.Base Pintos.Kernel Pintos.Userprog.Loader

/-- `pte_create_kernel` past its ASSERTs. -/
def pteCreateKernel (page : Nat) (writable : Bool) : Nat :=
  vtop page ||| 1 ||| (if writable then 2 else 0)

/-- The kernel text, by its two symbols. -/
structure Text where
  start : Nat
  endKernelText : Nat

def Text.has (text : Text) (vaddr : Nat) : Bool :=
  decide (text.start ≤ vaddr) && decide (vaddr < text.endKernelText)

/-- `palloc_get_page (PAL_ASSERT | PAL_ZERO)` -/
def pallocAssert : M Nat := do
  match ← pallocGetPage .kernel true with
  | none => throw .assertion
  | some page => pure page

/-- `pt` for an entry of the directory: a new page table if the entry is empty. -/
def tableFor (pd pdeIdx : Nat) (pt : Option Nat) : M (Option Nat) := do
  let s ← get
  if s.entry pd pdeIdx = 0 then do
    let pt ← pallocAssert
    assert (pgOfs pt == 0)
    assert (!isUserVaddr pt)
    modify fun s => s.setEntry pd pdeIdx (pdeCreate pt)
    pure (some pt)
  else pure pt

/-- The body of the loop. A null `pt` is `none`. -/
def mapPage (text : Text) (pd : Nat) (pt : Option Nat) (page : Nat) : M (Option Nat) := do
  let paddr := page * pgSize % 2 ^ 32
  assert (decide (paddr < physBase))
  let vaddr := ptov paddr % 2 ^ 32
  let pt ← tableFor pd (pdNo vaddr) pt
  assert (pgOfs vaddr == 0)
  assert (!isUserVaddr vaddr)
  match pt with
  | none => throw .fault
  | some pt => do
    modify fun s => s.setEntry pt (ptNo vaddr) (pteCreateKernel vaddr (!text.has vaddr))
    pure (some pt)

/-- The loop, over the given pages. -/
def mapPages (text : Text) (pd : Nat) : Option Nat → List Nat → M Unit
  | _, [] => pure ()
  | pt, page :: pages => do
    let pt ← mapPage text pd pt page
    mapPages text pd pt pages

/-- `paging_init`. What is stored in CR3 is `vtop (base_page_dir)`. -/
def pagingInit (text : Text) : M Unit := do
  let pd ← pallocAssert
  modify fun s => { s with basePageDir := pd }
  let s ← get
  mapPages text pd none (List.range s.ramPages)
  assert (!isUserVaddr pd)

/-! ## Translation -/

/-- The entry for `va` that the processor finds: both levels are present. -/
def walk (s : Vm) (pd va : Nat) : Option Nat :=
  let pde := s.entry pd (pdNo va)
  if present pde then
    let pte := s.entry (pdeGetPt pde) (ptNo va)
    if present pte then some pte else none
  else none

/-- The physical address of `va`. -/
def translate (s : Vm) (pd va : Nat) : Option Nat :=
  (walk s pd va).map fun pte => (pte &&& 0xfffff000) + pgOfs va

/-! ## Pages that are handed out -/

/-- The kernel pool lies in the memory that is mapped. -/
structure KernelPool (s : Vm) : Prop where
  aligned : (s.pool .kernel).base % pgSize = 0
  base : physBase ≤ (s.pool .kernel).base
  ram : s.page .kernel (s.size .kernel) ≤ physBase + pgSize * s.ramPages
  cap : s.ramPages ≤ 2 ^ 18

/-- The next `n` requests for a page are met. -/
def Supplied : Nat → List (Option Nat) → Pool → Prop
  | 0, _, _ => True
  | n + 1, answers, p =>
    ∃ i, answers.headD none = some i ∧ i < bitmapSize p.usedMap ∧ bitmapTest p.usedMap i = false ∧
      Supplied n answers.tail { p with usedMap := bitmapSet p.usedMap i true }

def Supply (s : Vm) (n : Nat) : Prop := Supplied n s.answers (s.pool .kernel)

/-- Since `s0` the given pages have been taken from the kernel pool, and no other has changed. -/
structure Taken (s0 s : Vm) (pages : List Nat) : Prop where
  obtained : s.obtained = s0.obtained ++ pages
  nodup : pages.Nodup
  fresh : ∀ x ∈ pages, ∃ i < s0.size .kernel, x = s0.page .kernel i ∧ s0.used .kernel i = false
  used : ∀ i < s0.size .kernel,
    (s.used .kernel i = true ↔ s0.used .kernel i = true ∨ s0.page .kernel i ∈ pages)
  base : (s.pool .kernel).base = (s0.pool .kernel).base
  size : s.size .kernel = s0.size .kernel
  user : s.pool .user = s0.pool .user
  ram : s.ramPages = s0.ramPages
  frame : ∀ x ∉ pages, s.mem x = s0.mem x

variable {s0 s s' : Vm} {pages tables : List Nat} {text : Text} {pd x n m : Nat}

theorem Taken.start (s : Vm) : Taken s s [] where
  obtained := (List.append_nil _).symm
  nodup := List.nodup_nil
  fresh _ h := by cases h
  used i _ := by simp
  base := rfl
  size := rfl
  user := rfl
  ram := rfl
  frame _ _ := rfl

theorem KernelPool.page (h : KernelPool s) {i : Nat} (hi : i < s.size .kernel) :
    KernelPage (s.page .kernel i) := by
  obtain ⟨h1, h2, h3, h4⟩ := h
  refine ⟨?_, ?_, ?_⟩ <;> simp only [Vm.page, pgSize, physBase] at * <;> omega

theorem page_inj {i j : Nat} (h : s.page .kernel i = s.page .kernel j) : i = j := by
  simp only [Vm.page, pgSize] at h
  omega

theorem Taken.page (h : Taken s0 s pages) (i : Nat) : s.page .kernel i = s0.page .kernel i := by
  rw [Vm.page, h.base, Vm.page]

/-- The state after the request has been met with page `i`. -/
def granted (s : Vm) (i : Nat) : Vm :=
  { s with
    answers := s.answers.tail
    pool := (s.setUsed .kernel i true).pool
    mem := Function.update s.mem (s.page .kernel i) zeros
    obtained := s.obtained ++ [s.page .kernel i] }

theorem granted_entry (s : Vm) (i x j : Nat) : (granted s i).entry x j =
    if x = s.page .kernel i then 0 else s.entry x j := by
  show load32 (Function.update s.mem (s.page .kernel i) zeros x) (4 * j) = _
  by_cases hx : x = s.page .kernel i
  · rw [if_pos hx, hx, Function.update_self]
    rfl
  · rw [if_neg hx, Function.update_of_ne hx]
    rfl

theorem granted_kernel (s : Vm) (i : Nat) : (granted s i).pool .kernel =
    { s.pool .kernel with usedMap := bitmapSet (s.pool .kernel).usedMap i true } := rfl

theorem granted_user (s : Vm) (i : Nat) : (granted s i).pool .user = s.pool .user := rfl

theorem pallocAssert_cases (s : Vm) :
    (∃ i, s.answers.headD none = some i ∧ i < s.size .kernel ∧ s.used .kernel i = false ∧
      pallocAssert s = .ok (s.page .kernel i, granted s i)) ∨
    pallocAssert s = .error .assertion ∧ ∀ n, ¬ Supply s (n + 1) := by
  unfold pallocAssert pallocGetPage
  rw [bind_run, bind_run, get_run, ok_bind]
  cases ha : s.answers.headD none with
  | none =>
    refine .inr ⟨rfl, fun n hs => ?_⟩
    obtain ⟨i, hi, -⟩ := hs
    rw [ha] at hi
    cases hi
  | some i =>
    by_cases hfree : i < s.size .kernel ∧ s.used .kernel i = false
    · refine .inl ⟨i, rfl, hfree.1, hfree.2, ?_⟩
      simp only [if_pos hfree]
      rfl
    · refine .inr ⟨?_, fun n hs => ?_⟩
      · simp only [if_neg hfree]
        rfl
      · obtain ⟨j, hj, h1, h2, -⟩ := hs
        rw [ha] at hj
        obtain rfl : i = j := Option.some.inj hj
        exact hfree ⟨h1, h2⟩

theorem Supply.tail {i : Nat} (hs : Supply s (n + 1)) (ha : s.answers.headD none = some i) :
    Supply (granted s i) n := by
  obtain ⟨j, hj, -, -, hrest⟩ := hs
  rw [ha] at hj
  obtain rfl : i = j := Option.some.inj hj
  rw [Supply, granted_kernel]
  exact hrest

theorem Taken.granted {i : Nat} (h : Taken s0 s pages) (hi : i < s.size .kernel)
    (hu : s.used .kernel i = false) :
    s.page .kernel i ∉ pages ∧ Taken s0 (granted s i) (pages ++ [s.page .kernel i]) := by
  have hi0 : i < s0.size .kernel := h.size ▸ hi
  have hno := (h.used i hi0).not.mp (by simp [hu])
  push Not at hno
  have hu0 : s0.used .kernel i = false := by simpa using hno.1
  have hsame := setUsed_same s .kernel i true
  rw [h.page]
  refine ⟨hno.2, ?_, ?_, fun x hx => ?_, fun j hj => ?_, (hsame.base _).trans h.base,
    (hsame.size _).trans h.size, ?_, h.ram, fun x hx => ?_⟩
  · rw [← h.page, ← List.append_assoc, ← h.obtained]
    rfl
  · exact List.nodup_append'.mpr
      ⟨h.nodup, List.nodup_singleton _, List.disjoint_singleton.mpr hno.2⟩
  · rcases List.mem_append.mp hx with hx | hx
    · exact h.fresh x hx
    · exact ⟨i, hi0, List.mem_singleton.mp hx, hu0⟩
  · show (s.setUsed .kernel i true).used .kernel j = true ↔ _
    rw [setUsed_used s hi, List.mem_append, List.mem_singleton]
    by_cases hji : j = i
    · simp [hji]
    · have hne : s0.page .kernel j ≠ s0.page .kernel i := fun he => hji (page_inj he)
      rw [if_neg (by simp [hji]), h.used j hj]
      simp [hne]
  · exact (granted_user s i).trans h.user
  · rw [List.mem_append, List.mem_singleton, not_or, ← h.page] at hx
    exact (Function.update_of_ne hx.2 ..).trans (h.frame x hx.1)

/-! ## The tables while they are filled -/

/-- The entry for the kernel page with number `page`. -/
def kernelPte (text : Text) (page : Nat) : Nat :=
  pteCreateKernel (physBase + pgSize * page) (!text.has (physBase + pgSize * page))

/-- The first `n` pages are mapped by the given tables. -/
structure Filled (text : Text) (s0 s : Vm) (pd : Nat) (tables : List Nat) (n : Nat) : Prop where
  taken : Taken s0 s (pd :: tables)
  pool : KernelPool s0
  pde : ∀ i, s.entry pd i = if 768 ≤ i then (tables[i - 768]?.map pdeCreate).getD 0 else 0
  pte : ∀ t x, tables[t]? = some x → ∀ j < 1024,
    s.entry x j = if 1024 * t + j < n then kernelPte text (1024 * t + j) else 0

theorem kernelPte_eq (text : Text) (page : Nat) :
    kernelPte text page =
      2 ^ 12 * page ||| (if text.has (physBase + pgSize * page) then 1 else 3) := by
  have hv : vtop (physBase + pgSize * page) = 2 ^ 12 * page := Nat.add_sub_cancel_left ..
  unfold kernelPte pteCreateKernel
  rw [Nat.or_assoc, hv]
  cases text.has (physBase + pgSize * page) <;> rfl

theorem Filled.kernelPage (h : Filled text s0 s pd tables n) (hx : x ∈ pd :: tables) :
    KernelPage x := by
  obtain ⟨i, hi, rfl, -⟩ := h.taken.fresh x hx
  exact h.pool.page hi

/-- A table is added where the last one is full. -/
theorem Filled.add_table {i : Nat} (h : Filled text s0 s pd tables n) (hn : n ≤ 1024 * tables.length)
    (hi : i < s.size .kernel) (hu : s.used .kernel i = false) :
    Filled text s0 ((granted s i).setEntry pd (768 + tables.length) (pdeCreate (s.page .kernel i))) pd
      (tables ++ [s.page .kernel i]) n := by
  obtain ⟨hnew, htaken⟩ := h.taken.granted hi hu
  have hpage : KernelPage (s.page .kernel i) := by
    rw [h.taken.page]
    exact h.pool.page (h.taken.size ▸ hi)
  obtain ⟨-, -, hlt⟩ := hpage.pde
  rw [List.mem_cons, not_or] at hnew
  have hmem : ∀ x, x ≠ s.page .kernel i → ∀ j, (granted s i).entry x j = s.entry x j := by
    intro x hx j
    rw [granted_entry, if_neg hx]
  refine ⟨?_, h.pool, fun j => ?_, fun t x hx j hj => ?_⟩
  · -- the store is in the directory
    refine ⟨htaken.obtained, htaken.nodup, htaken.fresh, htaken.used, htaken.base, htaken.size,
      htaken.user, htaken.ram, fun x hx => ?_⟩
    have hne : x ≠ pd := by
      rintro rfl
      exact hx (List.mem_cons_self ..)
    exact (Function.update_of_ne hne ..).trans (htaken.frame x hx)
  · rw [entry_setEntry _ _ _ _ _ hlt, hmem pd (Ne.symm hnew.1), h.pde]
    by_cases hj : j = 768 + tables.length
    · subst hj
      rw [if_pos ⟨rfl, rfl⟩, if_pos (Nat.le_add_right ..), Nat.add_sub_cancel_left,
        List.getElem?_concat_length, Option.map_some, Option.getD_some]
    · rw [if_neg fun hc => hj hc.2]
      by_cases h768 : 768 ≤ j
      · rw [if_pos h768, if_pos h768]
        by_cases hlen : j - 768 < tables.length
        · rw [List.getElem?_append_left hlen]
        · rw [List.getElem?_eq_none (by omega),
            List.getElem?_eq_none (by rw [List.length_append, List.length_singleton]; omega)]
      · rw [if_neg h768, if_neg h768]
  · have hxpd : x ≠ pd := by
      have hnd := htaken.nodup
      rintro rfl
      exact (List.nodup_cons.mp hnd).1 (List.mem_of_getElem? hx)
    rw [entry_setEntry _ _ _ _ _ hlt, if_neg fun hc => hxpd hc.1]
    by_cases ht : t < tables.length
    · rw [List.getElem?_append_left ht] at hx
      have hne : x ≠ s.page .kernel i := by
        rintro rfl
        exact hnew.2 (List.mem_of_getElem? hx)
      rw [hmem x hne]
      exact h.pte t x hx j hj
    · have htl : t = tables.length := by
        have hlt := (List.getElem?_eq_some_iff.mp hx).1
        rw [List.length_append, List.length_singleton] at hlt
        omega
      subst htl
      rw [List.getElem?_concat_length] at hx
      obtain rfl : s.page .kernel i = x := Option.some.inj hx
      rw [if_neg (by omega), granted_entry, if_pos rfl]

/-- The next entry of the last table. -/
theorem Filled.set_pte {pt : Nat} (h : Filled text s0 s pd tables n)
    (hpt : tables[n / 1024]? = some pt) (hcap : n < 2 ^ 18) :
    Filled text s0 (s.setEntry pt (n % 1024) (kernelPte text n)) pd tables (n + 1) := by
  have hmem := List.mem_of_getElem? hpt
  have hlt : kernelPte text n < 2 ^ 32 := by
    rw [kernelPte_eq, or_flags n (by split <;> decide)]
    split <;> omega
  have hne : pd ≠ pt := by
    rintro rfl
    exact (List.nodup_cons.mp h.taken.nodup).1 hmem
  refine ⟨?_, h.pool, fun j => ?_, fun t x hx j hj => ?_⟩
  · obtain ⟨h1, h2, h3, h4, h5, h6, h7, h8, h9⟩ := h.taken
    refine ⟨h1, h2, h3, h4, h5, h6, h7, h8, fun x hx => ?_⟩
    have hxpt : x ≠ pt := by
      rintro rfl
      exact hx (List.mem_cons_of_mem _ hmem)
    exact (Function.update_of_ne hxpt ..).trans (h9 x hx)
  · rw [entry_setEntry _ _ _ _ _ hlt, if_neg (by simp [hne]), h.pde]
  · rw [entry_setEntry _ _ _ _ _ hlt, h.pte t x hx j hj]
    by_cases hc : x = pt ∧ j = n % 1024
    · obtain ⟨rfl, rfl⟩ := hc
      have ht : t = n / 1024 := by
        have hnd := (List.nodup_cons.mp h.taken.nodup).2
        exact (List.getElem?_inj (List.getElem?_eq_some_iff.mp hx).1 hnd).mp (hx.trans hpt.symm)
      rw [if_pos ⟨rfl, rfl⟩, ht, Nat.div_add_mod, if_pos (Nat.lt_succ_self n)]
    · have hne : 1024 * t + j ≠ n := by
        rintro rfl
        refine hc ⟨?_, by omega⟩
        rw [show (1024 * t + j) / 1024 = t by omega, hx] at hpt
        exact Option.some.inj hpt
      rw [if_neg hc]
      by_cases hl : 1024 * t + j < n
      · rw [if_pos hl, if_pos (by omega)]
      · rw [if_neg hl, if_neg (by omega)]

section

variable {pt : Option Nat} {i : Nat}

theorem tableFor_kept (h : s.entry pd i ≠ 0) : tableFor pd i pt s = .ok (pt, s) := by
  rw [tableFor, bind_run, get_run, ok_bind, if_neg h]
  rfl

theorem tableFor_new (he : s.entry pd i = 0) (hx : KernelPage x) (h : pallocAssert s = .ok (x, s')) :
    tableFor pd i pt s = .ok (some x, s'.setEntry pd i (pdeCreate x)) := by
  have hofs : (pgOfs x == 0) = true := beq_iff_eq.mpr hx.aligned
  have hk : (!isUserVaddr x) = true := by
    rw [isUserVaddr, decide_eq_false (Nat.not_lt.mpr hx.base)]
    rfl
  rw [tableFor, bind_run, get_run, ok_bind, if_pos he, bind_run, h, ok_bind, bind_run,
    assert_run hofs, ok_bind, bind_run, assert_run hk, ok_bind]
  rfl

theorem tableFor_refused {e : Stop} (he : s.entry pd i = 0) (h : pallocAssert s = .error e) :
    tableFor pd i pt s = .error e := by
  rw [tableFor, bind_run, get_run, ok_bind, if_pos he, bind_run, h]
  rfl

/-- The address of a page, and its indexes. -/
theorem address_of_page (hcap : n < 2 ^ 18) :
    n * pgSize % 2 ^ 32 = pgSize * n ∧ ptov (pgSize * n) % 2 ^ 32 = physBase + pgSize * n ∧
      pdNo (physBase + pgSize * n) = 768 + n / 1024 ∧ ptNo (physBase + pgSize * n) = n % 1024 := by
  refine ⟨?_, ?_, ?_, ?_⟩ <;> simp only [ptov, pdNo, ptNo, pgSize, physBase] <;> omega

/-- The body of the loop past its arithmetic. -/
theorem mapPage_run (hcap : n < 2 ^ 18) :
    mapPage text pd pt n s = (tableFor pd (768 + n / 1024) pt s).bind fun r =>
      r.1.elim (.error .fault) fun x =>
        .ok (some x, r.2.setEntry x (n % 1024) (kernelPte text n)) := by
  obtain ⟨hp, hv, hpd, hpt⟩ := address_of_page hcap
  have h1 : decide (pgSize * n < physBase) = true := decide_eq_true (by
    simp only [pgSize, physBase]
    omega)
  have h2 : (pgOfs (physBase + pgSize * n) == 0) = true := beq_iff_eq.mpr (by
    simp only [pgOfs, pgSize, physBase]
    omega)
  have h3 : (!isUserVaddr (physBase + pgSize * n)) = true := by
    rw [isUserVaddr, decide_eq_false (Nat.not_lt.mpr (Nat.le_add_right ..))]
    rfl
  unfold mapPage
  dsimp only
  rw [hp, hv, hpd, hpt, bind_run, assert_run h1, ok_bind, bind_run]
  cases tableFor pd (768 + n / 1024) pt s with
  | error e => rfl
  | ok r =>
    rw [ok_bind, ok_bind, bind_run, assert_run h2, ok_bind, bind_run, assert_run h3, ok_bind]
    cases r.1 <;> rfl

/-- One round of the loop. -/
theorem Filled.step (h : Filled text s0 s pd tables n) (hlen : tables.length = divRoundUp n 1024)
    (hn : n < 1024 * m) (hcap : n < 2 ^ 18) :
    (∃ s' tables', mapPage text pd tables.getLast? n s = .ok (tables'.getLast?, s') ∧
      Filled text s0 s' pd tables' (n + 1) ∧ tables'.length = divRoundUp (n + 1) 1024 ∧
      s'.basePageDir = s.basePageDir ∧
      (Supply s (m - tables.length) → Supply s' (m - tables'.length))) ∨
    mapPage text pd tables.getLast? n s = .error .assertion ∧ ¬ Supply s (m - tables.length) := by
  have hpde := h.pde (768 + n / 1024)
  rw [if_pos (Nat.le_add_right ..), Nat.add_sub_cancel_left] at hpde
  unfold divRoundUp at *
  by_cases h0 : n % 1024 = 0
  · -- the entry is empty, a table is made for it
    have hl : tables.length = n / 1024 := by omega
    rw [List.getElem?_eq_none (by omega), Option.map_none, Option.getD_none] at hpde
    rcases pallocAssert_cases s with ⟨i, ha, hi, hu, hget⟩ | ⟨hget, hno⟩
    · have hpage : KernelPage (s.page .kernel i) := by
        rw [h.taken.page]
        exact h.pool.page (h.taken.size ▸ hi)
      have hadd := h.add_table (by omega) hi hu
      rw [hl] at hadd
      have hlast : (tables ++ [s.page .kernel i])[n / 1024]? = some (s.page .kernel i) := by
        rw [← hl, List.getElem?_concat_length]
      have hset := hadd.set_pte hlast hcap
      refine .inl ⟨_, _, ?_, hset, ?_, rfl, fun hs => ?_⟩
      · rw [mapPage_run hcap, tableFor_new hpde hpage hget, List.getLast?_concat, ok_bind,
          Option.elim_some]
      · rw [List.length_append, List.length_singleton]
        omega
      · rw [List.length_append, List.length_singleton]
        rw [show m - tables.length = m - (tables.length + 1) + 1 by omega] at hs
        exact hs.tail ha
    · refine .inr ⟨?_, ?_⟩
      · rw [mapPage_run hcap, tableFor_refused hpde hget, error_bind]
      · rw [show m - tables.length = m - (tables.length + 1) + 1 by omega]
        exact hno _
  · have hl : tables.length = n / 1024 + 1 := by omega
    obtain ⟨x, hx⟩ : ∃ x, tables[n / 1024]? = some x :=
      ⟨_, List.getElem?_eq_getElem (by omega)⟩
    have hlast : tables.getLast? = some x := by
      rw [List.getLast?_eq_getElem?, hl]
      exact hx
    rw [hx, Option.map_some, Option.getD_some] at hpde
    have hkept : s.entry pd (768 + n / 1024) ≠ 0 := by
      obtain ⟨hpres, -, -⟩ := (h.kernelPage (List.mem_cons_of_mem _ (List.mem_of_getElem? hx))).pde
      rw [hpde]
      intro hz
      rw [hz] at hpres
      cases hpres
    refine .inl ⟨_, tables, ?_, h.set_pte hx hcap, by omega, rfl, fun hs => hs⟩
    rw [mapPage_run hcap, tableFor_kept hkept, hlast, ok_bind, Option.elim_some]

/-- The loop from page `n` on. -/
theorem Filled.loop {k : Nat} (h : Filled text s0 s pd tables n)
    (hlen : tables.length = divRoundUp n 1024) (hk : n + k ≤ 2 ^ 18) :
    (∃ s' tables', mapPages text pd tables.getLast? (List.range' n k) s = .ok ((), s') ∧
      Filled text s0 s' pd tables' (n + k) ∧ tables'.length = divRoundUp (n + k) 1024 ∧
      s'.basePageDir = s.basePageDir) ∨
    mapPages text pd tables.getLast? (List.range' n k) s = .error .assertion ∧
      ¬ Supply s (divRoundUp (n + k) 1024 - tables.length) := by
  induction k generalizing n s tables with
  | zero => exact .inl ⟨s, tables, rfl, h, hlen, rfl⟩
  | succ k ih =>
    rw [List.range'_succ, mapPages, bind_run]
    have hm : n < 1024 * divRoundUp (n + (k + 1)) 1024 := by
      unfold divRoundUp
      omega
    rcases h.step hlen hm (by omega) with ⟨s1, tables1, he, h1, hlen1, hb1, hs1⟩ | ⟨he, hno⟩
    · rw [he, ok_bind]
      dsimp only
      rw [show n + (k + 1) = n + 1 + k by omega] at hs1 ⊢
      rcases ih h1 hlen1 (by omega) with ⟨s', tables', hr, h', hlen', hb⟩ | ⟨hr, hno⟩
      · exact .inl ⟨s', tables', hr, h', hlen', hb.trans hb1⟩
      · exact .inr ⟨hr, fun hs => hno (hs1 hs)⟩
    · rw [he]
      exact .inr ⟨rfl, hno⟩

end

/-! ## The finished tables -/

theorem kernelPte_spec (text : Text) (hcap : n < 2 ^ 20) :
    present (kernelPte text n) = true ∧ kernelPte text n &&& 0xfffff000 = pgSize * n ∧
      kernelPte text n &&& 4 = 0 ∧
      (kernelPte text n &&& 2 = 0 ↔ text.has (physBase + pgSize * n) = true) := by
  rw [kernelPte_eq]
  have hlt : (if text.has (physBase + pgSize * n) then 1 else 3) < 2 ^ 12 := by split <;> decide
  refine ⟨?_, ?_, ?_, ?_⟩
  · rw [present_iff, or_flags n hlt]
    split <;> omega
  · rw [or_flags n hlt, and_addr_mask (by omega)]
    generalize (if text.has (physBase + pgSize * n) then 1 else 3) = flags at hlt
    simp only [pgSize]
    omega
  · rw [or_flags_and n (by decide)]
    cases text.has (physBase + pgSize * n) <;> rfl
  · rw [or_flags_and n (by decide)]
    cases text.has (physBase + pgSize * n) <;> decide

/-- What the processor finds for an address. -/
theorem Filled.walk_eq (h : Filled text s0 s pd tables n) (hlen : tables.length = divRoundUp n 1024)
    (hcap : n ≤ 2 ^ 18) {va : Nat} :
    walk s pd va = if physBase ≤ va ∧ va < physBase + pgSize * n
      then some (kernelPte text ((va - physBase) / pgSize)) else none := by
  have hno : ∀ w, present w = false → (if present w then
      (if present (s.entry (pdeGetPt w) (ptNo va)) then some (s.entry (pdeGetPt w) (ptNo va)) else none)
      else none) = none := fun w hw => by rw [hw]; rfl
  have hnull : present 0 = false := rfl
  unfold walk
  dsimp only
  rw [h.pde]
  by_cases hpd : 768 ≤ pdNo va
  · rw [if_pos hpd]
    cases ht : tables[pdNo va - 768]? with
    | none =>
      rw [Option.map_none, Option.getD_none, hno 0 hnull, if_neg]
      rw [List.getElem?_eq_none_iff, hlen] at ht
      simp only [divRoundUp, pdNo, pgSize, physBase] at ht ⊢
      omega
    | some x =>
      obtain ⟨h1, h2, -⟩ := (h.kernelPage (List.mem_cons_of_mem _ (List.mem_of_getElem? ht))).pde
      have hidx : 1024 * (pdNo va - 768) + ptNo va = (va - physBase) / pgSize := by
        simp only [pdNo, ptNo, pgSize, physBase] at hpd ⊢
        omega
      have hbase : physBase ≤ va := by
        simp only [pdNo, physBase] at hpd ⊢
        omega
      rw [Option.map_some, Option.getD_some, if_pos h1, h2,
        h.pte _ x ht (ptNo va) (Nat.mod_lt _ (by decide)), hidx]
      by_cases hlt : (va - physBase) / pgSize < n
      · rw [if_pos hlt, if_pos (kernelPte_spec text (by omega)).1, if_pos]
        simp only [pgSize] at hlt ⊢
        omega
      · rw [if_neg hlt, if_neg (by rw [hnull]; decide), if_neg]
        simp only [pgSize] at hlt ⊢
        omega
  · rw [if_neg hpd, hno 0 hnull, if_neg]
    simp only [pdNo, physBase] at hpd ⊢
    omega

/-- The tables under the directory of `s'` map the memory at `PHYS_BASE`, and nothing else; they are
made of pages that were free in `s`. -/
structure IdentityMap (text : Text) (s s' : Vm) : Prop where
  translates : ∀ a < s.ramPages * pgSize, translate s' s'.basePageDir (physBase + a) = some a
  nothing_else : ∀ va, translate s' s'.basePageDir va ≠ none →
    ∃ a < s.ramPages * pgSize, va = physBase + a
  read_only : ∀ va pte, walk s' s'.basePageDir va = some pte →
    (pte &&& 2 = 0 ↔ text.start ≤ va ∧ va < text.endKernelText)
  /-- The directory and the tables, as they came from the kernel pool. -/
  pages : ∃ tables, Taken s s' (s'.basePageDir :: tables) ∧
    tables.length = divRoundUp s.ramPages 1024 ∧
    (∀ i, s'.entry s'.basePageDir i =
      if 768 ≤ i then (tables[i - 768]?.map pdeCreate).getD 0 else 0) ∧
    (∀ pt ∈ tables, ∀ j < 1024, s'.entry pt j &&& 4 = 0) ∧
    -- what the loop has not written is still zero
    ∀ t pt, tables[t]? = some pt → ∀ j < 1024, s.ramPages ≤ 1024 * t + j → s'.entry pt j = 0

/-- The text begins and ends between two pages. -/
def Text.Aligned (text : Text) : Prop := text.start % pgSize = 0 ∧ text.endKernelText % pgSize = 0

theorem Text.Aligned.has_page (ht : text.Aligned) {va : Nat} (h : physBase ≤ va) :
    text.has (physBase + pgSize * ((va - physBase) / pgSize)) = true ↔
      text.start ≤ va ∧ va < text.endKernelText := by
  obtain ⟨h1, h2⟩ := ht
  rw [Text.has, Bool.and_eq_true, decide_eq_true_eq, decide_eq_true_eq]
  simp only [pgSize, physBase] at *
  omega

theorem Filled.identity (h : Filled text s0 s s.basePageDir tables s0.ramPages)
    (hlen : tables.length = divRoundUp s0.ramPages 1024) (ht : text.Aligned) :
    IdentityMap text s0 s := by
  have hcap := h.pool.cap
  refine ⟨fun a ha => ?_, fun va hva => ?_, fun va pte hw => ?_,
    tables, h.taken, hlen, h.pde, fun pt hpt j hj => ?_, fun t pt hpt j hj hge => ?_⟩
  · have hin : physBase ≤ physBase + a ∧ physBase + a < physBase + pgSize * s0.ramPages := by
      rw [Nat.mul_comm] at ha
      omega
    have hlt : a / pgSize < s0.ramPages := (Nat.div_lt_iff_lt_mul (by decide)).mpr ha
    rw [translate, h.walk_eq hlen hcap, if_pos hin, Nat.add_sub_cancel_left, Option.map_some,
      (kernelPte_spec text (by omega)).2.1]
    simp only [pgOfs, pgSize, physBase]
    congr 1
    omega
  · rw [translate, h.walk_eq hlen hcap] at hva
    by_cases hin : physBase ≤ va ∧ va < physBase + pgSize * s0.ramPages
    · exact ⟨va - physBase, by rw [Nat.mul_comm]; omega, by omega⟩
    · rw [if_neg hin] at hva
      exact absurd rfl hva
  · rw [h.walk_eq hlen hcap] at hw
    by_cases hin : physBase ≤ va ∧ va < physBase + pgSize * s0.ramPages
    · rw [if_pos hin] at hw
      obtain rfl := Option.some.inj hw
      have hlt : (va - physBase) / pgSize < s0.ramPages := by
        simp only [pgSize] at hin ⊢
        omega
      rw [(kernelPte_spec text (by omega)).2.2.2, ht.has_page hin.1]
    · rw [if_neg hin] at hw
      cases hw
  · obtain ⟨t, hpt⟩ := List.getElem?_of_mem hpt
    rw [h.pte t pt hpt j hj]
    by_cases hlt : 1024 * t + j < s0.ramPages
    · rw [if_pos hlt, (kernelPte_spec text (by omega)).2.2.1]
    · rw [if_neg hlt, Nat.zero_and]
  · rw [h.pte t pt hpt j hj, if_neg (Nat.not_lt.mpr hge)]

/-- **`paging_init`** makes the kernel page tables the identity map, unless `palloc` has too few
pages for them. -/
theorem paging_init_identity (h : KernelPool s) (ht : text.Aligned) :
    (∃ s', pagingInit text s = .ok ((), s') ∧ IdentityMap text s s') ∨
      pagingInit text s = .error .assertion ∧ ¬ Supply s (divRoundUp s.ramPages 1024 + 1) := by
  unfold pagingInit
  rw [bind_run]
  rcases pallocAssert_cases s with ⟨i, ha, hi, hu, hget⟩ | ⟨hget, hno⟩
  · have hpage := h.page hi
    rw [hget, ok_bind, bind_run, modify_run, ok_bind, bind_run, get_run, ok_bind, bind_run]
    dsimp only
    have hempty : Filled text s { granted s i with basePageDir := s.page .kernel i }
        (s.page .kernel i) [] 0 := by
      obtain ⟨-, h1, h2, h3, h4, h5, h6, h7, h8, h9⟩ := (Taken.start s).granted hi hu
      refine ⟨⟨h1, h2, h3, h4, h5, h6, h7, h8, h9⟩, h, fun j => ?_, fun t x hx => by cases hx⟩
      have hz := granted_entry s i (s.page .kernel i) j
      rw [if_pos rfl] at hz
      rw [List.getElem?_nil, Option.map_none, Option.getD_none, ite_self]
      exact hz
    rw [List.range_eq_range']
    rcases hempty.loop (k := (granted s i).ramPages) rfl ((Nat.zero_add _).trans_le h.cap) with
      ⟨s', tables', hr, h', hlen, hb⟩ | ⟨hr, hno⟩
    · have hkern : (!isUserVaddr (s.page .kernel i)) = true := by
        rw [isUserVaddr, decide_eq_false (Nat.not_lt.mpr hpage.base)]
        rfl
      rw [Nat.zero_add] at h' hlen
      dsimp only at hr
      refine .inl ⟨s', ?_, Filled.identity (by rwa [hb]) hlen ht⟩
      rw [show (none : Option Nat) = ([] : List Nat).getLast? from rfl, hr, ok_bind,
        assert_run hkern]
    · rw [Nat.zero_add] at hno
      dsimp only at hr
      refine .inr ⟨?_, fun hs => hno (hs.tail ha)⟩
      rw [show (none : Option Nat) = ([] : List Nat).getLast? from rfl, hr, error_bind]
  · rw [hget]
    exact .inr ⟨rfl, hno _⟩

/-- Five pages of memory, the last three in the kernel pool. -/
def fivePages : Vm where
  ramPages := 5
  pool p := match p with
    | .kernel => ⟨⟨[false, false, false]⟩, physBase + 4096, physBase + 8192⟩
    | .user => ⟨⟨[]⟩, physBase + 20480, physBase + 20480⟩
  mem _ := zeros
  basePageDir := 0
  pagedir := none
  answers := [some 0, some 1]
  obtained := []
  freed := []
  pos := 0
  reads := []

theorem fivePages_mapped :
    ∃ s', pagingInit ⟨physBase, physBase + 4096⟩ fivePages = .ok ((), s') ∧
      IdentityMap ⟨physBase, physBase + 4096⟩ fivePages s' :=
  (paging_init_identity ⟨by decide, by decide, by decide, by decide⟩ ⟨by decide, by decide⟩).resolve_right
    fun h => h.2 ⟨0, rfl, by decide, by decide, 1, rfl, by decide, by decide, trivial⟩

end Pintos.Threads.Paging
