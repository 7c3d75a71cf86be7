import Pintos.Userprog.LoadBlock

/-!
# When `load` returns

`load` can stop the kernel in `setup_stack` only: it has no page for the stack, it finds no null
pointer in `arguments` or a pointer that is no string in front of it, or the stack does not fit on
its page. `load_returns_iff` says in terms of the allocations, the command line and the old
contents of `arguments` when that is not so.
-/

namespace Pintos.Userprog.Loader

open Pintos.Base Pintos.Kernel Pintos.Threads

/-! ## The condition -/

/-- `palloc_get_page` finds a page of the pool. -/
def Vm.grants (s : Vm) (p : PoolId) : Bool :=
  match s.answers.headD none with
  | none => false
  | some i => decide (i < s.size p) && !s.used p i

/-- The pools after that. -/
def Vm.granted (s : Vm) (p : PoolId) : Vm :=
  match s.answers.headD none with
  | none => s
  | some i => { s.setUsed p i true with answers := s.answers.tail }

/-- The words of the command line and the strings that `setup_stack` finds behind them, up to a
null pointer inside the array, fit on the stack page. -/
def BlockFits (L : List CString) (stale : Stale) : Prop :=
  L.length + (stale.behind L.length).length < 32 ∧
    ∃ found, stringsOf (stale.behind L.length) = some found ∧ blockSize (L ++ found) ≤ pgSize

/-- There is no page directory, or there is a stack page, and no page table for it or room. -/
def LoadFits (L : List CString) (stale : Stale) (s : Vm) : Prop :=
  s.grants .kernel = true → (s.granted .kernel).grants .user = true ∧
    (((s.granted .kernel).granted .user).grants .kernel = true → BlockFits L stale)

/-! ## Segments cannot stop the kernel -/

/-- Nothing but an ASSERT stops `m`. -/
abbrev Asserts {α : Type} (m : M α) : Prop := Throws (· = Stop.assertion) m

theorem assert_asserts (b : Bool) : Asserts (assert b) := by
  unfold assert
  split
  · exact .pure _
  · exact .throw rfl

theorem pallocGetPage_asserts (p : PoolId) (zero : Bool) : Asserts (pallocGetPage p zero) := by
  refine .bind .get fun s => ?_
  cases s.answers.headD none with
  | none => exact .bind (.set _) fun _ => .pure _
  | some i =>
    simp only
    split
    · exact .bind (.set _) fun _ => .pure _
    · exact .bind (.set _) fun _ => .pure _

theorem pallocFreePage_asserts (page : Nat) : Asserts (pallocFreePage page) := by
  refine .bind (assert_asserts _) fun _ => ?_
  split
  · exact .pure _
  · refine .bind .get fun s => ?_
    cases s.poolOf page with
    | none => exact .throw rfl
    | some p => exact .bind (assert_asserts _) fun _ => .set _

theorem fileRead_asserts (f : Image) (dst : Buffer) (size : Nat) : Asserts (fileRead f dst size) :=
  .bind .get fun _ => .bind (.set _) fun _ => .pure _

theorem lookupPage_asserts (pd va : Nat) (create : Bool) : Asserts (lookupPage pd va create) := by
  have htable : Asserts (addTable pd (pdNo va)) := by
    refine .bind (pallocGetPage_asserts _ _) fun pt => ?_
    cases pt with
    | none => exact .pure _
    | some pt => exact .bind (assert_asserts _) fun _ => .bind (.modify _) fun _ => .pure _
  have hend : ∀ there : Bool, Asserts (if there then do
      let s ← get
      assert (present (s.entry pd (pdNo va)))
      pure (some (pdeGetPt (s.entry pd (pdNo va)), ptNo va))
      else pure none) := by
    intro there
    split
    · exact .bind .get fun _ => .bind (assert_asserts _) fun _ => .pure _
    · exact .pure _
  refine .bind (assert_asserts _) fun _ => .bind .get fun s => ?_
  split
  · exact .bind (.pure _) hend
  · split
    · exact .bind htable hend
    · exact .bind (.pure _) hend

theorem pagedirSetPage_asserts (pd upage kpage : Nat) (w : Bool) :
    Asserts (pagedirSetPage pd upage kpage w) := by
  refine .bind (assert_asserts _) fun _ => .bind (assert_asserts _) fun _ =>
    .bind (assert_asserts _) fun _ => .bind .get fun _ => .bind (assert_asserts _) fun _ =>
    .bind (assert_asserts _) fun _ => .bind (lookupPage_asserts _ _ _) fun pte => ?_
  cases pte with
  | none => exact .pure _
  | some r =>
    exact .bind .get fun _ => .bind (assert_asserts _) fun _ => .bind (.modify _) fun _ => .pure _

theorem pagedirGetPage_asserts (pd uaddr : Nat) : Asserts (pagedirGetPage pd uaddr) := by
  refine .bind (assert_asserts _) fun _ => .bind (lookupPage_asserts _ _ _) fun pte => ?_
  cases pte with
  | none => exact .pure _
  | some r =>
    refine .bind .get fun _ => ?_
    split
    · exact .pure _
    · exact .pure _

theorem installPage_asserts (upage kpage : Nat) (w : Bool) : Asserts (installPage upage kpage w) := by
  refine .bind .get fun s => ?_
  cases s.pagedir with
  | none => exact .throw rfl
  | some pd =>
    refine .bind (pagedirGetPage_asserts _ _) fun k => ?_
    cases k with
    | none => exact pagedirSetPage_asserts _ _ _ _
    | some k => exact .pure _

theorem loadPage_asserts (f : Image) (upage readBytes : Nat) (w : Bool) :
    Asserts (loadPage f upage readBytes w) := by
  have hfree : ∀ k, Asserts (do pallocFreePage k; pure false) :=
    fun k => .bind (pallocFreePage_asserts k) fun _ => .pure _
  refine .bind (pallocGetPage_asserts _ _) fun k => ?_
  cases k with
  | none => exact .pure _
  | some k =>
    refine .bind .get fun s => .bind (fileRead_asserts _ _ _) fun r => .bind (.modify _) fun _ => ?_
    split
    · exact hfree k
    · refine .bind (.modify _) fun _ => .bind (installPage_asserts _ _ _) fun b => ?_
      split
      · exact .pure _
      · exact hfree k

theorem loadPages_asserts (f : Image) (w : Bool) (fuel upage readBytes zeroBytes : Nat) :
    Asserts (loadPages f w fuel upage readBytes zeroBytes) := by
  induction fuel generalizing upage readBytes zeroBytes with
  | zero => exact .throw rfl
  | succ fuel ih =>
    unfold loadPages
    split
    · exact .pure _
    · refine .bind (loadPage_asserts _ _ _ _) fun b => ?_
      split
      · exact ih _ _ _
      · exact .pure _

theorem loadHeader_asserts (f : Image) (ph : Phdr) : Asserts (loadHeader f ph) := by
  unfold loadHeader
  split
  · exact .bind (assert_asserts _) fun _ => .bind (assert_asserts _) fun _ =>
      .bind (assert_asserts _) fun _ => .bind (.modify _) fun _ => loadPages_asserts _ _ _ _ _ _
  · exact .pure _

theorem loadHeaders_asserts (f : Image) (n : Nat) (ofs : Int) : Asserts (loadHeaders f n ofs) := by
  induction n generalizing ofs with
  | zero => exact .pure _
  | succ n ih =>
    unfold loadHeaders
    split
    · exact .pure _
    · refine .bind (.modify _) fun _ => .bind (fileRead_asserts _ _ _) fun r => ?_
      simp only
      split
      · exact .pure _
      · split
        · exact .pure _
        · split
          · refine .bind (loadHeader_asserts _ _) fun b => ?_
            split
            · exact ih _
            · exact .pure _
          · exact ih _

/-! ## Pages -/

section

variable {s s' s0 : Vm} {p : PoolId} {pd k va : Nat} {w b : Bool} {L : List CString} {stale : Stale}

theorem Vm.grants_iff : s.grants p = true ↔
    ∃ i, s.answers.headD none = some i ∧ i < s.size p ∧ s.used p i = false := by
  unfold Vm.grants
  cases s.answers.headD none with
  | none => simp
  | some i => simp

theorem Vm.grants_congr (ha : s'.answers = s.answers) (hp : s'.pool = s.pool) (p : PoolId) :
    s'.grants p = s.grants p := by
  unfold Vm.grants Vm.size Vm.used
  rw [ha, hp]

theorem Vm.granted_congr (ha : s'.answers = s.answers) (hp : s'.pool = s.pool) (p q : PoolId) :
    (s'.granted p).grants q = (s.granted p).grants q := by
  unfold Vm.granted
  rw [ha]
  cases s.answers.headD none with
  | none => exact Vm.grants_congr ha hp q
  | some i =>
    refine Vm.grants_congr ?_ ?_ q
    · rfl
    · simp only [Vm.setUsed, hp]

theorem pallocGetPage_refuses (h : s.grants p = false) (zero : Bool) :
    pallocGetPage p zero s = .ok (none, { s with answers := s.answers.tail }) := by
  rcases pallocGetPage_cases p zero s with he | ⟨i, hi, hu, he⟩
  · exact he
  · rw [pallocGetPage, bind_run, get_run, ok_bind] at he ⊢
    cases ha : s.answers.headD none with
    | none => rfl
    | some j =>
      have hj : ¬ (j < s.size p ∧ s.used p j = false) := fun hj => by
        rw [Vm.grants_iff.mpr ⟨j, ha, hj⟩] at h
        cases h
      simp only
      rw [if_neg hj]
      rfl

/-- The page and the state when there is one. -/
theorem pallocGetPage_grants (h : s.grants p = true) (zero : Bool) :
    ∃ k s', pallocGetPage p zero s = .ok (some k, s') ∧ s'.answers = (s.granted p).answers ∧
      s'.pool = (s.granted p).pool ∧ s'.pagedir = s.pagedir ∧ s'.basePageDir = s.basePageDir ∧
      s'.mem = if zero then Function.update s.mem k zeros else s.mem := by
  obtain ⟨i, ha, hi, hu⟩ := Vm.grants_iff.mp h
  rw [pallocGetPage, bind_run, get_run, ok_bind, Vm.granted, ha]
  simp only
  rw [if_pos ⟨hi, hu⟩]
  refine ⟨_, _, rfl, ?_⟩
  cases zero <;> exact ⟨rfl, rfl, rfl, rfl, rfl⟩

theorem refused_iff : Refused s ↔ s.grants .kernel = false := by
  constructor
  · rintro ⟨s', he⟩
    by_contra hg
    obtain ⟨k, s1, he1, -⟩ := pallocGetPage_grants (by simpa using hg) true
    rw [he] at he1
    cases he1
  · exact fun h => ⟨_, pallocGetPage_refuses h true⟩

/-- What follows an ASSERT that holds. -/
theorem ok_of_assert {α : Type} {f : Unit → M α} {r : α × Vm}
    (h : (assert b >>= f) s = .ok r) : f () s = .ok r := by
  cases b with
  | true => exact h
  | false => cases h

theorem lookupPage_empty (hz : s.entry pd (pdNo va) = 0) :
    lookupPage pd va false s = .ok (none, s) := by
  simp only [lookupPage, assert, Bool.not_false, Bool.true_or, if_true, bind_run, pure_run, ok_bind,
    get_run, hz, ne_eq, not_true, if_false, Bool.false_eq_true]

theorem addTable_refused (hno : s.grants .kernel = false) (i : Nat) :
    addTable pd i s = .ok (false, { s with answers := s.answers.tail }) := by
  rw [addTable, bind_run, pallocGetPage_refuses hno]
  rfl

theorem lookupPage_refused {o : Option (Nat × Nat)} (hz : s.entry pd (pdNo va) = 0)
    (hno : s.grants .kernel = false) (h : lookupPage pd va true s = .ok (o, s')) : o = none := by
  cases hu : isUserVaddr va with
  | false =>
    rw [lookupPage, bind_run, hu] at h
    cases h
  | true =>
    simp only [lookupPage, assert, hu, Bool.or_true, bind_run, pure_run, get_run, ok_bind, hz, ne_eq,
      not_true, if_false, if_true, addTable_refused hno, Bool.false_eq_true] at h
    cases h
    rfl

theorem pagedirSetPage_refused (hz : s.entry pd (pdNo va) = 0) (hno : s.grants .kernel = false)
    (h : pagedirSetPage pd va k w s = .ok (b, s')) : b = false := by
  have h1 := ok_of_assert (ok_of_assert (ok_of_assert h))
  rw [bind_run, get_run, ok_bind] at h1
  obtain ⟨pte, s1, h2, h3⟩ := ok_of_bind (ok_of_assert (ok_of_assert h1))
  rw [lookupPage_refused hz hno h2] at h3
  cases h3
  rfl

/-- Without a page for its page table a page is not installed. -/
theorem installPage_refused (hpd : s.pagedir = some pd) (hz : s.entry pd (pdNo va) = 0)
    (hno : s.grants .kernel = false) (h : installPage va k w s = .ok (b, s')) : b = false := by
  rw [installPage, bind_run, get_run, ok_bind, hpd] at h
  simp only at h
  obtain ⟨o, s1, hget, hset⟩ := ok_of_bind h
  have hlook := ok_of_assert hget
  rw [bind_run, lookupPage_empty hz] at hlook
  cases hlook
  exact pagedirSetPage_refused hz hno hset

end

/-! ## The stack -/

section

variable {s s0 : Vm} {pd : Nat} {m : Buffer} {esp : Nat} {w : UInt32} {L : List CString}
  {stale : Stale} {ws : List Word}

theorem countArgs_eq_some {n : Nat} : countArgs ws = some n ↔
    (ws.takeWhile (· ≠ .null)).length = n ∧ n < ws.length := by
  induction ws generalizing n with
  | nil => simp [countArgs]
  | cons w ws ih =>
    cases w with
    | null =>
      simp only [countArgs, ne_eq, not_true, decide_false, Bool.false_eq_true, not_false_eq_true,
        List.takeWhile_cons_of_neg, List.length_nil, List.length_cons, Option.some.injEq]
      omega
    | str c | wild =>
      rw [List.takeWhile_cons_of_pos (by simp), List.length_cons, List.length_cons]
      simp only [countArgs, Option.map_eq_some_iff, ih]
      constructor
      · rintro ⟨n, ⟨hn, hlt⟩, rfl⟩
        exact ⟨by rw [hn], Nat.succ_lt_succ hlt⟩
      · rintro ⟨hn, hlt⟩
        exact ⟨_, ⟨rfl, by omega⟩, hn⟩

theorem stringsOf_append (L : List CString) (ws : List Word) :
    stringsOf (L.map .str ++ ws) = (stringsOf ws).map (L ++ ·) := by
  induction L with
  | nil => simp
  | cons c L ih =>
    simp only [List.map_cons, List.cons_append, stringsOf, ih, Option.map_map]
    rfl

theorem stackStrings_size {r : (Buffer × Nat) × List Nat} (h : stackStrings L m esp = some r) :
    r.1.2 + stringBytes L = esp ∧ r.2.length = L.length := by
  induction L generalizing r with
  | nil =>
    cases h
    exact ⟨rfl, rfl⟩
  | cons c L ih =>
    simp only [stackStrings, Option.bind_eq_bind, Option.bind_eq_some_iff] at h
    obtain ⟨⟨⟨m1, esp1⟩, argv1⟩, hst, ⟨m2, esp2⟩, hpush, he⟩ := h
    cases he
    obtain ⟨hsum, hlen⟩ := ih hst
    have hp := (pushBytes_pushed hpush).len
    have hbytes : stringBytes (c :: L) = strlen c + 1 + stringBytes L := by simp [stringBytes]
    simp only [List.length_append, List.length_cons, List.length_nil, strlen] at *
    omega

/-- A stack that was built fits on the page. -/
theorem stackImage_size {r : Buffer × Nat} (h : stackImage L w = some r) : blockSize L ≤ pgSize := by
  simp only [stackImage, Option.bind_eq_bind, Option.bind_eq_some_iff] at h
  obtain ⟨⟨⟨m1, esp1⟩, argv⟩, hp1, ⟨m2, esp2⟩, hp2, ⟨m3, esp3⟩, hp3, ⟨m4, esp4⟩, hp4, ⟨m5, esp5⟩, hp5,
    ⟨m6, esp6⟩, hp6, hp7⟩ := h
  obtain ⟨e1, hlen⟩ := stackStrings_size hp1
  have e2 := (pushBytes_pushed hp2).len
  have e3 := (pushBytes_pushed hp3).len
  have e4 := stackWords_le hp4
  have e5 := (pushBytes_pushed hp5).len
  have e6 := (pushBytes_pushed hp6).len
  have e7 := (pushBytes_pushed hp7).len
  have hbase := (pushBytes_pushed hp7).base
  simp only [List.length_replicate, wordBytes_length, List.length_cons, List.length_nil] at *
  simp only [blockSize, stackBase, physBase, pgSize] at *
  omega

/-- The words that `setup_stack` counts. -/
theorem found_iff (hlen : L.length ≤ 32) (stale : Stale) (argc : Nat) :
    countArgs (argumentsOf L stale) = some argc ↔ L.length + (stale.behind L.length).length = argc ∧ argc < 32 := by
  have htotal : (argumentsOf L stale).length = 32 := by
    simp only [argumentsOf, List.length_append, List.length_map, List.length_range]
    omega
  rw [countArgs_eq_some, takeWhile_argumentsOf, htotal, List.length_append, List.length_map]

/-- Without a page for the stack `setup_stack` does not return. -/
theorem setupStack_no_page (h : Loading s0 s pd fun _ => none) (hne : L ≠ [])
    (hno : s.grants .user = false) :
    Wp NoAssert (setupStack (argumentsOf L stale) stale) (fun _ _ => False) s := by
  unfold setupStack
  rw [wp_bind, wp_of_ok (pallocGetPage_refuses hno true)]
  simp only
  unfold setupStack.go
  cases hc : countArgs (argumentsOf L stale) with
  | none =>
    simp only
    rw [wp_throw]
    simp [NoAssert]
  | some argc =>
    simp only
    obtain ⟨c, L, rfl⟩ := List.exists_cons_of_ne_nil hne
    have htake : (argumentsOf (c :: L) stale).take argc ≠ [] := by
      obtain ⟨n, rfl⟩ := Nat.exists_eq_add_one.mpr (countArgs_pos hc)
      exact List.cons_ne_nil _ _
    unfold pushArguments
    rw [wp_bind, wp_bind]
    exact (pushStrings_zero (h.inputs s.answers.tail) htake).mono fun _ _ hf => hf.elim

/-- With a page, and one for its page table, `setup_stack` does not return false. -/
theorem setupStack_ne_none {r : Option Nat} {s' : Vm} (h : Loading s0 s pd fun _ => none)
    (hg : s.grants .user = true) (hk : (s.granted .user).grants .kernel = true)
    (hrun : setupStack ws stale s = .ok (r, s')) : r ≠ none := by
  obtain ⟨k, s1, hget, ha, hp, -⟩ := pallocGetPage_grants hg true
  rcases h.stack_page with he | ⟨k', s1', he, ⟨-, -, -, -, -, hno⟩ | ⟨s2, he2, -⟩⟩
  · rw [hget] at he
    cases he
  · rw [hget] at he
    cases he
    rw [refused_iff, Vm.grants_congr ha hp, hk] at hno
    cases hno
  · rw [setupStack, bind_run, he] at hrun
    simp only [ok_bind] at hrun
    rw [bind_run, he2] at hrun
    simp only [ok_bind, if_true] at hrun
    rw [setupStack.go] at hrun
    cases hc : countArgs ws with
    | none =>
      rw [hc] at hrun
      cases hrun
    | some argc =>
      rw [hc] at hrun
      obtain ⟨esp, s3, -, hend⟩ := ok_of_bind hrun
      cases hend
      exact Option.some_ne_none esp

/-- With a page and none for its page table `setup_stack` returns false. -/
theorem setupStack_no_table (ws : List Word) (stale : Stale) (h : Loading s0 s pd fun _ => none)
    (hz : s.entry pd (pdNo (physBase - pgSize)) = 0) (hg : s.grants .user = true)
    (hk : (s.granted .user).grants .kernel = false) :
    ∃ s', setupStack ws stale s = .ok (none, s') := by
  obtain ⟨k, s1, hget, ha, hp, hpd, -, hm⟩ := pallocGetPage_grants hg true
  rcases h.stack_page with he | ⟨k', s1', he, ⟨s2, s3, he2, he3, -⟩ | ⟨s2, he2, -⟩⟩
  · rw [hget] at he
    cases he
  · refine ⟨s3, ?_⟩
    rw [setupStack, bind_run, he]
    simp only [ok_bind]
    rw [bind_run, he2]
    simp only [ok_bind, Bool.false_eq_true, if_false]
    rw [bind_run, he3]
    rfl
  · rw [hget] at he
    cases he
    -- the new page is zeroed
    have hz1 : s1.entry pd (pdNo (physBase - pgSize)) = 0 := by
      rw [Vm.entry, hm, if_pos rfl]
      by_cases hkpd : pd = k
      · rw [hkpd, Function.update_self]
        exact load32_zeros _
      · rw [Function.update_of_ne hkpd]
        exact hz
    have hb := installPage_refused (hpd.trans h.pagedir) hz1 ((Vm.grants_congr ha hp _).trans hk) he2
    cases hb

/-- **`setup_stack`** returns if and only if it has a page, and there is none for its page table or
the stack fits. -/
theorem setupStack_returns_iff (stale : Stale) (h : Loading s0 s pd fun _ => none)
    (hz : s.entry pd (pdNo (physBase - pgSize)) = 0) (hne : L ≠ []) (hlen : L.length ≤ 32) :
    (∃ r s', setupStack (argumentsOf L stale) stale s = .ok (r, s')) ↔ s.grants .user = true ∧
      ((s.granted .user).grants .kernel = true → BlockFits L stale) := by
  have htake : ∀ argc, countArgs (argumentsOf L stale) = some argc →
      (argumentsOf L stale).take argc = L.map .str ++ stale.behind L.length := fun argc hc => by
    rw [countArgs_take hc, takeWhile_argumentsOf]
  constructor
  · rintro ⟨r, s', hrun⟩
    have hg : s.grants .user = true := by
      by_contra hno
      exact (setupStack_no_page h hne (by simpa using hno)).ok hrun
    refine ⟨hg, fun hk => ?_⟩
    obtain ⟨esp, rfl⟩ := Option.ne_none_iff_exists'.mp (setupStack_ne_none h hg hk hrun)
    obtain ⟨c, L', rfl⟩ := List.exists_cons_of_ne_nil hne
    have hspec : Wp NoAssert (setupStack (argumentsOf (c :: L') stale) stale) _ s := setupStack_spec h
    obtain ⟨-, hr⟩ := hspec.ok hrun
    obtain ⟨argc, all, m, hc, hall, hst, -⟩ := hr esp rfl
    obtain ⟨hcount, hlt⟩ := (found_iff hlen stale argc).mp hc
    refine ⟨by omega, ?_⟩
    have hstr := hall
    rw [show (Word.str c :: _) = argumentsOf (c :: L') stale from rfl, htake argc hc, stringsOf_append,
      Option.map_eq_some_iff] at hstr
    obtain ⟨found, hfound, rfl⟩ := hstr
    exact ⟨found, hfound, stackImage_size hst⟩
  · rintro ⟨hg, hfits⟩
    by_cases hk : (s.granted .user).grants .kernel = true
    · obtain ⟨hcount, found, hfound, hsize⟩ := hfits hk
      obtain ⟨m, esp, hst⟩ := stackImage_fits hsize (stale.argv (L ++ found).length)
      obtain ⟨k, s1, hget, ha, hp, -⟩ := pallocGetPage_grants hg true
      have hno : ¬ Refused s1 := by
        rw [refused_iff, Vm.grants_congr ha hp, hk]
        simp
      have hc := (found_iff hlen stale _).mpr ⟨rfl, hcount⟩
      have hmap : (argumentsOf L stale).take (L.length + (stale.behind L.length).length) =
          (L ++ found).map .str := by
        rw [htake _ hc, stringsOf_eq hfound, List.map_append]
      obtain ⟨-, s', -, hrun, -⟩ := setupStack_ok h hget hno hc hmap hst
      exact ⟨_, s', hrun⟩
    · obtain ⟨s', hrun⟩ := setupStack_no_table (argumentsOf L stale) stale h hz hg (by simpa using hk)
      exact ⟨none, s', hrun⟩

end

/-! ## `load` -/

section

variable {s s0 : Vm} {pd esp : Nat} {m : Buffer} {L : List CString} {stale : Stale}

/-- Behind `setup_stack` nothing stops `load`. -/
theorem load_segments_return (h : Loading s0 s pd (stackView m)) (f : Image) :
    ∃ r s', (do
      fileSeek 0
      let (e, got) ← fileRead f zeros ehdrSize
      if got ≠ ehdrSize ∨ ehdrOk e = false then pure none
      else do
        if ← loadHeaders f (ehdrPhnum e) (asInt32 (ehdrPhoff e)) then
          pure (some (ehdrEntry e, esp))
        else pure none : M (Option (Nat × Nat))) s = .ok (r, s') := by
  rw [bind_run, fileSeek, modify_run, ok_bind, bind_run, fileRead, bind_run, get_run, ok_bind,
    bind_run, set_run, ok_bind, pure_run, ok_bind]
  simp only
  split
  · exact ⟨none, _, rfl⟩
  · obtain ⟨b, s', hrun, -⟩ :=
      (loadHeaders_asserts f _ _).total (loadHeaders_spec f (h.file _ _))
    rw [bind_run, hrun]
    cases b with
    | true => exact ⟨_, s', rfl⟩
    | false => exact ⟨none, s', rfl⟩

/-- The page directory that `load` creates. -/
theorem Boot.created (h : Boot s) (hg : s.grants .kernel = true) : ∃ pd s1,
    pagedirCreate s = .ok (some pd, s1) ∧ Loading s { s1 with pagedir := some pd } pd (fun _ => none) ∧
      ({ s1 with pagedir := some pd } : Vm).answers = (s.granted .kernel).answers ∧
      ({ s1 with pagedir := some pd } : Vm).pool = (s.granted .kernel).pool ∧
      ∀ i < 768, s1.entry pd i = 0 := by
  obtain ⟨k, s1, hget, ha, hp, -, hbase, hm⟩ := pallocGetPage_grants hg false
  have hcreate : pagedirCreate s = .ok (some k,
      s1.setPage k (memcpy (s1.mem k) 0 (s1.mem s1.basePageDir) 0 pgSize)) := by
    rw [pagedirCreate, bind_run, hget]
    rfl
  rcases h.create with he | ⟨pd, s', he, hload⟩
  · rw [hcreate] at he
    cases he
  · rw [hcreate] at he
    cases he
    refine ⟨_, _, hcreate, hload, ha, hp, fun i hi => ?_⟩
    have hmem : s1.mem = s.mem := hm
    refine Eq.trans ?_ (h.userHalf i hi)
    show load32 (Function.update s1.mem k _ k) (4 * i) = load32 (s.mem s.basePageDir) (4 * i)
    rw [Function.update_self, hbase, hmem]
    refine load32_congr fun j hj => ?_
    rw [memcpy_in (by omega) (by simp only [pgSize]; omega)]
    congr 1
    omega

/-- **`load`** returns if and only if it gets past `setup_stack`. -/
theorem load_returns_iff (h : Boot s) (hne : L ≠ []) (hlen : L.length ≤ 32) (file : Option Image) :
    (∃ r s', load L stale file s = .ok (r, s')) ↔ LoadFits L stale s := by
  have hargs : ¬ (L = [] ∨ 32 < L.length) := by
    rintro (he | hlt)
    · exact hne he
    · omega
  rw [load, if_neg hargs, LoadFits]
  cases hg : s.grants .kernel with
  | false =>
    have hcreate : pagedirCreate s = .ok (none, { s with answers := s.answers.tail }) := by
      rw [pagedirCreate, bind_run, pallocGetPage_refuses hg]
      rfl
    rw [bind_run, hcreate]
    exact ⟨fun _ he => (by cases he), fun _ => ⟨none, _, rfl⟩⟩
  | true =>
    obtain ⟨pd, s1, hcreate, hload, ha, hp, hz⟩ := h.created hg
    have hstack := setupStack_returns_iff stale hload (hz _ (by decide)) hne hlen
    rw [Vm.grants_congr ha hp, Vm.granted_congr ha hp] at hstack
    rw [imp_iff_right rfl, ← hstack, bind_run, hcreate, ok_bind, bind_run, modify_run, ok_bind]
    simp only
    constructor
    · rintro ⟨r, s', hrun⟩
      obtain ⟨r', s2, hrun2, -⟩ := ok_of_bind hrun
      exact ⟨r', s2, hrun2⟩
    · rintro ⟨r, s2, hrun⟩
      rw [bind_run, hrun, ok_bind]
      cases r with
      | none => exact ⟨none, s2, rfl⟩
      | some esp =>
        cases file with
        | none => exact ⟨none, s2, rfl⟩
        | some f =>
          obtain ⟨c, L', rfl⟩ := List.exists_cons_of_ne_nil hne
          have hspec : Wp NoAssert (setupStack (argumentsOf (c :: L') stale) stale) _ _ :=
            setupStack_spec hload
          obtain ⟨-, hr⟩ := hspec.ok hrun
          obtain ⟨-, -, m, -, -, -, hl⟩ := hr esp rfl
          exact load_segments_return hl f

end

end Pintos.Userprog.Loader
