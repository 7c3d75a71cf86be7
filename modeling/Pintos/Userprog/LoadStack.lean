import Pintos.Userprog.LoadSpec

/-!
# The stack that `setup_stack` builds

`stackImage` is the stack as a function of the strings that `setup_stack` finds and of the
word that it takes from behind the end of `argv`. `setupStack_spec` says that the code,
which stores through the page tables, builds this stack or stops.
-/

namespace Pintos.Userprog.Loader

open Pintos.Base Pintos.Kernel Pintos.Threads

/-! ## The stack as a function -/

/-- The page under `PHYS_BASE`. -/
def stackBase : Nat := physBase - pgSize

def stackNo : Nat := pgNo stackBase

/-- User memory with the stack page only; `m` is by user address. -/
def stackView (m : Buffer) : View := fun v =>
  if v = stackNo then some (true, bufferAt m stackBase) else none

def putBytes (m : Buffer) (a : Nat) (bytes : List UInt8) : Buffer :=
  memcpy m a (fun i => bytes.getD i 0) 0 bytes.length

/-- A push; `none` when it leaves the page. -/
def pushBytes (m : Buffer) (esp : Nat) (bytes : List UInt8) : Option (Buffer × Nat) :=
  if stackBase + bytes.length ≤ esp then
    some (putBytes m (esp - bytes.length) bytes, esp - bytes.length)
  else none

def stackStrings : List CString → Buffer → Nat → Option ((Buffer × Nat) × List Nat)
  | [], m, esp => some ((m, esp), [])
  | s :: ss, m, esp => do
    let ((m, esp), argv) ← stackStrings ss m esp
    let (m, esp) ← pushBytes m esp (s.chars ++ [0])
    pure ((m, esp), esp :: argv)

def stackWords : List Nat → Buffer → Nat → Option (Buffer × Nat)
  | [], m, esp => some (m, esp)
  | w :: ws, m, esp => do
    let (m, esp) ← stackWords ws m esp
    pushBytes m esp (wordBytes w)

/-- The stack for the strings `L`, with the word `w` for `argv[argc]`. -/
def stackImage (L : List CString) (w : UInt32) : Option (Buffer × Nat) := do
  let ((m, esp), argv) ← stackStrings L zeros physBase
  let (m, esp) ← pushBytes m esp (List.replicate (esp % 4) 0)
  let (m, esp) ← pushBytes m esp (wordBytes w.toNat)
  let sentinel := esp
  let (m, esp) ← stackWords argv m esp
  let (m, esp) ← pushBytes m esp (wordBytes esp)
  let (m, esp) ← pushBytes m esp (wordBytes L.length)
  pushBytes m esp [m sentinel, m (sentinel + 1), m (sentinel + 2), m (sentinel + 3)]

/-- The strings that `setup_stack` finds in `arguments`. -/
def stringsOf : List Word → Option (List CString)
  | [] => some []
  | .str s :: ws => (stringsOf ws).map (s :: ·)
  | _ :: _ => none

section

variable {s s' s0 : Vm} {pd : Nat} {T : Tree} {held : List Nat} {V : View} {m : Buffer} {esp : Nat}

/-! ## Stores through the page tables -/

/-- The MMU finds the frame of a page. -/
theorem Space.translate (h : Space s0 s pd T held) (hpd : s.pagedir = some pd) {a : Nat}
    (hu : isUserVaddr a = true) :
    s.translate a = (T.addr (.frame (pgNo a))).map (·, T.writable (pgNo a)) := by
  have hpde := h.pde (pdNo a) (pdNo_lt hu)
  simp only [Vm.translate, hpd]
  cases ht : T.addr (.table (pdNo a)) with
  | none =>
    rw [ht] at hpde
    have hp : present (s.entry pd (pdNo a)) = false := by
      rw [show s.entry pd (pdNo a) = 0 from hpde]
      rfl
    have hnone : T.addr (.frame (pgNo a)) = none := by
      cases hf : T.addr (.frame (pgNo a)) with
      | none => rfl
      | some x =>
        obtain ⟨pt, hpt⟩ := h.frame _ x hf
        rw [show pgNo a / 1024 = pdNo a by simp only [pgNo, pdNo, pgSize]; omega, ht] at hpt
        cases hpt
    rw [hp, hnone, if_neg (by simp)]
    rfl
  | some pt =>
    rw [ht] at hpde
    have hpte := h.pte (pdNo a) pt (ptNo a) ht (ptNo_lt a)
    rw [pgNo_eq] at hpte
    rw [if_pos ⟨hu, hpde.1⟩, hpde.2]
    cases hf : T.addr (.frame (pgNo a)) with
    | none =>
      rw [hf] at hpte
      rw [if_neg (by rw [show present (s.entry pt (ptNo a)) = false from hpte]; simp)]
      rfl
    | some k =>
      rw [hf] at hpte
      rw [if_pos hpte.1, hpte.2.1, hpte.2.2]
      rfl

theorem stackNo_iff {a : Nat} (hu : isUserVaddr a = true) : pgNo a = stackNo ↔ stackBase ≤ a := by
  have hlt : a < physBase := of_decide_eq_true hu
  simp only [stackNo, stackBase, pgNo, pgSize, physBase] at *
  omega

/-- What the MMU finds when only the stack is mapped. -/
theorem Loading.translate_stack (h : Loading s0 s pd (stackView m)) (a : Nat) :
    (stackBase ≤ a ∧ isUserVaddr a = true ∧ ∃ T held k, Space s0 s pd T held ∧
      T.addr .loose = none ∧ T.addr (.frame stackNo) = some k ∧ Shows s T (stackView m) ∧
      s.translate a = some (k, true) ∧ ∀ o < pgSize, s.mem k o = m (stackBase + o)) ∨
    s.translate a = none := by
  obtain ⟨⟨T, held, hs, hl, hV⟩, hpd⟩ := h
  cases hu : isUserVaddr a with
  | false =>
    right
    simp only [Vm.translate, hpd]
    rw [if_neg (by simp [hu])]
  | true =>
    have htr := hs.translate hpd hu
    by_cases ha : stackBase ≤ a
    · left
      have hno := (stackNo_iff hu).mpr ha
      have hv := hV stackNo
      cases hf : T.addr (.frame stackNo) with
      | none =>
        rw [hf] at hv
        simp [stackView] at hv
      | some k =>
        rw [hf] at hv
        obtain ⟨b, hb, ho⟩ := hv
        simp only [stackView, if_true, Option.some.injEq, Prod.mk.injEq] at hb
        refine ⟨ha, rfl, T, held, k, hs, hl, hf, hV, ?_, fun o hlt => ?_⟩
        · rw [htr, hno, hf, ← hb.1]
          rfl
        · rw [ho o hlt, ← hb.2]
          rfl
    · right
      have hno := (stackNo_iff hu).not.mpr ha
      have hnone := (hV.none_iff (pgNo a)).mp (if_neg hno)
      rw [htr, hnone]
      rfl

theorem userStore_spec (h : Loading s0 s pd (stackView m)) (a : Nat) (x : UInt8) :
    Wp NoAssert (userStore a x) (fun _ s' => stackBase ≤ a ∧ a < physBase ∧
      Loading s0 s' pd (stackView (memcpy m a (fun _ => x) 0 1))) s := by
  unfold userStore
  rw [wp_bind, wp_get]
  rcases h.translate_stack a with ⟨ha, hu, T, held, k, hs, hl, hf, hV, htr, hm⟩ | htr
  · have hlt : a < physBase := of_decide_eq_true hu
    rw [htr]
    simp only
    rw [wp_set]
    refine ⟨ha, hlt, ⟨T, held, hs.store hf rfl _, hl, fun v => ?_⟩, h.pagedir⟩
    by_cases hv : v = stackNo
    · subst hv
      have hw : T.writable stackNo = true := by
        have hv := hV stackNo
        rw [hf] at hv
        obtain ⟨b, hb, -⟩ := hv
        simp only [stackView, if_true, Option.some.injEq, Prod.mk.injEq] at hb
        exact hb.1.symm
      rw [hf]
      refine ⟨bufferAt (memcpy m a (fun _ => x) 0 1) stackBase, ?_, fun o ho => ?_⟩
      · rw [hw]
        exact if_pos rfl
      · have hofs : pgOfs a = a - stackBase := by
          simp only [pgOfs, stackBase, physBase, pgSize] at *
          omega
        simp only [Vm.setPage, Function.update_self, bufferAt, hofs]
        by_cases hoa : stackBase + o = a
        · rw [memcpy_in (by omega) (by omega), memcpy_in (by omega) (by omega)]
        · rw [memcpy_out (by omega), memcpy_out (by omega)]
          exact hm o ho
    · have hnone := (hV.none_iff v).mp (if_neg hv)
      rw [hnone]
      exact if_neg hv
  · rw [htr]
    simp only
    rw [wp_throw]
    simp [NoAssert]

theorem userLoad_spec (h : Loading s0 s pd (stackView m)) {a : Nat} (ha : stackBase ≤ a)
    (hlt : a < physBase) : userLoad a s = .ok (m a, s) := by
  rcases h.translate_stack a with ⟨-, -, T, held, k, hs, hl, hf, hV, htr, hm⟩ | htr
  · rw [userLoad, bind_run, get_run, ok_bind, htr]
    have hofs : pgOfs a < pgSize := Nat.mod_lt _ (by decide)
    have hadd : stackBase + pgOfs a = a := by
      simp only [pgOfs, stackBase, physBase, pgSize] at *
      omega
    show Except.ok (s.mem k (pgOfs a), s) = _
    rw [hm _ hofs, hadd]
  · obtain ⟨⟨T, held, hs, hl, hV⟩, hpd⟩ := h
    have hu : isUserVaddr a = true := decide_eq_true hlt
    rw [hs.translate hpd hu, (stackNo_iff hu).mpr ha] at htr
    have hv := (hV.none_iff stackNo).mpr (by simpa using htr)
    simp [stackView] at hv

theorem putBytes_nil (m : Buffer) (a : Nat) : putBytes m a [] = m := memcpy_zero ..

theorem putBytes_cons (m : Buffer) (a : Nat) (x : UInt8) (bytes : List UInt8) :
    putBytes (memcpy m a (fun _ => x) 0 1) (a + 1) bytes = putBytes m a (x :: bytes) := by
  funext k
  simp only [putBytes, List.length_cons]
  by_cases h1 : a + 1 ≤ k ∧ k < a + 1 + bytes.length
  · rw [memcpy_in h1.1 h1.2, memcpy_in (by omega) (by omega),
      show 0 + (k - a) = 0 + (k - (a + 1)) + 1 by omega, List.getD_cons_succ]
  · rw [memcpy_out (by omega)]
    by_cases h2 : k = a
    · subst h2
      rw [memcpy_in (by omega) (by omega), memcpy_in (by omega) (by omega)]
      simp
    · rw [memcpy_out (by omega), memcpy_out (by omega)]

/-- `memcpy` to the stack. -/
theorem copyOut_spec {bytes : List UInt8} {a : Nat} (h : Loading s0 s pd (stackView m)) :
    Wp NoAssert (copyOut a bytes) (fun _ s' => (bytes ≠ [] → stackBase ≤ a) ∧
      Loading s0 s' pd (stackView (putBytes m a bytes))) s := by
  induction bytes generalizing s m a with
  | nil =>
    rw [copyOut, wp_pure, putBytes_nil]
    exact ⟨by simp, h⟩
  | cons x bytes ih =>
    rw [copyOut]
    refine (userStore_spec h a x).bind fun _ s1 hq => ?_
    obtain ⟨ha, _, h1⟩ := hq
    refine (ih h1).mono fun _ s2 hq => ⟨fun _ => ha, ?_⟩
    rw [← putBytes_cons]
    exact hq.2

/-- A push on the stack page. -/
theorem push_spec {bytes : List UInt8} (h : Loading s0 s pd (stackView m)) (h1 : stackBase ≤ esp)
    (h2 : esp ≤ physBase) (h3 : bytes.length ≤ 2 ^ 26) :
    Wp NoAssert (push esp bytes) (fun esp' s' => stackBase ≤ esp' ∧ esp' ≤ physBase ∧
      ∃ m', pushBytes m esp bytes = some (m', esp') ∧ Loading s0 s' pd (stackView m')) s := by
  have hsub : sub32 esp bytes.length = esp - bytes.length := by
    simp only [sub32, stackBase, physBase, pgSize] at *
    omega
  unfold push
  rw [hsub]
  refine (copyOut_spec h).bind fun _ s1 hq => ?_
  obtain ⟨hb, hl⟩ := hq
  rw [wp_pure]
  have hroom : stackBase + bytes.length ≤ esp := by
    by_cases hnil : bytes = []
    · simpa [hnil] using h1
    · have := hb hnil
      have : 0 < stackBase := by decide
      omega
  exact ⟨by omega, by omega, _, if_pos hroom, hl⟩

/-- With the stack pointer 0 a push stops the kernel. -/
theorem push_zero {bytes : List UInt8} (h : Loading s0 s pd V) (hne : bytes ≠ [])
    (hlen : bytes.length ≤ 2 ^ 26) : Wp NoAssert (push 0 bytes) (fun _ _ => False) s := by
  obtain ⟨x, bytes, rfl⟩ := List.exists_cons_of_ne_nil hne
  have htr : s.translate (sub32 0 (x :: bytes).length) = none := by
    have hu : isUserVaddr (sub32 0 (x :: bytes).length) = false := by
      apply decide_eq_false
      have : 0 < (x :: bytes).length := by simp
      simp only [sub32, physBase]
      omega
    simp only [Vm.translate, h.pagedir]
    rw [if_neg fun hc => by rw [hu] at hc; cases hc.1]
  unfold push
  rw [copyOut, wp_bind, wp_bind, userStore, wp_bind, wp_get, htr]
  simp only
  rw [wp_throw]
  simp [NoAssert]

theorem wordBytes_length (w : Nat) : (wordBytes w).length = 4 := by simp [wordBytes]

theorem pushStrings_spec {ws : List Word} (h : Loading s0 s pd (stackView m)) (h1 : stackBase ≤ esp)
    (h2 : esp ≤ physBase) :
    Wp NoAssert (pushStrings ws esp) (fun r s' => stackBase ≤ r.1 ∧ r.1 ≤ physBase ∧
      ∃ L m', stringsOf ws = some L ∧ stackStrings L m esp = some ((m', r.1), r.2) ∧
        Loading s0 s' pd (stackView m')) s := by
  induction ws generalizing s m esp with
  | nil =>
    rw [pushStrings, wp_pure]
    exact ⟨h1, h2, [], m, rfl, rfl, h⟩
  | cons x ws ih =>
    rw [pushStrings]
    refine (ih h h1 h2).bind fun r s1 hq => ?_
    obtain ⟨hr1, hr2, L, m1, hL, hst, hl1⟩ := hq
    obtain ⟨esp1, argv⟩ := r
    cases x with
    | str c =>
      simp only
      split
      · rw [wp_throw]
        simp [NoAssert]
      next hlen =>
      have hfits : (c.chars ++ [0]).length ≤ 2 ^ 26 := by
        simp only [strlen] at hlen
        simp only [List.length_append, List.length_singleton]
        omega
      refine (push_spec hl1 hr1 hr2 hfits).bind fun esp2 s2 hq => ?_
      obtain ⟨he1, he2, m2, hm2, hl2⟩ := hq
      rw [wp_pure]
      refine ⟨he1, he2, c :: L, m2, by simp [stringsOf, hL], ?_, hl2⟩
      simp only [stackStrings, hst, Option.bind_eq_bind, Option.bind_some, hm2]
      rfl
    | null =>
      simp only
      rw [wp_throw]
      simp [NoAssert]
    | wild =>
      simp only
      rw [wp_throw]
      simp [NoAssert]

/-- Without a page for the stack the kernel stops. -/
theorem pushStrings_zero {ws : List Word} (h : Loading s0 s pd V) (hne : ws ≠ []) :
    Wp NoAssert (pushStrings ws 0) (fun _ _ => False) s := by
  induction ws with
  | nil => exact absurd rfl hne
  | cons x ws ih =>
    rw [pushStrings]
    cases ws with
    | cons y ws => exact (ih (by simp)).bind fun _ _ hf => hf.elim
    | nil =>
      rw [pushStrings, wp_bind, wp_pure]
      cases x with
      | str c =>
        simp only
        split
        · rw [wp_throw]
          simp [NoAssert]
        next hlen =>
        refine (push_zero h (by simp) ?_).bind fun _ _ hf => hf.elim
        simp only [strlen] at hlen
        simp only [List.length_append, List.length_singleton]
        omega
      | null =>
        simp only
        rw [wp_throw]
        simp [NoAssert]
      | wild =>
        simp only
        rw [wp_throw]
        simp [NoAssert]

theorem pushWords_spec {ws : List Nat} (h : Loading s0 s pd (stackView m)) (h1 : stackBase ≤ esp)
    (h2 : esp ≤ physBase) :
    Wp NoAssert (pushWords ws esp) (fun esp' s' => stackBase ≤ esp' ∧ esp' ≤ physBase ∧
      ∃ m', stackWords ws m esp = some (m', esp') ∧ Loading s0 s' pd (stackView m')) s := by
  induction ws generalizing s m esp with
  | nil =>
    rw [pushWords, wp_pure]
    exact ⟨h1, h2, m, rfl, h⟩
  | cons x ws ih =>
    rw [pushWords]
    refine (ih h h1 h2).bind fun esp1 s1 hq => ?_
    obtain ⟨hr1, hr2, m1, hm1, hl1⟩ := hq
    refine (push_spec hl1 hr1 hr2 (by rw [wordBytes_length]; decide)).mono
      fun esp2 s2 hq => ?_
    obtain ⟨he1, he2, m2, hm2, hl2⟩ := hq
    refine ⟨he1, he2, m2, ?_, hl2⟩
    simp only [stackWords, hm1, Option.bind_eq_bind, Option.bind_some, hm2]

theorem pushBytes_some {bytes : List UInt8} {r : Buffer × Nat}
    (h : pushBytes m esp bytes = some r) : stackBase + bytes.length ≤ esp ∧
      r = (putBytes m (esp - bytes.length) bytes, esp - bytes.length) := by
  unfold pushBytes at h
  split at h
  · next hle => exact ⟨hle, (Option.some.inj h).symm⟩
  · cases h

/-- A word pushed and the words over it stay below `PHYS_BASE`. -/
theorem stackWords_le {ws : List Nat} {r : Buffer × Nat} (h : stackWords ws m esp = some r) :
    r.2 + 4 * ws.length = esp := by
  induction ws generalizing r with
  | nil =>
    cases h
    rfl
  | cons x ws ih =>
    simp only [stackWords, Option.bind_eq_bind, Option.bind_eq_some_iff] at h
    obtain ⟨r1, h1, h2⟩ := h
    obtain ⟨hle, rfl⟩ := pushBytes_some h2
    have := ih h1
    rw [wordBytes_length] at hle ⊢
    simp only [List.length_cons, stackBase, physBase, pgSize] at *
    omega

theorem stringsOf_length {ws : List Word} {L : List CString} (h : stringsOf ws = some L) :
    L.length = ws.length := by
  induction ws generalizing L with
  | nil =>
    cases h
    rfl
  | cons x ws ih =>
    cases x with
    | str c =>
      simp only [stringsOf, Option.map_eq_some_iff] at h
      obtain ⟨L', hL', rfl⟩ := h
      simp [ih hL']
    | null => cases h
    | wild => cases h

/-- Rounding does nothing when the stack pointer is aligned. -/
theorem roundEsp_spec (h : Loading s0 s pd (stackView m)) (h1 : stackBase ≤ esp)
    (h2 : esp ≤ physBase) :
    Wp NoAssert (roundEsp esp) (fun esp' s' => stackBase ≤ esp' ∧ esp' ≤ physBase ∧
      ∃ m', pushBytes m esp (List.replicate (esp % 4) 0) = some (m', esp') ∧
        Loading s0 s' pd (stackView m')) s := by
  unfold roundEsp
  split
  · apply push_spec h h1 h2
    rw [List.length_replicate]
    omega
  · next hz =>
    rw [wp_pure]
    refine ⟨h1, h2, m, ?_, h⟩
    rw [show esp % 4 = 0 by omega, List.replicate_zero, pushBytes, if_pos (by simpa using h1),
      putBytes_nil]
    rfl

/-- The pushes of `setup_stack`. -/
theorem pushArguments_spec {ws : List Word} {stale : Stale}
    (h : Loading s0 s pd (stackView zeros)) :
    Wp NoAssert (pushArguments ws stale physBase) (fun esp s' =>
      ∃ L m', stringsOf ws = some L ∧ stackImage L (stale.argv ws.length) = some (m', esp) ∧
        Loading s0 s' pd (stackView m')) s := by
  unfold pushArguments
  refine (pushStrings_spec h (by decide) le_rfl).bind
    fun r s1 hq => ?_
  obtain ⟨hr1, hr2, L, m1, hL, hst, hl1⟩ := hq
  obtain ⟨esp1, argv⟩ := r
  have hLlen := stringsOf_length hL
  simp only
  have hword : ∀ w, (wordBytes w).length ≤ 2 ^ 26 := fun w => by rw [wordBytes_length]; decide
  refine (roundEsp_spec hl1 hr1 hr2).bind fun esp2 s2 hq => ?_
  obtain ⟨he2, hf2, m2, hm2, hl2⟩ := hq
  refine (push_spec hl2 he2 hf2 (hword _)).bind fun esp3 s3 hq => ?_
  obtain ⟨he3, hf3, m3, hm3, hl3⟩ := hq
  refine (pushWords_spec hl3 he3 hf3).bind fun esp4 s4 hq => ?_
  obtain ⟨he4, hf4, m4, hm4, hl4⟩ := hq
  refine (push_spec hl4 he4 hf4 (hword _)).bind fun esp5 s5 hq => ?_
  obtain ⟨he5, hf5, m5, hm5, hl5⟩ := hq
  refine (push_spec hl5 he5 hf5 (hword _)).bind fun esp6 s6 hq => ?_
  obtain ⟨he6, hf6, m6, hm6, hl6⟩ := hq
  have htop : esp3 + 4 ≤ physBase := by
    obtain ⟨hle, he⟩ := pushBytes_some hm3
    rw [wordBytes_length] at hle he
    have := congrArg Prod.snd he
    simp only [stackBase, physBase, pgSize] at *
    omega
  have hload : ∀ i < 4, userLoad (esp3 + i) s6 = .ok (m6 (esp3 + i), s6) :=
    fun i hi => userLoad_spec hl6 (by omega) (by omega)
  have hload0 : userLoad esp3 s6 = .ok (m6 esp3, s6) := hload 0 (by decide)
  rw [wp_bind, wp_of_ok hload0, wp_bind, wp_of_ok (hload 1 (by decide)), wp_bind,
    wp_of_ok (hload 2 (by decide)), wp_bind, wp_of_ok (hload 3 (by decide))]
  refine (push_spec hl6 he6 hf6 (by simp)).mono fun esp7 s7 hq => ?_
  obtain ⟨_, _, m7, hm7, hl7⟩ := hq
  refine ⟨L, m7, hL, ?_, hl7⟩
  simp only [stackImage, hst, hm2, hm3, hm4, hm5, hLlen, hm6, Option.bind_eq_bind, Option.bind_some]
  exact hm7

theorem countArgs_pos {x : CString} {ws : List Word} {n : Nat}
    (h : countArgs (.str x :: ws) = some n) : 0 < n := by
  simp only [countArgs, Option.map_eq_some_iff] at h
  obtain ⟨a, -, rfl⟩ := h
  omega

theorem Shows.empty (h : Shows s T V) (hV : ∀ v, V v = none) (v : Nat) :
    T.addr (.frame v) = none := (h.none_iff v).mp (hV v)

/-- The page of the stack: there is none, or none for its page table, or it is installed and
all zeros. -/
theorem Loading.stack_page (h : Loading s0 s pd fun _ => none) :
    pallocGetPage .user true s = .ok (none, { s with answers := s.answers.tail }) ∨
    ∃ k s1, pallocGetPage .user true s = .ok (some k, s1) ∧
      ((∃ s2 s3, installPage (physBase - pgSize) k true s1 = .ok (false, s2) ∧
          pallocFreePage k s2 = .ok ((), s3) ∧ Orderly s0 s3 pd ∧ Refused s1) ∨
        ∃ s2, installPage (physBase - pgSize) k true s1 = .ok (true, s2) ∧
          Loading s0 s2 pd (stackView zeros)) := by
  obtain ⟨⟨T, held, hs, hl, hV⟩, hpd⟩ := h
  rcases hs.get_loose hl true with he | ⟨k, s1, he, hs1, hk1, hz⟩
  · exact .inl he
  refine .inr ⟨k, s1, he, ?_⟩
  have hpd1 : s1.pagedir = some pd := hk1.pagedir.trans hpd
  have hloose : (T.set .loose (some k)).addr .loose = some k := T.set_self ..
  have hframe : ∀ u, (T.set .loose (some k)).addr (.frame u) = T.addr (.frame u) :=
    fun u => T.set_of_ne (by simp) _
  have hu : isUserVaddr (physBase - pgSize) = true := by decide
  have hofs : pgOfs (physBase - pgSize) = 0 := by decide
  rcases hs1.install_page hpd1 hu hofs hloose true with ⟨s2, he2, hs2, hp2, hno⟩ | ⟨s2, T2, held2,
    he2, hs2, hk2, hin, -⟩
  · obtain ⟨s3, he3, hs3, hp3⟩ := hs2.free_loose hloose
    refine .inl ⟨s2, s3, he2, he3, hs3.orderly (Tree.set_self ..) (hp3.trans hp2), ?_⟩
    exact hno.resolve_left fun hf => hf ((hframe _).trans (hV.empty (fun _ => rfl) _))
  · refine .inr ⟨s2, he2, ⟨T2, held2, hs2, hin.loose, fun v => ?_⟩, hk2.pagedir.trans hpd1⟩
    rw [hin.addr, hin.writable]
    by_cases hv : v = pgNo (physBase - pgSize)
    · simp only [if_pos hv]
      refine ⟨zeros, ?_, fun o _ => ?_⟩
      · rw [stackView, if_pos (by rw [hv]; rfl)]
        rfl
      · rw [hk2.mem .loose k hloose rfl, hz rfl]
    · simp only [if_neg hv, hframe, hV.empty (fun _ => rfl) v]
      exact if_neg (by rw [stackNo, stackBase]; exact hv)

/-- **`setup_stack`** builds the stack, or returns false with the space in order. -/
theorem setupStack_spec {x : CString} {ws : List Word} {stale : Stale}
    (h : Loading s0 s pd fun _ => none) :
    Wp NoAssert (setupStack (.str x :: ws) stale) (fun r s' => Orderly s0 s' pd ∧ ∀ esp, r = some esp →
      ∃ argc L m', countArgs (.str x :: ws) = some argc ∧
        stringsOf ((.str x :: ws).take argc) = some L ∧
        stackImage L (stale.argv L.length) = some (m', esp) ∧ Loading s0 s' pd (stackView m')) s := by
  unfold setupStack
  rw [wp_bind]
  rcases h.stack_page with he | ⟨k, s1, he, ⟨s2, s3, he2, he3, ho, -⟩ | ⟨s2, he2, hl2⟩⟩
  · -- there is no page: the first push stops the kernel
    rw [wp_of_ok he]
    simp only
    unfold setupStack.go
    cases hc : countArgs (.str x :: ws) with
    | none =>
      simp only
      rw [wp_throw]
      simp [NoAssert]
    | some argc =>
      simp only
      have hne : (Word.str x :: ws).take argc ≠ [] := by
        obtain ⟨a, rfl⟩ := Nat.exists_eq_add_one.mpr (countArgs_pos hc)
        simp
      unfold pushArguments
      rw [wp_bind, wp_bind]
      exact (pushStrings_zero (h.inputs s.answers.tail) hne).mono fun _ _ hf => hf.elim
  · rw [wp_of_ok he]
    simp only
    rw [wp_bind, wp_of_ok he2]
    simp only [Bool.false_eq_true, if_false]
    rw [wp_bind, wp_of_ok he3, wp_pure]
    exact ⟨ho, by simp⟩
  · rw [wp_of_ok he]
    simp only
    rw [wp_bind, wp_of_ok he2]
    simp only [if_true]
    unfold setupStack.go
    cases hc : countArgs (.str x :: ws) with
    | none =>
      simp only
      rw [wp_throw]
      simp [NoAssert]
    | some argc =>
      simp only
      refine (pushArguments_spec hl2).bind fun esp s3 hq => ?_
      obtain ⟨L, m', hL, hst, hl3⟩ := hq
      rw [wp_pure]
      refine ⟨⟨_, hl3⟩, fun esp' he' => ?_⟩
      cases he'
      rw [← stringsOf_length hL] at hst
      exact ⟨argc, L, m', rfl, hL, hst, hl3⟩

/-! ## `load` -/

/-- Before `load`: the kernel's directory maps no user page and is not free, and nothing has
been obtained yet. -/
structure Boot (s : Vm) : Prop where
  ok : VmOk s
  obtained : s.obtained = []
  freed : s.freed = []
  /-- `paging_init` fills in entries for kernel addresses only. -/
  userHalf : ∀ i < 768, s.entry s.basePageDir i = 0
  baseUsed : ∀ p i, i < s.size p → s.page p i = s.basePageDir → s.used p i = true

/-- `pagedir_create` -/
theorem Boot.create (h : Boot s) :
    pagedirCreate s = .ok (none, { s with answers := s.answers.tail }) ∨
    ∃ pd s', pagedirCreate s = .ok (some pd, s') ∧
      Loading s { s' with pagedir := some pd } pd fun _ => none := by
  rcases pallocGetPage_cases .kernel false s with he | ⟨i, hi, hu, he⟩
  · left
    rw [pagedirCreate, bind_run, he]
    rfl
  right
  have hne : s.basePageDir ≠ s.page .kernel i := by
    intro hc
    rw [h.baseUsed .kernel i hi hc.symm] at hu
    cases hu
  let T : Tree := ⟨fun n => if n = .root then some (s.page .kernel i) else none, fun _ => false⟩
  let s' : Vm := ({ s with
    answers := s.answers.tail
    pool := (s.setUsed .kernel i true).pool
    obtained := s.obtained ++ [s.page .kernel i] }).setPage (s.page .kernel i)
      (memcpy (s.mem (s.page .kernel i)) 0 (s.mem s.basePageDir) 0 pgSize)
  have hroot : ∀ n x, T.addr n = some x → n = .root ∧ x = s.page .kernel i := by
    intro n x hn
    simp only [T] at hn
    split at hn
    · next hr => exact ⟨hr, (Option.some.inj hn).symm⟩
    · cases hn
  refine ⟨s.page .kernel i, s', ?_, ⟨T, [s.page .kernel i], ?_, rfl, fun v => rfl⟩, rfl⟩
  · rw [pagedirCreate, bind_run, he]
    rfl
  obtain ⟨-, -, hl⟩ := @Ledger.get _ s' _ _ _ _ (Ledger.start h.ok h.obtained h.freed) hi hu rfl rfl
    rfl rfl rfl
  refine ⟨hl.congr rfl rfl rfl rfl rfl, rfl, fun x => ?_, fun n x hn => ?_, fun n m x hn hm => ?_, fun j x hj => ?_,
    fun v x hv => ?_, fun j hj => ?_, fun j pt l hj _ => ?_, h.baseUsed⟩
  · rw [List.mem_singleton]
    constructor
    · rintro rfl
      exact ⟨.root, rfl⟩
    · rintro ⟨n, hn⟩
      exact (hroot n x hn).2
  · obtain ⟨rfl, rfl⟩ := hroot n x hn
    exact ⟨i, hi, rfl⟩
  · rw [(hroot n x hn).1, (hroot m x hm).1]
  · cases (hroot _ x hj).1
  · cases (hroot _ x hv).1
  · show load32 _ _ = 0
    rw [← h.userHalf j hj]
    simp only [s', Vm.setPage, Function.update_self]
    refine load32_congr fun k hk => ?_
    rw [memcpy_in (by omega) (by simp only [pgSize]; omega)]
    congr 1
    omega
  · cases (hroot _ pt hj).1

/-- A small machine: five pages in each pool, the first of which is the kernel's directory. -/
def bootVm (answers : List (Option Nat)) : Vm where
  ramPages := 12
  pool p := match p with
    | .kernel => ⟨⟨[true, false, false, false, false]⟩, physBase, physBase + 4096⟩
    | .user => ⟨⟨[false, false, false, false, false]⟩, physBase + 6 * 4096, physBase + 7 * 4096⟩
  mem _ := zeros
  basePageDir := physBase + 4096
  pagedir := none
  answers := answers
  obtained := []
  freed := []
  pos := 0
  reads := []

theorem Boot.answers {s : Vm} (h : Boot s) (l : List (Option Nat)) :
    Boot { s with answers := l } :=
  ⟨⟨h.ok.layout, h.ok.base, h.ok.ram, h.ok.cap⟩, h.obtained, h.freed, h.userHalf, h.baseUsed⟩

theorem bootVm_boot (answers : List (Option Nat)) : Boot (bootVm answers) := by
  have h : Boot (bootVm []) := by
    refine ⟨⟨⟨fun p => ?_, by decide, fun p => ?_⟩, fun p => ?_, fun p => ?_, by decide⟩, rfl, rfl,
      fun _ _ => rfl, fun p i hi => ?_⟩
    · cases p <;> decide
    · cases p <;> decide
    · cases p <;> decide
    · cases p <;> decide
    · have hlt : i < 5 := by cases p <;> exact hi
      revert i
      cases p <;> decide
  exact h.answers answers

/-- The executable header as `load` reads it. -/
def Image.ehdr (f : Image) : Buffer := memcpy zeros 0 f.byte 0 ehdrSize

/-- What a successful `load` has built. -/
structure Loaded (s0 s : Vm) (pd : Nat) (words : List CString) (stale : Stale) (f : Image)
    (eip esp : Nat) (L : List CString) (m : Buffer) (V : View) : Prop where
  length : ehdrSize ≤ f.length
  ehdr : ehdrOk f.ehdr = true
  eip : eip = ehdrEntry f.ehdr
  strings : ∃ argc, countArgs (argumentsOf words stale) = some argc ∧
    stringsOf ((argumentsOf words stale).take argc) = some L
  stack : stackImage L (stale.argv L.length) = some (m, esp)
  phoff : ehdrPhnum f.ehdr = 0 ∨ 0 ≤ asInt32 (ehdrPhoff f.ehdr)
  headers : headersView f (ehdrPhnum f.ehdr) (asInt32 (ehdrPhoff f.ehdr)).toNat (stackView m) = some V
  loading : Loading s0 s pd V

/-- **`load`** fails before there is a page directory, or leaves the address space in order; when
it succeeds the space is what the executable and the strings say. -/
theorem load_spec (h : Boot s) {x : CString} {words : List CString} {stale : Stale}
    {file : Option Image} :
    Wp NoAssert (load (x :: words) stale file) (fun r s' =>
      (r = none ∧ s'.pagedir = none ∧ Ledger s s' []) ∨
      ∃ pd, Orderly s s' pd ∧ ∀ eip esp, r = some (eip, esp) →
        ∃ f L m V, file = some f ∧ Loaded s s' pd (x :: words) stale f eip esp L m V) s := by
  unfold load
  split
  · rw [wp_throw]
    simp [NoAssert]
  rw [wp_bind]
  rcases h.create with he | ⟨pd, s1, he, hload⟩
  · rw [wp_of_ok he, wp_bind, wp_modify]
    simp only
    rw [wp_pure]
    exact .inl ⟨rfl, rfl, (Ledger.start h.ok h.obtained h.freed).congr rfl rfl rfl rfl rfl⟩
  rw [wp_of_ok he, wp_bind, wp_modify]
  simp only
  refine (setupStack_spec hload).bind fun r s2 hq => ?_
  obtain ⟨ho2, hr2⟩ := hq
  cases r with
  | none =>
    simp only
    rw [wp_pure]
    exact .inr ⟨pd, ho2, by simp⟩
  | some esp =>
    obtain ⟨argc, L, m, hc, hL, hst, hl2⟩ := hr2 esp rfl
    simp only
    cases file with
    | none =>
      simp only
      rw [wp_pure]
      exact .inr ⟨pd, ho2, by simp⟩
    | some f =>
      simp only
      rw [wp_bind, fileSeek, wp_modify, wp_bind, fileRead, wp_bind, wp_get, wp_bind, wp_set, wp_pure]
      simp only
      generalize hgot : min (min ehdrSize (f.length - 0)) (s2.reads.headD ehdrSize) = got
      have h3 := hl2.file (0 + got) s2.reads.tail
      split
      · rw [wp_pure]
        exact .inr ⟨pd, ⟨_, h3⟩, by simp⟩
      next hok =>
      push Not at hok
      obtain ⟨hfull, hok⟩ := hok
      rw [hfull] at hok h3 ⊢
      refine (loadHeaders_spec f h3).bind fun b s4 hq => ?_
      obtain ⟨ho4, hb4⟩ := hq
      cases b with
      | false =>
        simp only [Bool.false_eq_true, if_false]
        rw [wp_pure]
        exact .inr ⟨pd, ho4, by simp⟩
      | true =>
        obtain ⟨hoff, V, hV, hl4⟩ := hb4 rfl
        simp only [if_true]
        rw [wp_pure]
        refine .inr ⟨pd, ho4, fun eip' esp' hr => ?_⟩
        cases hr
        exact ⟨f, L, m, V, rfl, by omega, by simpa [Image.ehdr] using hok, rfl, ⟨argc, hc, hL⟩, hst,
          hoff, hV, hl4⟩

end

end Pintos.Userprog.Loader
