import Mathlib.Data.List.TakeWhile
import Pintos.Userprog.ExecHandshake
import Pintos.Userprog.LoadReturns

/-!
# `exec` of any command line (userprog/process.c)

`process_execute` from the string that a program passes to `SYS_EXEC` to the value that it
returns, with `load` in the new thread. The outcomes of the allocations, what lies in the memory
that nobody has written, and where the statements of the new thread fall among those of its
parent are inputs. `exec_robust_iff` says for which inputs the call returns.
-/

namespace Pintos.Userprog.Loader

open Pintos.Base Pintos.Kernel Pintos.Threads

/-! ## Words -/

/-- The delimiter of the words of a command line. -/
def blank : UInt8 := 32

/-- Some of the characters of a string. -/
def cstringOf (s : CString) (l : List UInt8) (h : l.Sublist s.chars) : CString :=
  ⟨l, fun h0 => s.no_nul (h.subset h0)⟩

/-- `strtok_r` with the delimiter " ": the token and the string at `*save_ptr`, or `none` for a
null pointer. -/
def strtokR (s : CString) : Option (CString × CString) :=
  let t := s.chars.dropWhile (· == blank)
  if t = [] then none
  else some (
    cstringOf s (t.takeWhile (· != blank))
      ((List.takeWhile_sublist _).trans (List.dropWhile_sublist _)),
    cstringOf s (t.dropWhile (· != blank)).tail
      ((List.tail_sublist _).trans ((List.dropWhile_sublist _).trans (List.dropWhile_sublist _))))

/-- The loop of `load` over the tokens, for at most the given number of rounds. -/
def wordsOf : Nat → CString → List CString
  | 0, _ => []
  | n + 1, s =>
    match strtokR s with
    | none => []
    | some (w, rest) => w :: wordsOf n rest

/-- The words of a command line. -/
def words (s : CString) : List CString := wordsOf (strlen s) s

/-- `strlcpy` to a page of its own. -/
def copyLine (s : CString) : CString := cstringOf s (s.chars.take (pgSize - 1)) (List.take_sublist _ _)

section

variable {s w rest : CString}

theorem strtokR_none : strtokR s = none ↔ ∀ c ∈ s.chars, c = blank := by
  simp only [strtokR]
  split
  next ht =>
    rw [List.dropWhile_eq_nil_iff] at ht
    simpa using ht
  next ht =>
    rw [List.dropWhile_eq_nil_iff] at ht
    simpa using ht

/-- A token is not empty. -/
theorem strtokR_some (h : strtokR s = some (w, rest)) : w.chars ≠ [] ∧ strlen rest < strlen s := by
  simp only [strtokR] at h
  split at h
  · cases h
  next ht =>
  cases h
  obtain ⟨c, t, hct⟩ := List.exists_cons_of_ne_nil ht
  have hc : (c == blank) = false := by
    have := List.head_dropWhile_not (· == blank) ht
    simpa [hct] using this
  have hlen : (s.chars.dropWhile (· == blank)).length ≤ s.chars.length :=
    (List.dropWhile_sublist _).length_le
  have hrest : ((c :: t).dropWhile (· != blank)).length ≤ t.length := by
    rw [List.dropWhile_cons_of_pos (by simp [bne, hc])]
    exact (List.dropWhile_sublist _).length_le
  simp only [cstringOf, strlen]
  rw [hct] at hlen ⊢
  refine ⟨?_, ?_⟩
  · rw [List.takeWhile_cons_of_pos (by simp [bne, hc])]
    exact List.cons_ne_nil _ _
  · rw [List.length_tail]
    rw [List.length_cons] at hlen
    omega

/-- The loop ends by itself. -/
theorem wordsOf_enough {n : Nat} (h : strlen s ≤ n) : wordsOf n s = words s := by
  suffices ∀ m n s, strlen s ≤ m → strlen s ≤ n → wordsOf m s = wordsOf n s from
    this n _ s h le_rfl
  intro m
  induction m with
  | zero =>
    intro n s hm hn
    have hnone : strtokR s = none := by
      rw [strtokR_none, List.eq_nil_of_length_eq_zero (Nat.le_zero.mp hm)]
      simp
    cases n with
    | zero => rfl
    | succ n => simp [wordsOf, hnone]
  | succ m ih =>
    intro n s hm hn
    cases hs : strtokR s with
    | none => cases n <;> simp [wordsOf, hs]
    | some r =>
      obtain ⟨w, rest⟩ := r
      obtain ⟨-, hlt⟩ := strtokR_some hs
      cases n with
      | zero => omega
      | succ n =>
        simp only [wordsOf, hs]
        rw [ih n rest (by omega) (by omega)]

/-- `words` takes a token off, and goes on with what is left. -/
theorem words_eq (s : CString) :
    words s = match strtokR s with
      | none => []
      | some (w, rest) => w :: words rest := by
  rw [← wordsOf_enough (Nat.le_succ _), wordsOf]
  cases h : strtokR s with
  | none => rfl
  | some r =>
    obtain ⟨w, rest⟩ := r
    obtain ⟨-, hlt⟩ := strtokR_some h
    simp only
    rw [wordsOf_enough (Nat.le_of_lt hlt)]

theorem words_eq_nil : words s = [] ↔ strtokR s = none := by
  rw [words_eq]
  cases strtokR s <;> simp

end

/-! ## `process_execute` -/

/-- How `process_execute` ends if the kernel does not stop in an ASSERT or on a wild access. -/
inductive Ended where
  | returned (tid : Int)
  /-- In `sema_down`, with nobody left to up the semaphore. -/
  | asleep
  /-- PANIC "bitmap too big!!" -/
  | panicked
  deriving DecidableEq, Repr

/-- How many of the seven stores of `process_execute` after `thread_create` are done when the new
thread comes to `cs->pid = -1`, if it comes there, and to `sema_up`. From eight on the parent
has called `sema_down` too. -/
structure Order where
  err : Nat
  up : Nat
  err_le : err ≤ up

/-- A call of `process_execute`. -/
structure Exec where
  cmd : CString
  /-- There is a page for `fn_copy`, and one for `fn_copy2`. -/
  page : Bool
  page2 : Bool
  /-- The block for `cs`. -/
  cs : Option Garbage
  /-- There is a page for the new thread, and a bitmap. -/
  thread : Bool
  bitmap : Bool
  parent : Tid
  tid : Tid
  order : Order
  /-- What `load` finds in its arrays, and what `filesys_open` returns to it. -/
  stale : Stale
  file : Option Image

/-- A statement on the record; `none` when it follows a wild pointer. -/
def runStatement (c : Rec) (pc : Pc) : Option Rec :=
  ((move 0 { Thread.absent with pc } (fun _ => c) pc .go).bind (·.act)).map
    (·.recOf (fun _ => c) 0)

def runStatements (l : List Pc) (c : Rec) : Option Rec := l.foldlM runStatement c

/-- The stores of `process_execute` after `thread_create`. -/
def initStores (tid : Int) : List Pc :=
  [.init .semaValue 0 tid, .init .semaList 0 tid, .init .lockHolder 0 tid, .init .lockValue 0 tid,
    .init .lockList 0 tid, .init .push 0 tid, .init .storePid 0 tid]

/-- `cs->pid = -1` when `load` has failed. -/
def errStatement (ok : Bool) : List Pc := if ok then [] else [.storeErr 0]

/-- The statements on the record up to the `sema_down` of the parent. -/
def Order.before (o : Order) (tid : Int) (ok : Bool) : List Pc :=
  (initStores tid).take o.err ++ (if o.err ≤ 7 then errStatement ok else []) ++
    ((initStores tid).take o.up).drop o.err ++ (if o.up ≤ 7 then [.ack 0] else []) ++
    (initStores tid).drop o.up

/-- The statements of the new thread while the parent sleeps. -/
def Order.after (o : Order) (ok : Bool) : List Pc :=
  (if o.err ≤ 7 then [] else errStatement ok) ++ (if o.up ≤ 7 then [] else [.ack 0])

/-- The end of `process_execute`, for the statements before and after the first pass of its
`sema_down`. When a failed child is taken off the list and freed the value is the same. -/
def finish (parent : Tid) (before after : List Pc) (c : Rec) : Option Ended :=
  (runStatements before c).bind fun c =>
    match semaDown c.semaExec parent with
    | .pass _ => some (.returned c.pid)
    | .fault => none
    | .block sema =>
      (runStatements after { c with semaExec := sema }).map fun c =>
        -- `sema_up` leaves a unit to the thread that it wakes
        if c.semaExec.value = 0 then .asleep else .returned c.pid

def orFault {α : Type} : Option α → M α
  | none => throw .fault
  | some a => pure a

/-- `start_process` up to the end of `load`: whether it succeeded. -/
def Exec.startProcess (x : Exec) : M Bool := do
  let r ← load (words (copyLine x.cmd)) x.stale x.file
  pure r.isSome

/-- `process_execute` -/
def Exec.processExecute (x : Exec) : M Ended := do
  if !x.page then pure (.returned tidError)
  else do
    -- `strlcpy` asserts that its destination is not null
    assert x.page2
    let name := strtokR (copyLine x.cmd)
    match x.cs with
    | none => throw .fault
    | some g =>
      if !x.thread then orFault (finish x.parent (initStores tidError) [] (g.toRec x.parent none))
      else do
        -- `init_thread`
        assert name.isSome
        if !x.bitmap then pure .panicked
        else do
          let ok ← x.startProcess
          orFault (finish x.parent (x.order.before x.tid ok) (x.order.after ok)
            (g.toRec x.parent (some x.tid)))

/-- **What a robust `exec` is**: no ASSERT fails, `arguments` and `argv` are used inside their
bounds, `setup_stack` stores through no address that is not on the stack page, the only user page
there is, and the call returns the new thread or an error. -/
structure Exec.Robust (x : Exec) (s : Vm) : Prop where
  asserts : x.processExecute s ≠ .error .assertion
  arrays : x.processExecute s ≠ .error .undefined
  stores : x.processExecute s ≠ .error .fault
  ends : ∃ v s', x.processExecute s = .ok (.returned v, s') ∧ (v = x.tid ∨ v = tidError)

/-! ## The condition -/

/-- The new thread comes to its `sema_up` when the semaphore is initialised, or has its value and
happens to have an empty list. -/
def Order.InTime (o : Order) (g : Garbage) : Prop := 2 ≤ o.up ∨ o.up = 1 ∧ g.semaList = true

/-- **When an `exec` is robust**: there is no page for the first copy, or all allocations of
`process_execute` and `thread_create` succeed, the new thread is not too early, the command line
has between 1 and 32 words, and `load` has no stack page to miss and no page to overrun. -/
def Exec.Fits (x : Exec) (s : Vm) : Prop :=
  x.page = true → x.page2 = true ∧ x.thread = true ∧ x.bitmap = true ∧
    (∃ g, x.cs = some g ∧ x.order.InTime g) ∧ words (copyLine x.cmd) ≠ [] ∧
    (words (copyLine x.cmd)).length ≤ 32 ∧ LoadFits (words (copyLine x.cmd)) x.stale s

/-! ## The handshake -/

/-- The statements on the record of a new thread. -/
def OnRecord (tid : Int) (pc : Pc) : Prop := pc = .ack 0 ∨ pc = .storeErr 0 ∨ ∃ i, pc = .init i 0 tid

/-- What a statement does to `sema_exec`. -/
def semaStatement (x : Semaphore) : Pc → Option Semaphore
  | .init .semaValue _ _ => some { x with value := 0 }
  | .init .semaList _ _ => some { x with waiters := some [] }
  | .ack _ => (semaUp x).map Prod.fst
  | _ => some x

def semaStatements (l : List Pc) (x : Semaphore) : Option Semaphore := l.foldlM semaStatement x

section

variable {tid : Int} {c c' : Rec} {pc : Pc} {l l' : List Pc} {parent : Tid} {g : Garbage} {o : Order}
  {ok : Bool}

theorem runStatement_ack (c : Rec) : runStatement c (.ack 0) =
    (semaUp c.semaExec).map fun r => { c with semaExec := r.1 } := by
  simp only [runStatement, move, up, Option.bind_some]
  cases semaUp c.semaExec with
  | none => rfl
  | some r => rfl

theorem runStatement_sema (h : OnRecord tid pc) (c : Rec) :
    (runStatement c pc).map (·.semaExec) = semaStatement c.semaExec pc := by
  rcases h with rfl | rfl | ⟨i, rfl⟩
  · rw [runStatement_ack, Option.map_map]
    rfl
  · rfl
  · cases i <;> rfl

/-- The process number is the stored one, or not stored yet. -/
theorem runStatement_pid (h : OnRecord tid pc) (hc : runStatement c pc = some c') :
    c'.pid = tid ∨ c'.pid = tidError ∨ c'.pid = c.pid ∧ pc ≠ .init .storePid 0 tid := by
  rcases h with rfl | rfl | ⟨i, rfl⟩
  · rw [runStatement_ack] at hc
    obtain ⟨r, -, rfl⟩ := Option.map_eq_some_iff.mp hc
    exact .inr (.inr ⟨rfl, by simp⟩)
  · cases hc
    exact .inr (.inl rfl)
  · cases i with
    | storePid =>
      cases hc
      exact .inl rfl
    | semaValue | semaList | lockHolder | lockValue | lockList | push =>
      cases hc
      exact .inr (.inr ⟨rfl, by simp⟩)

theorem runStatements_sema (h : ∀ pc ∈ l, OnRecord tid pc) (c : Rec) :
    (runStatements l c).map (·.semaExec) = semaStatements l c.semaExec := by
  induction l generalizing c with
  | nil => rfl
  | cons pc l ih =>
    have hpc := runStatement_sema (h pc List.mem_cons_self) c
    simp only [runStatements, semaStatements, List.foldlM_cons, Option.bind_eq_bind] at ih ⊢
    cases hc : runStatement c pc with
    | none =>
      rw [hc] at hpc
      rw [← hpc]
      rfl
    | some c' =>
      rw [hc] at hpc
      rw [← hpc]
      exact ih (fun pc hpc => h pc (List.mem_cons_of_mem _ hpc)) c'

theorem runStatements_pid (h : ∀ pc ∈ l, OnRecord tid pc) (hc : runStatements l c = some c') :
    c'.pid = tid ∨ c'.pid = tidError ∨ c'.pid = c.pid ∧ .init .storePid 0 tid ∉ l := by
  induction l generalizing c with
  | nil =>
    cases hc
    exact .inr (.inr ⟨rfl, by simp⟩)
  | cons pc l ih =>
    simp only [runStatements, List.foldlM_cons, Option.bind_eq_bind, Option.bind_eq_some_iff] at hc ih
    obtain ⟨c1, h1, h2⟩ := hc
    have hpid := runStatement_pid (h pc List.mem_cons_self) h1
    rcases ih (fun pc hpc => h pc (List.mem_cons_of_mem _ hpc)) h2 with he | he | ⟨he, hl⟩
    · exact .inl he
    · exact .inr (.inl he)
    · rw [he]
      refine hpid.imp_right fun hpid => hpid.imp_right fun ⟨hpid, hne⟩ => ⟨hpid, ?_⟩
      simp only [List.mem_cons, not_or]
      exact ⟨Ne.symm hne, hl⟩

theorem semaStatements_append (x : Semaphore) :
    semaStatements (l ++ l') x = (semaStatements l x).bind (semaStatements l') := by
  rw [semaStatements, List.foldlM_append]
  rfl

/-- Statements that leave `sema_exec` alone. -/
theorem semaStatements_quiet (h : ∀ pc ∈ l, ∀ x, semaStatement x pc = some x) (x : Semaphore) :
    semaStatements l x = some x := by
  induction l with
  | nil => rfl
  | cons pc l ih =>
    simp only [semaStatements, List.foldlM_cons, h pc List.mem_cons_self] at ih ⊢
    exact ih fun pc hpc => h pc (List.mem_cons_of_mem _ hpc)

theorem semaStatements_err (x : Semaphore) : semaStatements (errStatement ok) x = some x :=
  semaStatements_quiet (fun pc h x => by
    cases ok with
    | true => cases h
    | false =>
      rw [List.mem_singleton.mp h]
      rfl) x

/-- Where the store of -1 comes does not matter for `sema_exec`. -/
theorem before_sema (o : Order) (tid : Int) (ok : Bool) (x : Semaphore) :
    semaStatements (o.before tid ok) x =
      semaStatements ((initStores tid).take o.up ++ ((if o.up ≤ 7 then [.ack 0] else []) ++
        (initStores tid).drop o.up)) x := by
  have htake : (initStores tid).take o.err ++ ((initStores tid).take o.up).drop o.err =
      (initStores tid).take o.up := by
    have hmin : (initStores tid).take o.err = ((initStores tid).take o.up).take o.err := by
      rw [List.take_take, Nat.min_eq_left o.err_le]
    rw [hmin, List.take_append_drop]
  have herr : ∀ y, semaStatements (if o.err ≤ 7 then errStatement ok else []) y = some y := by
    intro y
    split
    · exact semaStatements_err y
    · rfl
  rw [Order.before]
  generalize ((initStores tid).take o.up).drop o.err = rest at htake ⊢
  rw [← htake]
  simp only [semaStatements_append, Option.bind_assoc]
  refine Option.bind_congr fun y _ => ?_
  rw [herr, Option.bind_some]

/-- The stores after those of `sema_init`. -/
theorem later_quiet (h : l ⊆ (initStores tid).drop 2) (x : Semaphore) :
    semaStatements l x = some x := by
  refine semaStatements_quiet (fun pc hpc x => ?_) x
  have hmem := h hpc
  simp only [initStores, List.drop_succ_cons, List.drop_zero, List.mem_cons, List.not_mem_nil,
    or_false] at hmem
  rcases hmem with rfl | rfl | rfl | rfl | rfl <;> rfl

/-- A unit for the parent, if the new thread does not come last. -/
theorem before_in_time (h : o.InTime g) :
    semaStatements (o.before tid ok) ⟨g.semaValue, if g.semaList then some [] else none⟩ =
      some ⟨if o.up ≤ 7 then 1 else 0, some []⟩ := by
  rw [before_sema]
  rcases h with h | ⟨h, hlist⟩
  · obtain ⟨n, hn⟩ := Nat.exists_eq_add_of_le' h
    have htake : (initStores tid).take o.up =
        [.init .semaValue 0 tid, .init .semaList 0 tid] ++ ((initStores tid).drop 2).take n := by
      rw [hn]
      rfl
    have hinit : ∀ x, semaStatements [.init .semaValue 0 tid, .init .semaList 0 tid] x =
        some ⟨0, some []⟩ := fun _ => rfl
    have hrest : (initStores tid).drop o.up ⊆ (initStores tid).drop 2 := by
      rw [hn, Nat.add_comm, ← List.drop_drop]
      exact List.drop_subset _ _
    rw [htake, semaStatements_append, semaStatements_append, hinit, Option.bind_some,
      later_quiet (List.take_subset _ _), Option.bind_some, semaStatements_append]
    split <;> exact later_quiet hrest _
  · rw [h, hlist]
    rfl

/-- The unit of a new thread that is too early is lost, if it gets that far. -/
theorem before_early (h : ¬ o.InTime g) :
    o.up ≤ 7 ∧
      (semaStatements (o.before tid ok) ⟨g.semaValue, if g.semaList then some [] else none⟩ = none ∨
        semaStatements (o.before tid ok) ⟨g.semaValue, if g.semaList then some [] else none⟩ =
          some ⟨0, some []⟩) := by
  rw [before_sema]
  simp only [Order.InTime, not_or, not_and, not_le, Bool.not_eq_true] at h
  obtain ⟨h2, h1⟩ := h
  refine ⟨by omega, ?_⟩
  rcases Nat.lt_or_ge 0 o.up with h0 | h0
  · have hup : o.up = 1 := by omega
    rw [hup, h1 hup]
    exact .inl rfl
  · rw [Nat.le_zero.mp h0]
    cases g.semaList with
    | true => exact .inr rfl
    | false => exact .inl rfl

theorem before_onRecord (o : Order) (tid : Int) (ok : Bool) :
    ∀ pc ∈ o.before tid ok, OnRecord tid pc := by
  have hstores : ∀ pc ∈ initStores tid, OnRecord tid pc := by
    intro pc hpc
    simp only [initStores, List.mem_cons, List.not_mem_nil, or_false] at hpc
    rcases hpc with rfl | rfl | rfl | rfl | rfl | rfl | rfl <;> exact .inr (.inr ⟨_, rfl⟩)
  intro pc hpc
  simp only [Order.before, List.mem_append] at hpc
  rcases hpc with (((hpc | hpc) | hpc) | hpc) | hpc
  · exact hstores pc (List.mem_of_mem_take hpc)
  · split at hpc
    · cases ok with
      | true => cases hpc
      | false => exact .inr (.inl (List.mem_singleton.mp hpc))
    · cases hpc
  · exact hstores pc (List.mem_of_mem_take (List.mem_of_mem_drop hpc))
  · split at hpc
    · exact .inl (List.mem_singleton.mp hpc)
    · cases hpc
  · exact hstores pc (List.mem_of_mem_drop hpc)

theorem after_onRecord (o : Order) (tid : Int) (ok : Bool) :
    ∀ pc ∈ o.after ok, OnRecord tid pc := by
  intro pc hpc
  simp only [Order.after, List.mem_append] at hpc
  rcases hpc with hpc | hpc
  · split at hpc
    · cases hpc
    · cases ok with
      | true => cases hpc
      | false => exact .inr (.inl (List.mem_singleton.mp hpc))
  · split at hpc
    · cases hpc
    · exact .inl (List.mem_singleton.mp hpc)

theorem storePid_mem_before (o : Order) (tid : Int) (ok : Bool) :
    .init .storePid 0 tid ∈ o.before tid ok := by
  have hmem : .init .storePid 0 tid ∈ (initStores tid).take o.up ++ (initStores tid).drop o.up := by
    rw [List.take_append_drop]
    simp [initStores]
  have hmin : (initStores tid).take o.err = ((initStores tid).take o.up).take o.err := by
    rw [List.take_take, Nat.min_eq_left o.err_le]
  rw [← List.take_append_drop o.err ((initStores tid).take o.up), ← hmin] at hmem
  simp only [List.mem_append] at hmem
  simp only [Order.before, List.mem_append]
  tauto

theorem runStatements_some {x : Semaphore} (h : ∀ pc ∈ l, OnRecord tid pc)
    (hx : semaStatements l c.semaExec = some x) :
    ∃ c', runStatements l c = some c' ∧ c'.semaExec = x :=
  Option.map_eq_some_iff.mp ((runStatements_sema h c).trans hx)

/-- **The handshake**: the parent gets a value if and only if the new thread is not too early. -/
theorem finish_iff (o : Order) (tid : Int) (ok : Bool) (parent : Tid) (g : Garbage)
    (child : Option Tid) :
    (∃ v, finish parent (o.before tid ok) (o.after ok) (g.toRec parent child) = some (.returned v)) ↔
      o.InTime g := by
  have hrec := before_onRecord o tid ok
  constructor
  · rintro ⟨v, h⟩
    by_contra hearly
    obtain ⟨hup, hnone | hlost⟩ := @before_early tid g o ok hearly
    · have hrun : runStatements (o.before tid ok) (g.toRec parent child) = none :=
        Option.map_eq_none_iff.mp ((runStatements_sema hrec _).trans hnone)
      rw [finish, hrun] at h
      cases h
    · obtain ⟨c, hrun, hc⟩ := runStatements_some (c := g.toRec parent child) hrec hlost
      have hafter : o.after ok = [] := by
        rw [Order.after, if_pos (Nat.le_trans o.err_le hup), if_pos hup]
        rfl
      rw [finish, hrun, Option.bind_some, hc, hafter] at h
      cases h
  · intro hin
    obtain ⟨c, hrun, hc⟩ := runStatements_some (c := g.toRec parent child) hrec (before_in_time hin)
    rw [finish, hrun, Option.bind_some, hc]
    by_cases hup : o.up ≤ 7
    · rw [if_pos hup]
      exact ⟨_, rfl⟩
    · rw [if_neg hup]
      have hquiet : ∀ x, semaStatements (if o.err ≤ 7 then [] else errStatement ok) x = some x := by
        intro x
        split
        · rfl
        · exact semaStatements_err x
      have hx : semaStatements (o.after ok) ⟨0, some [parent]⟩ = some ⟨1, some []⟩ := by
        rw [Order.after, if_neg hup, semaStatements_append, hquiet]
        rfl
      obtain ⟨c', hrun', hc'⟩ := runStatements_some (c := { c with semaExec := ⟨0, some [parent]⟩ })
        (after_onRecord o tid ok) hx
      refine ⟨c'.pid, ?_⟩
      show (runStatements (o.after ok) { c with semaExec := ⟨0, some [parent]⟩ }).map _ = _
      rw [hrun', Option.map_some, hc']
      rfl

/-- The value is the one stored by the parent, or the -1 of a failed child. -/
theorem finish_value {v : Int} {child : Option Tid}
    (h : finish parent (o.before tid ok) (o.after ok) (g.toRec parent child) = some (.returned v)) :
    v = tid ∨ v = tidError := by
  obtain ⟨c, hrun, h⟩ := Option.bind_eq_some_iff.mp h
  have hpid : c.pid = tid ∨ c.pid = tidError := by
    rcases runStatements_pid (before_onRecord o tid ok) hrun with he | he | ⟨-, hne⟩
    · exact .inl he
    · exact .inr he
    · exact absurd (storePid_mem_before o tid ok) hne
  cases hdown : semaDown c.semaExec parent with
  | pass x =>
    rw [hdown] at h
    cases h
    exact hpid
  | fault =>
    rw [hdown] at h
    cases h
  | block x =>
    rw [hdown] at h
    obtain ⟨c', hrun', h⟩ := Option.map_eq_some_iff.mp h
    split at h
    · cases h
    · cases h
      rcases runStatements_pid (after_onRecord o tid ok) hrun' with he | he | ⟨he, -⟩
      · exact .inl he
      · exact .inr he
      · rwa [he]

/-- Nobody ups the semaphore when there is no new thread. -/
theorem finish_alone (parent : Tid) (g : Garbage) (child : Option Tid) :
    finish parent (initStores tid) [] (g.toRec parent child) = some .asleep := rfl

end

/-! ## When `exec` is robust -/

section

variable {s : Vm} {x : Exec} {g : Garbage}

/-- A call that returns does not stop. -/
theorem Exec.robust_iff : x.Robust s ↔
    ∃ v s', x.processExecute s = .ok (.returned v, s') ∧ (v = x.tid ∨ v = tidError) := by
  constructor
  · exact fun h => h.ends
  · rintro ⟨v, s', hrun, hv⟩
    refine ⟨?_, ?_, ?_, v, s', hrun, hv⟩ <;>
    · rw [hrun]
      simp

/-- What is left when `thread_create` has succeeded. -/
def Exec.run (x : Exec) (g : Garbage) : M Ended := do
  let ok ← x.startProcess
  orFault (finish x.parent (x.order.before x.tid ok) (x.order.after ok) (g.toRec x.parent (some x.tid)))

theorem Exec.run_returns_iff (x : Exec) (g : Garbage) (s : Vm) :
    (∃ v s', x.run g s = .ok (.returned v, s') ∧ (v = x.tid ∨ v = tidError)) ↔
      x.order.InTime g ∧ ∃ r s', load (words (copyLine x.cmd)) x.stale x.file s = .ok (r, s') := by
  constructor
  · rintro ⟨v, s', hrun, -⟩
    obtain ⟨ok, s1, hstart, hfin⟩ := ok_of_bind hrun
    obtain ⟨r, s2, hload, -⟩ := ok_of_bind hstart
    refine ⟨(finish_iff x.order x.tid ok x.parent g (some x.tid)).mp ⟨v, ?_⟩, r, s2, hload⟩
    cases hf : finish x.parent (x.order.before x.tid ok) (x.order.after ok)
      (g.toRec x.parent (some x.tid)) with
    | none =>
      rw [hf] at hfin
      cases hfin
    | some e =>
      rw [hf] at hfin
      cases hfin
      rfl
  · rintro ⟨hin, r, s', hload⟩
    obtain ⟨v, hv⟩ := (finish_iff x.order x.tid r.isSome x.parent g (some x.tid)).mpr hin
    refine ⟨v, s', ?_, finish_value hv⟩
    rw [Exec.run, bind_run, Exec.startProcess, bind_run, hload]
    simp only [ok_bind, pure_run, hv]
    rfl

/-- What `process_execute` needs to come to `load`. -/
structure Exec.Starts (x : Exec) (g : Garbage) : Prop where
  page2 : x.page2 = true
  cs : x.cs = some g
  thread : x.thread = true
  name : words (copyLine x.cmd) ≠ []
  bitmap : x.bitmap = true

theorem Exec.Starts.run (h : x.Starts g) (hp : x.page = true) : x.processExecute = x.run g := by
  obtain ⟨r, hname⟩ := Option.ne_none_iff_exists'.mp (words_eq_nil.not.mp h.name)
  unfold Exec.processExecute
  rw [hp, h.page2, h.cs, h.thread, h.bitmap, hname]
  rfl

/-- A call that returns has come to `load`, or has no page for the first copy. -/
theorem Exec.starts_of_returned {v : Int} {s' : Vm} (hp : x.page = true)
    (hrun : x.processExecute s = .ok (.returned v, s')) : ∃ g, x.Starts g := by
  unfold Exec.processExecute at hrun
  rw [hp] at hrun
  cases h2 : x.page2 with
  | false =>
    rw [h2] at hrun
    cases hrun
  | true =>
    cases hcs : x.cs with
    | none =>
      rw [h2, hcs] at hrun
      cases hrun
    | some g =>
      rw [h2, hcs] at hrun
      cases ht : x.thread with
      | false =>
        rw [ht] at hrun
        cases hrun
      | true =>
        rw [ht] at hrun
        cases hn : strtokR (copyLine x.cmd) with
        | none =>
          rw [hn] at hrun
          cases hrun
        | some r =>
          rw [hn] at hrun
          cases hb : x.bitmap with
          | false =>
            rw [hb] at hrun
            cases hrun
          | true => exact ⟨g, h2, hcs, ht, words_eq_nil.not.mpr (by rw [hn]; simp), hb⟩

/-- The outcomes of the allocations for the model of processes. -/
def Exec.env (x : Exec) : ExecEnv where
  page := x.page
  page2 := x.page2
  name := (strtokR (copyLine x.cmd)).isSome
  block := x.cs
  thread := x.thread
  bitmap := x.bitmap

/-- In that model the same calls come to a new thread. -/
theorem Exec.starts_iff_spawns (x : Exec) (st : State) (t : Tid) :
    x.page = true ∧ (∃ g, x.Starts g) ↔
      (Userprog.processExecute st t x.env).nextTid = st.nextTid + 1 := by
  have hname := @words_eq_nil (copyLine x.cmd)
  constructor
  · rintro ⟨hp, g, hs⟩
    obtain ⟨r, hr⟩ := Option.ne_none_iff_exists'.mp (hname.not.mp hs.name)
    simp [Userprog.processExecute, Exec.env, hp, hs.page2, hs.cs, hs.thread, hs.bitmap, hr]
  · intro h
    unfold Userprog.processExecute at h
    cases hp : x.env.page with
    | false => simp [hp] at h
    | true =>
      refine ⟨hp, ?_⟩
      cases h2 : x.env.page2 with
      | false => simp [hp, h2, State.fail] at h
      | true =>
        cases hcs : x.env.block with
        | none => simp [hp, h2, hcs, State.fail] at h
        | some g =>
          cases ht : x.env.thread with
          | false => simp [hp, h2, hcs, ht] at h
          | true =>
            cases hn : x.env.name && x.env.bitmap with
            | false => simp only [hp, h2, hcs, ht, hn, State.fail, Bool.not_true, Bool.not_false,
                Bool.false_eq_true, if_false, if_true, Nat.left_eq_add, one_ne_zero] at h
            | true =>
              obtain ⟨hn, hb⟩ := Bool.and_eq_true_iff.mp hn
              exact ⟨g, h2, hcs, ht, hname.not.mpr (Option.isSome_iff_ne_none.mp hn), hb⟩

/-- **`exec` of any command line**: it is robust if and only if there is no page for the first copy
of the command line, or the other allocations and the new thread's place in the order of
statements, the command line, and what lies behind it in `arguments` are as `Fits` says. -/
theorem exec_robust_iff (h : Boot s) (x : Exec) : x.Robust s ↔ x.Fits s := by
  rw [Exec.robust_iff]
  constructor
  · rintro ⟨v, s', hrun, hv⟩ hp
    obtain ⟨g, hstarts⟩ := x.starts_of_returned hp hrun
    rw [hstarts.run hp] at hrun
    obtain ⟨hin, r, s1, hload⟩ := (x.run_returns_iff g s).mp ⟨v, s', hrun, hv⟩
    have hlen : (words (copyLine x.cmd)).length ≤ 32 := by
      by_contra hlt
      rw [load, if_pos (.inr (by omega))] at hload
      cases hload
    exact ⟨hstarts.page2, hstarts.thread, hstarts.bitmap, ⟨g, hstarts.cs, hin⟩, hstarts.name, hlen,
      (load_returns_iff h hstarts.name hlen x.file).mp ⟨r, s1, hload⟩⟩
  · intro hfits
    cases hp : x.page with
    | false =>
      refine ⟨tidError, s, ?_, .inr rfl⟩
      rw [Exec.processExecute, hp]
      rfl
    | true =>
      obtain ⟨h2, ht, hb, ⟨g, hcs, hin⟩, hname, hlen, hload⟩ := hfits hp
      have hstarts : x.Starts g := ⟨h2, hcs, ht, hname, hb⟩
      rw [hstarts.run hp]
      exact (x.run_returns_iff g s).mpr ⟨hin, (load_returns_iff h hname hlen x.file).mpr hload⟩

end

/-- Every allocation of `process_execute` succeeds, and the parent sleeps when `load` ends. -/
def execOf (cmd : CString) : Exec where
  cmd := cmd
  page := true
  page2 := true
  cs := some zeroed
  thread := true
  bitmap := true
  parent := 1
  tid := 3
  order := ⟨8, 8, le_rfl⟩
  stale := nullStale fun _ => 7
  file := some tinyElf

/-- `exec ("echo x")` -/
theorem exec_echo_robust : (execOf ⟨[101, 99, 104, 111, 32, 120], by decide⟩).Robust
    (bootVm [some 1, some 0, some 2, some 1, some 3]) :=
  (exec_robust_iff (bootVm_boot _) _).mpr fun _ => ⟨rfl, rfl, rfl, ⟨zeroed, rfl, .inl (by decide)⟩,
    by decide, by decide, fun _ => ⟨by decide, fun _ => ⟨by decide, [], by decide, by decide⟩⟩⟩

/-- `exec ("")`: there is no name for the new thread. -/
theorem exec_empty_asserts : ¬ ∀ (x : Exec) (s : Vm), Boot s → x.Robust s := by
  intro h
  exact (h (execOf ⟨[], by decide⟩) (bootVm []) (bootVm_boot _)).asserts rfl

end Pintos.Userprog.Loader
