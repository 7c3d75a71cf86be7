import Pintos.Threads.ConditionRun

/-!
# Synchronized lists (threads/synchlist.c)

`sl_append` and `sl_remove` are monitors over the lock and the condition of the list: a
thread runs a statement of its own when it has the lock, and otherwise a statement of the
call that it is in. A signal does not hand over the lock, so that a thread which comes later
can take the item that another was woken for.
-/

namespace Pintos.Threads

open Pintos.Base

/-- Where a thread stands in `sl_append` or `sl_remove`. -/
inductive SlPc (α : Type) where
  | out
  /-- In `sl_append` up to `list_push_back`. -/
  | appendLock (item : α)
  /-- The element is in the list. -/
  | appendSignal
  /-- From the call of `cond_signal` on. -/
  | appendUnlock
  /-- In the `lock_release` of `sl_append`. -/
  | appendDone
  /-- In `sl_remove` up to the end of the loop. -/
  | removeLoop
  /-- Behind the loop, before `list_pop_front`. -/
  | removePop
  /-- Before the `lock_release` of `sl_remove`. -/
  | removeUnlock (item : α)
  /-- In the `lock_release` of `sl_remove`. -/
  | removeDone (item : α)

/-- A `struct SynchList` and its threads. `appended` are the items in the order in which their
`sl_append` got the lock, `removed` those returned, in the order in which their `sl_remove`
gave it back; `coming` is the item of the thread that has the lock and has not linked it,
`going` that of the thread that has taken it out and still has the lock. -/
structure SlSys (α : Type) where
  cond : CondSys
  slList : List α
  sl : Tid → SlPc α
  coming : Option α
  going : Option α
  appended : List α
  removed : List α

inductive SlOp (α : Type) where
  | append (t : Tid) (item : α)
  | remove (t : Tid)
  | run (t : Tid)

variable {α : Type}

/-- `sl_init` -/
def slInit : SlSys α := ⟨condStart, [], fun _ => .out, none, none, [], []⟩

namespace SlSys

/-- A call on the lock or the condition, and where the thread stands then. -/
def slCall (s : SlSys α) (t : Tid) (c : CondCall) (p : SlPc α) : Option (SlSys α) :=
  (condStep s.cond (.call t c)).map fun cond => { s with cond, sl := Function.update s.sl t p }

/-- A statement of `sl_append` or `sl_remove` of the thread that has the lock; `none` when
`list_pop_front` finds the list empty. -/
def statement (s : SlSys α) (t : Tid) : Option (SlSys α) :=
  match s.sl t with
  | .appendLock item => some { s with
      slList := s.slList ++ [item], coming := none, sl := Function.update s.sl t .appendSignal }
  | .appendSignal => s.slCall t .signal .appendUnlock
  | .appendUnlock => s.slCall t (.lock .release) .appendDone
  | .removeLoop =>
    match s.slList with
    | [] => s.slCall t .wait .removeLoop
    | _ :: _ => some { s with sl := Function.update s.sl t .removePop }
  | .removePop =>
    match s.slList with
    | [] => none
    | item :: items => some { s with
        slList := items, going := some item, sl := Function.update s.sl t (.removeUnlock item) }
  | .removeUnlock item => s.slCall t (.lock .release) (.removeDone item)
  | .out | .appendDone | .removeDone _ => none

/-- A statement of a call on the lock or the condition has led to `cond`; the lock may have
been got or given back. -/
def after (s : SlSys α) (t : Tid) (cond : CondSys) : SlSys α :=
  match s.sl t, cond.pc t with
  | .appendLock item, .lock .held =>
    { s with cond, appended := s.appended ++ [item], coming := some item }
  | .appendDone, .lock .out => { s with cond, sl := Function.update s.sl t .out }
  | .removeDone item, .lock .out => { s with
      cond, removed := s.removed ++ [item], going := none, sl := Function.update s.sl t .out }
  | _, _ => { s with cond }

end SlSys

def slStep (s : SlSys α) : SlOp α → Option (SlSys α)
  | .append t item =>
    match s.sl t with
    | .out => s.slCall t (.lock .acquire) (.appendLock item)
    | _ => none
  | .remove t =>
    match s.sl t with
    | .out => s.slCall t (.lock .acquire) .removeLoop
    | _ => none
  | .run t =>
    if s.cond.pc t = .lock .held then s.statement t
    else (condStep s.cond (.next t)).map (s.after t)

/-! ## The invariant -/

/-- On the way to the lock. -/
def CondPc.entering (c : CondPc) : Prop :=
  c = .lock .acquire ∨ c = .lock .asleep ∨ c = .lock .woken ∨ c = .lock .taken

namespace SlPc

/-- Where the calls of a thread can be. -/
def Place : SlPc α → CondPc → Prop
  | .out, c => c = .lock .out
  | .appendLock _, c => c.entering ∨ c = .lock .held
  | .appendSignal, c | .removePop, c | .removeUnlock _, c => c = .lock .held
  | .appendUnlock, c => c = .signal .thread ∨ (∃ w, c = .signalUp .thread w) ∨ c = .lock .held
  | .appendDone, c | .removeDone _, c => c = .lock .release ∨ c = .lock .cleared
  | .removeLoop, c => c.entering ∨ c = .lock .held ∨ c = .wait ∨ c.waiting = true

/-- The item that a thread with the lock is about to link. -/
def put : SlPc α → CondPc → Option α
  | .appendLock item, .lock .held => some item
  | _, _ => none

/-- The item that a thread with the lock has taken out. -/
def carry : SlPc α → Option α
  | .removeUnlock item | .removeDone item => some item
  | _ => none

/-- The thread has the lock and one item of the list is its business: it is about to signal for
it, or to take it out. -/
def loose : SlPc α → CondPc → Bool
  | .appendSignal, _ | .removePop, _ | .appendUnlock, .signal _ | .removeLoop, .lock .held => true
  | _, _ => false

end SlPc

/-- While threads wait, each item but `n` has a thread that was signalled and has not come
back, or is signalled next. -/
def Credit (c : CondSys) (items n : Nat) : Prop :=
  c.waiters ≠ [] → items + c.returned.length ≤ c.released.length + c.picked.toList.length + n

/-- **The invariant** of a synchronized list and its threads. -/
structure SlInv (s : SlSys α) : Prop where
  cond : CondInv s.cond
  place : ∀ t, (s.sl t).Place (s.cond.pc t)
  fifo : s.appended = s.removed ++ s.going.toList ++ s.slList ++ s.coming.toList
  going : ∀ item, s.going = some item ↔ ∃ t, (s.sl t).carry = some item
  coming : ∀ item, s.coming = some item ↔ ∃ t, (s.sl t).put (s.cond.pc t) = some item
  pop : ∀ t, s.sl t = .removePop → s.slList ≠ []
  wait : ∀ t, s.cond.pc t = .wait → s.slList = []
  credit : ∃ n, n ≤ 1 ∧ (n = 1 → ∃ t, (s.sl t).loose (s.cond.pc t) = true) ∧
    Credit s.cond s.slList.length n

theorem SlInv.start : SlInv (slInit : SlSys α) where
  cond := .start
  place _ := rfl
  fifo := rfl
  going _ := iff_of_false (fun h => by cases h) fun ⟨_, h⟩ => by cases h
  coming _ := iff_of_false (fun h => by cases h) fun ⟨_, h⟩ => by cases h
  pop _ h := by cases h
  wait _ h := by cases h
  credit := ⟨0, by decide, fun h => (by cases h), fun h => absurd rfl h⟩

namespace SlPc

variable {p : SlPc α} {c c' : CondPc} {item : α}

theorem put_held (h : p.put c = some item) : c.lockPc = .held := by
  unfold put at h
  split at h
  · rfl
  · cases h

theorem carry_inside (hp : p.Place c) (h : p.carry = some item) : c.lockPc.inside = true := by
  cases p with
  | removeUnlock item =>
    rw [show c = .lock .held from hp]
    rfl
  | removeDone item =>
    rcases hp with rfl | rfl <;> rfl
  | out | appendLock item | appendSignal | appendUnlock | appendDone | removeLoop | removePop => cases h

theorem loose_held (hp : p.Place c) (h : p.loose c = true) : c.lockPc = .held := by
  unfold loose at h
  split at h
  · rw [show c = .lock .held from hp]
    rfl
  · rw [show c = .lock .held from hp]
    rfl
  · rfl
  · rfl
  · cases h

/-- A thread that is woken has no part in the list. -/
theorem unblocked (hp : p.Place c) (h : c.unblock = some c') :
    p.Place c' ∧ p.put c' = p.put c ∧ p.loose c' = p.loose c ∧ c' ≠ .wait := by
  have hc : c = .lock .asleep ∧ c' = .lock .woken ∨ c = .waitAsleep ∧ c' = .waitWoken ∨
      c = .waitAcquire .asleep ∧ c' = .waitAcquire .woken := by
    unfold CondPc.unblock at h
    split at h <;> cases h <;> simp
  rcases hc with ⟨rfl, rfl⟩ | ⟨rfl, rfl⟩ | ⟨rfl, rfl⟩ <;>
    cases p <;> simp_all [Place, put, loose, CondPc.entering, CondPc.waiting]

end SlPc

section

variable {s s' : SlSys α} {t : Tid}

/-- The thread is between the successful acquire and the end of the release. -/
def SlSys.Inside (s : SlSys α) (t : Tid) : Prop := (s.cond.pc t).lockPc.inside = true

theorem SlInv.alone (hi : SlInv s) (ht : s.Inside t) {u : Tid} (hu : s.Inside u) : u = t :=
  hi.cond.lock.region.one (t := u) (u := t) hu ht

theorem inside_of_held {c : CondPc} (h : c.lockPc = .held) : c.lockPc.inside = true := by
  rw [h]
  rfl

/-- **What a step of `t` has to show**: the rest of the invariant is about other threads, which
are at most woken, and are not inside when `t` is. -/
theorem SlInv.update (hi : SlInv s) {p q : SlPc α} {c c' : CondPc} (hp : s.sl t = p)
    (ht : s.cond.pc t = c) (hp' : s'.sl t = q) (ht' : s'.cond.pc t = c') (hc : CondInv s'.cond)
    (hoth : Others s.cond.pc s'.cond.pc t) (hsl : ∀ u, u ≠ t → s'.sl u = s.sl u)
    (hplace : q.Place c')
    (hfifo : s'.appended = s'.removed ++ s'.going.toList ++ s'.slList ++ s'.coming.toList)
    (hgoing : s'.going = s.going ∧ q.carry = p.carry ∨ s.Inside t ∧ s'.going = q.carry)
    (hcoming : s'.coming = s.coming ∧ q.put c' = p.put c ∨ s.Inside t ∧ s'.coming = q.put c')
    (hlist : s'.slList = s.slList ∨ s.Inside t) (hpop : q = .removePop → s'.slList ≠ [])
    (hwait : c' = .wait → s'.slList = [])
    (hcredit : q.loose c' = p.loose c ∧
        (∀ n, Credit s.cond s.slList.length n → Credit s'.cond s'.slList.length n) ∨
      s.Inside t ∧ ∀ n, n ≤ 1 → (n = 1 → p.loose c = true) → Credit s.cond s.slList.length n →
        ∃ m, m ≤ 1 ∧ (m = 1 → q.loose c' = true) ∧ Credit s'.cond s'.slList.length m) :
    SlInv s' := by
  subst hp ht hp' ht'
  have hkeep : ∀ u, u ≠ t → (s'.sl u).Place (s'.cond.pc u) ∧
      (s'.sl u).put (s'.cond.pc u) = (s.sl u).put (s.cond.pc u) ∧
      (s'.sl u).loose (s'.cond.pc u) = (s.sl u).loose (s.cond.pc u) ∧
      (s'.cond.pc u = .wait → s.cond.pc u = .wait) := by
    intro u hu
    rw [hsl u hu]
    rcases hoth u hu with he | hw
    · rw [he]
      exact ⟨hi.place u, rfl, rfl, id⟩
    · obtain ⟨h1, h2, h3, h4⟩ := SlPc.unblocked (hi.place u) hw
      exact ⟨h1, h2, h3, fun h => absurd h h4⟩
  refine ⟨hc, fun u => ?_, hfifo, fun item => ?_, fun item => ?_, fun u hu => ?_, fun u hu => ?_, ?_⟩
  · by_cases hut : u = t
    · exact hut ▸ hplace
    · exact (hkeep u hut).1
  · have hothers : s.Inside t → ∀ u, u ≠ t → (s'.sl u).carry ≠ some item := by
      intro hin u hut hcu
      rw [hsl u hut] at hcu
      exact hut (hi.alone hin (SlPc.carry_inside (hi.place u) hcu))
    rcases hgoing with ⟨hg, hcarry⟩ | ⟨hin, hg⟩
    · rw [hg, hi.going]
      refine exists_congr fun u => ?_
      by_cases hut : u = t
      · rw [hut, hcarry]
      · rw [hsl u hut]
    · rw [hg]
      refine ⟨fun h => ⟨t, h⟩, fun ⟨u, hu⟩ => ?_⟩
      by_cases hut : u = t
      · exact hut ▸ hu
      · exact absurd hu (hothers hin u hut)
  · have hothers : s.Inside t → ∀ u, u ≠ t → (s'.sl u).put (s'.cond.pc u) ≠ some item := by
      intro hin u hut hcu
      rw [(hkeep u hut).2.1] at hcu
      exact hut (hi.alone hin (inside_of_held (SlPc.put_held hcu)))
    rcases hcoming with ⟨hg, hput⟩ | ⟨hin, hg⟩
    · rw [hg, hi.coming]
      refine exists_congr fun u => ?_
      by_cases hut : u = t
      · rw [hut, hput]
      · rw [(hkeep u hut).2.1]
    · rw [hg]
      refine ⟨fun h => ⟨t, h⟩, fun ⟨u, hu⟩ => ?_⟩
      by_cases hut : u = t
      · exact hut ▸ hu
      · exact absurd hu (hothers hin u hut)
  · by_cases hut : u = t
    · exact hpop (hut ▸ hu)
    · rw [hsl u hut] at hu
      have hheld := hi.place u
      rw [hu] at hheld
      rcases hlist with he | hin
      · rw [he]
        exact hi.pop u hu
      · refine absurd (hi.alone hin ?_) hut
        rw [SlSys.Inside, show s.cond.pc u = .lock .held from hheld]
        rfl
  · by_cases hut : u = t
    · exact hwait (hut ▸ hu)
    · have hw := (hkeep u hut).2.2.2 hu
      rcases hlist with he | hin
      · rw [he]
        exact hi.wait u hw
      · refine absurd (hi.alone hin ?_) hut
        rw [SlSys.Inside, hw]
        rfl
  · obtain ⟨n, hn, hloose, hcr⟩ := hi.credit
    rcases hcredit with ⟨hl, hmono⟩ | ⟨hin, hstep⟩
    · refine ⟨n, hn, fun h1 => ?_, hmono n hcr⟩
      obtain ⟨u, hu⟩ := hloose h1
      by_cases hut : u = t
      · exact ⟨t, by rw [hl, ← hut, hu]⟩
      · exact ⟨u, by rw [(hkeep u hut).2.2.1, hu]⟩
    · obtain ⟨m, hm, hml, hmc⟩ := hstep n hn (fun h1 => by
        obtain ⟨u, hu⟩ := hloose h1
        cases hi.alone hin (inside_of_held (SlPc.loose_held (hi.place u) hu))
        exact hu) hcr
      exact ⟨m, hm, fun h1 => ⟨t, hml h1⟩, hmc⟩

/-! ## Statements of the list -/

theorem CondInv.returned_le {c : CondSys} (hi : CondInv c) : c.returned.length ≤ c.released.length := by
  refine (List.subperm_ext_iff.mpr fun t _ => ?_).length_le
  rw [hi.released_count t]
  exact Nat.le_add_right ..

/-- A call on the lock or the condition. -/
theorem SlInv.sl_call (hi : SlInv s) {c : CondCall} {p : SlPc α} (hok : Required s.cond (.call t c))
    (hplace : p.Place (c.entry s.cond)) (hcarry : p.carry = (s.sl t).carry)
    (hput : p.put (c.entry s.cond) = (s.sl t).put (s.cond.pc t)) (hpop : p ≠ .removePop)
    (hwait : c.entry s.cond = .wait → s.slList = [])
    (hloose : p.loose (c.entry s.cond) = (s.sl t).loose (s.cond.pc t) ∨ s.slList = [] ∧ s.Inside t) :
    ∃ s', s.slCall t c p = some s' ∧ SlInv s' := by
  obtain ⟨hc, hI⟩ := hi.cond.enter hok
  refine ⟨{ s with cond := s.cond.setPc t (c.entry s.cond), sl := Function.update s.sl t p },
    by rw [SlSys.slCall, hc]; rfl, ?_⟩
  refine hi.update (t := t) rfl rfl (Function.update_self ..) (Function.update_self ..) hI
    (Others.update s.cond.pc t _) (fun u hu => Function.update_of_ne hu ..) hplace hi.fifo
    (.inl ⟨rfl, hcarry⟩) (.inl ⟨rfl, hput⟩) (.inl rfl) (fun h => absurd h hpop) hwait ?_
  rcases hloose with hl | ⟨hnil, hin⟩
  · exact .inl ⟨hl, fun n h => h⟩
  · refine .inr ⟨hin, fun n _ _ _ => ⟨0, by decide, fun h => (by cases h), fun _ => ?_⟩⟩
    have := hi.cond.returned_le
    simp only [hnil, List.length_nil, CondSys.setPc]
    omega

/-- **A statement of a thread that has the lock**: the list is not empty at `list_pop_front`. -/
theorem SlInv.statement (hi : SlInv s) (ht : s.cond.pc t = .lock .held) :
    ∃ s', s.statement t = some s' ∧ SlInv s' := by
  have hplace := hi.place t
  have hin : s.Inside t := inside_of_held (by rw [ht]; rfl)
  rw [ht] at hplace
  cases hp : s.sl t with
  | appendLock item =>
    have hcoming : s.coming = some item := (hi.coming item).mpr ⟨t, by rw [hp, ht]; rfl⟩
    rw [SlSys.statement, hp]
    refine ⟨_, rfl, hi.update (q := .appendSignal) hp ht (Function.update_self ..) ht hi.cond
      (fun u _ => .inl rfl) (fun u hu => Function.update_of_ne hu ..) rfl ?_ (.inl ⟨rfl, rfl⟩)
      (.inr ⟨hin, rfl⟩) (.inr hin) (fun h => by cases h) (fun h => by cases h)
      (.inr ⟨hin, fun n hn hl hcr => ⟨1, by decide, fun _ => rfl, fun hw => ?_⟩⟩)⟩
    · rw [hi.fifo, hcoming]
      simp
    · have hzero : n ≠ 1 := fun h1 => by cases hl h1
      have := hcr hw
      simp only [List.length_append, List.length_singleton]
      omega
  | appendSignal =>
    rw [SlSys.statement, hp]
    exact hi.sl_call (show s.cond.pc t = _ from ht) (.inl rfl) (by rw [hp]; rfl) (by rw [hp, ht]; rfl)
      (by simp) (fun h => (by cases h)) (.inl (by rw [hp, ht]; rfl))
  | appendUnlock =>
    rw [SlSys.statement, hp]
    exact hi.sl_call (show s.cond.pc t = _ from ht) (.inl rfl) (by rw [hp]; rfl) (by rw [hp, ht]; rfl)
      (by simp) (fun h => (by cases h)) (.inl (by rw [hp, ht]; rfl))
  | removeLoop =>
    cases hl : s.slList with
    | nil =>
      rw [SlSys.statement, hp]
      simp only [hl]
      exact hi.sl_call (show s.cond.pc t = _ from ht) (.inr (.inr (.inl rfl))) (by rw [hp])
        (by rw [hp, ht]; rfl) (by simp) (fun _ => hl) (.inr ⟨hl, hin⟩)
    | cons item items =>
      have hst : s.statement t = some { s with sl := Function.update s.sl t .removePop } := by
        simp only [SlSys.statement, hp, hl]
      exact ⟨_, hst, hi.update (q := .removePop) hp ht (Function.update_self ..) ht hi.cond
        (fun u _ => .inl rfl) (fun u hu => Function.update_of_ne hu ..) rfl hi.fifo (.inl ⟨rfl, rfl⟩)
        (.inl ⟨rfl, rfl⟩) (.inl rfl) (fun _ => by simp [hl]) (fun h => by cases h)
        (.inl ⟨rfl, fun _ h => h⟩)⟩
  | removePop =>
    rw [SlSys.statement, hp]
    cases hl : s.slList with
    | nil => exact absurd hl (hi.pop t hp)
    | cons item items =>
      have hgoing : s.going = none := by
        cases hg : s.going with
        | none => rfl
        | some x =>
          obtain ⟨u, hu⟩ := (hi.going x).mp hg
          cases hi.alone hin (SlPc.carry_inside (hi.place u) hu)
          rw [hp] at hu
          cases hu
      refine ⟨_, rfl, hi.update (q := .removeUnlock item) hp ht (Function.update_self ..) ht hi.cond
        (fun u _ => .inl rfl) (fun u hu => Function.update_of_ne hu ..) rfl ?_ (.inr ⟨hin, rfl⟩)
        (.inl ⟨rfl, rfl⟩) (.inr hin) (fun h => by cases h) (fun h => by cases h)
        (.inr ⟨hin, fun n hn _ hcr => ⟨0, by decide, fun h => (by cases h), fun hw => ?_⟩⟩)⟩
      · rw [hi.fifo, hgoing, hl]
        simp
      · have := hcr hw
        rw [hl, List.length_cons] at this
        show items.length + s.cond.returned.length ≤
          s.cond.released.length + s.cond.picked.toList.length + 0
        omega
  | removeUnlock item =>
    rw [SlSys.statement, hp]
    exact hi.sl_call (show s.cond.pc t = _ from ht) (.inl rfl) (by rw [hp]; rfl) (by rw [hp, ht]; rfl)
      (by simp) (fun h => (by cases h)) (.inl (by rw [hp, ht]; rfl))
  | out =>
    rw [hp] at hplace
    cases hplace
  | appendDone | removeDone item =>
    rw [hp] at hplace
    rcases hplace with h | h <;> cases h

/-! ## Statements of the calls -/

/-- A move that leaves the list, its items and the ledger of signals alone. -/
theorem SlInv.quiet (hi : SlInv s) {p : SlPc α} {c c' : CondPc} {cond : CondSys} (hp : s.sl t = p)
    (ht : s.cond.pc t = c) (ht' : cond.pc t = c') (hc : CondInv cond)
    (hoth : Others s.cond.pc cond.pc t) (hplace : p.Place c') (hput : p.put c' = p.put c)
    (hwait : c' ≠ .wait)
    (hcredit : p.loose c' = p.loose c ∧
        (∀ n, Credit s.cond s.slList.length n → Credit cond s.slList.length n) ∨
      s.Inside t ∧ ∀ n, n ≤ 1 → (n = 1 → p.loose c = true) → Credit s.cond s.slList.length n →
        ∃ m, m ≤ 1 ∧ (m = 1 → p.loose c' = true) ∧ Credit cond s.slList.length m) :
    SlInv { s with cond } :=
  hi.update hp ht hp ht' hc hoth (fun _ _ => rfl) hplace hi.fifo (.inl ⟨rfl, rfl⟩)
    (.inl ⟨rfl, hput⟩) (.inl rfl) (fun h => hi.pop t (hp.trans h)) (fun h => absurd h hwait) hcredit

theorem SlPc.place_wait {p : SlPc α} {c : CondPc} (hp : p.Place c) (hc : c = .wait ∨ c.waiting = true) :
    p = .removeLoop := by
  cases p with
  | removeLoop => rfl
  | out | appendSignal | removePop | removeUnlock item =>
    rw [show c = _ from hp] at hc
    rcases hc with hc | hc <;> cases hc
  | appendLock item =>
    rcases hp with (rfl | rfl | rfl | rfl) | rfl <;> rcases hc with hc | hc <;> cases hc
  | appendUnlock => rcases hp with rfl | ⟨w, rfl⟩ | rfl <;> rcases hc with hc | hc <;> cases hc
  | appendDone | removeDone item => rcases hp with rfl | rfl <;> rcases hc with hc | hc <;> cases hc

theorem SlPc.place_signal {p : SlPc α} {c : CondPc} (hp : p.Place c)
    (hc : (∃ x, c = .signal x) ∨ ∃ x w, c = .signalUp x w) :
    p = .appendUnlock ∧ (c = .signal .thread ∨ ∃ w, c = .signalUp .thread w) := by
  cases p with
  | appendUnlock =>
    refine ⟨rfl, ?_⟩
    rcases hp with h | h | rfl
    · exact .inl h
    · exact .inr h
    · rcases hc with ⟨x, hc⟩ | ⟨x, w, hc⟩ <;> cases hc
  | out | appendSignal | removePop | removeUnlock item =>
    rw [show c = _ from hp] at hc
    rcases hc with ⟨x, hc⟩ | ⟨x, w, hc⟩ <;> cases hc
  | appendLock item =>
    rcases hp with (rfl | rfl | rfl | rfl) | rfl <;> rcases hc with ⟨x, hc⟩ | ⟨x, w, hc⟩ <;> cases hc
  | removeLoop =>
    rcases hc with ⟨x, rfl⟩ | ⟨x, w, rfl⟩ <;>
      rcases hp with (h | h | h | h) | h | h | h <;> cases h
  | appendDone | removeDone item =>
    rcases hp with rfl | rfl <;> rcases hc with ⟨x, hc⟩ | ⟨x, w, hc⟩ <;> cases hc

theorem put_entering {p : SlPc α} {c : CondPc} (hc : c.entering) : p.put c = none := by
  rcases hc with rfl | rfl | rfl | rfl <;> cases p <;> rfl

theorem loop_entering {c : CondPc} (hc : c.entering) : (.removeLoop : SlPc α).loose c = false := by
  rcases hc with rfl | rfl | rfl | rfl <;> rfl

theorem SlPc.not_place_broadcast {p : SlPc α} {before called : List Tid} :
    ¬ p.Place (.broadcast before called) := by
  cases p with
  | appendUnlock => rintro (h | ⟨w, h⟩ | h) <;> cases h
  | out | appendSignal | removePop | removeUnlock item => exact fun h => by cases h
  | appendLock item => rintro ((h | h | h | h) | h) <;> cases h
  | removeLoop => rintro ((h | h | h | h) | h | h | h) <;> cases h
  | appendDone | removeDone item => rintro (h | h) <;> cases h

/-- A thread on its way to the lock. -/
theorem entering_to {p p' : LockPc} (hp : (CondPc.lock p).entering) (hto : p.To p') :
    p = .taken ∧ p' = .held ∨ (CondPc.lock p').entering := by
  rcases hp with hp | hp | hp | hp <;> cases hp
  · rcases hto with rfl | rfl <;> simp [CondPc.entering]
  · cases hto
  · rcases hto with rfl | rfl <;> simp [CondPc.entering]
  · exact .inl ⟨rfl, hto⟩

/-- **A statement of `lock_acquire` or `lock_release`** of the functions of the list. -/
theorem SlInv.next_lock (hi : SlInv s) {p p' : LockPc} {cond : CondSys} (ht : s.cond.pc t = .lock p)
    (hto : p.To p') (ht' : cond.pc t = .lock p') (hc : CondInv cond)
    (hoth : Others s.cond.pc cond.pc t) (hcr : ∀ n, Credit s.cond s.slList.length n →
      Credit cond s.slList.length n) : SlInv (s.after t cond) := by
  have hplace := hi.place t
  rw [ht] at hplace
  cases hp : s.sl t with
  | out =>
    rw [hp] at hplace
    cases hplace
    exact absurd hto id
  | appendSignal | removePop | removeUnlock item =>
    rw [hp] at hplace
    cases hplace
    exact absurd hto id
  | appendUnlock =>
    rw [hp] at hplace
    rcases hplace with h | ⟨w, h⟩ | h <;> cases h
    exact absurd hto id
  | appendLock item =>
    rw [hp] at hplace
    rcases hplace with hent | h
    · rcases entering_to hent hto with ⟨rfl, rfl⟩ | hent'
      · have hin : s.Inside t := by rw [SlSys.Inside, ht]; rfl
        have hcoming : s.coming = none := by
          cases hg : s.coming with
          | none => rfl
          | some x =>
            obtain ⟨u, hu⟩ := (hi.coming x).mp hg
            cases hi.alone hin (inside_of_held (SlPc.put_held hu))
            rw [hp, ht] at hu
            cases hu
        have hafter : s.after t cond =
            { s with cond, appended := s.appended ++ [item], coming := some item } := by
          simp only [SlSys.after, hp, ht']
        rw [hafter]
        refine hi.update hp ht hp ht' hc hoth (fun _ _ => rfl) (.inr rfl) ?_ (.inl ⟨rfl, rfl⟩)
          (.inr ⟨hin, rfl⟩) (.inl rfl) (fun h => by cases h) (fun h => by cases h) (.inl ⟨rfl, hcr⟩)
        show s.appended ++ [item] = _
        rw [hi.fifo, hcoming]
        simp
      · have hafter : s.after t cond = { s with cond } := by
          rcases hent' with h | h | h | h <;> cases h <;> simp only [SlSys.after, hp, ht']
        rw [hafter]
        refine hi.quiet hp ht ht' hc hoth (.inl hent') ?_ (by simp) (.inl ⟨rfl, hcr⟩)
        rw [put_entering hent, put_entering hent']
    · cases h
      exact absurd hto id
  | appendDone =>
    rw [hp] at hplace
    rcases hplace with h | h <;> cases h <;> cases hto
    · have hafter : s.after t cond = { s with cond } := by simp only [SlSys.after, hp, ht']
      rw [hafter]
      exact hi.quiet hp ht ht' hc hoth (.inr rfl) rfl (by simp) (.inl ⟨rfl, hcr⟩)
    · have hafter : s.after t cond = { s with cond, sl := Function.update s.sl t .out } := by
        simp only [SlSys.after, hp, ht']
      rw [hafter]
      exact hi.update (q := .out) hp ht (Function.update_self ..) ht' hc hoth
        (fun u hu => Function.update_of_ne hu ..) rfl hi.fifo (.inl ⟨rfl, rfl⟩) (.inl ⟨rfl, rfl⟩)
        (.inl rfl) (fun h => by cases h) (fun h => by cases h) (.inl ⟨rfl, hcr⟩)
  | removeDone item =>
    rw [hp] at hplace
    rcases hplace with h | h <;> cases h <;> cases hto
    · have hafter : s.after t cond = { s with cond } := by simp only [SlSys.after, hp, ht']
      rw [hafter]
      exact hi.quiet hp ht ht' hc hoth (.inr rfl) rfl (by simp) (.inl ⟨rfl, hcr⟩)
    · have hin : s.Inside t := by rw [SlSys.Inside, ht]; rfl
      have hgoing : s.going = some item := (hi.going item).mpr ⟨t, by rw [hp]; rfl⟩
      have hafter : s.after t cond = { s with
          cond, removed := s.removed ++ [item], going := none, sl := Function.update s.sl t .out } := by
        simp only [SlSys.after, hp, ht']
      rw [hafter]
      refine hi.update (q := .out) hp ht (Function.update_self ..) ht' hc hoth
        (fun u hu => Function.update_of_ne hu ..) rfl ?_ (.inr ⟨hin, rfl⟩) (.inl ⟨rfl, rfl⟩)
        (.inl rfl) (fun h => by cases h) (fun h => by cases h) (.inl ⟨rfl, hcr⟩)
      rw [hi.fifo, hgoing]
      simp
  | removeLoop =>
    have hafter : s.after t cond = { s with cond } := by simp only [SlSys.after, hp]
    rw [hafter]
    rw [hp] at hplace
    have hent : (CondPc.lock p).entering := by
      rcases hplace with h | h | h | h
      · exact h
      · cases h
        exact absurd hto id
      · cases h
      · cases h
    rcases entering_to hent hto with ⟨rfl, rfl⟩ | hent'
    · have hin : s.Inside t := by rw [SlSys.Inside, ht]; rfl
      exact hi.quiet hp ht ht' hc hoth (.inr (.inl rfl)) rfl (by simp)
        (.inr ⟨hin, fun n hn _ h => ⟨n, hn, fun _ => rfl, hcr n h⟩⟩)
    · refine hi.quiet hp ht ht' hc hoth (.inl hent') ?_ (by simp) (.inl ⟨?_, hcr⟩)
      · rw [put_entering hent, put_entering hent']
      · rw [loop_entering hent, loop_entering hent']

theorem loop_waiting {c : CondPc} (hc : c.waiting = true) :
    (.removeLoop : SlPc α).put c = none ∧ (.removeLoop : SlPc α).loose c = false ∧ c ≠ .wait := by
  cases c with
  | waitRelease p | waitDown | waitAsleep | waitWoken | waitAcquire p => exact ⟨rfl, rfl, by simp⟩
  | lock p | wait | signal c | signalUp c w | broadcast before called => cases hc

/-- A thread moves on within `cond_wait`. -/
theorem SlInv.quiet_wait (hi : SlInv s) {cond : CondSys} (hp : s.sl t = .removeLoop)
    (ht : (s.cond.pc t).waiting = true) (ht' : (cond.pc t).waiting = true) (hc : CondInv cond)
    (hoth : Others s.cond.pc cond.pc t) (hcr : ∀ n, Credit s.cond s.slList.length n →
      Credit cond s.slList.length n) : SlInv { s with cond } := by
  obtain ⟨hput, hloose, -⟩ := @loop_waiting α _ ht
  obtain ⟨hput', hloose', hwait⟩ := @loop_waiting α _ ht'
  exact hi.quiet hp rfl rfl hc hoth (.inr (.inr (.inr ht'))) (by rw [hput, hput']) hwait
    (.inl ⟨by rw [hloose, hloose'], hcr⟩)

theorem SlSys.after_loop (hp : s.sl t = .removeLoop) (cond : CondSys) :
    s.after t cond = { s with cond } := by
  simp only [SlSys.after, hp]

theorem SlSys.after_unlock (hp : s.sl t = .appendUnlock) (cond : CondSys) :
    s.after t cond = { s with cond } := by
  simp only [SlSys.after, hp]

theorem toList_le (o : Option Tid) : o.toList.length ≤ 1 := by
  cases o <;> simp

/-- **A statement of a call** on the lock or the condition. -/
theorem SlInv.next (hi : SlInv s) {cond : CondSys} (h : s.cond.next t = some cond) :
    SlInv (s.after t cond) := by
  obtain ⟨hc, hoth, heff⟩ := hi.cond.next_effect h
  have hplace := hi.place t
  have hle := hi.cond.returned_le
  cases heff with
  | lock hpc hto hpc' => exact hi.next_lock hpc hto hpc' hc hoth fun _ h => h
  | wait hpc hpc' =>
    rw [hpc] at hplace
    have hp := SlPc.place_wait hplace (.inl rfl)
    rw [SlSys.after_loop hp]
    refine hi.quiet hp hpc hpc' hc hoth (.inr (.inr (.inr rfl))) rfl (by simp) (.inl ⟨rfl, fun n _ _ => ?_⟩)
    simp only [hi.wait t hpc, List.length_nil]
    omega
  | @release p p' l pc' hpc hpc' =>
    have hp := SlPc.place_wait hplace (.inr (by rw [hpc]; rfl))
    rw [SlSys.after_loop hp]
    refine hi.quiet_wait hp (by rw [hpc]; rfl) ?_ hc hoth fun _ h => h
    show (pc' t).waiting = true
    rw [hpc']
    cases p' <;> rfl
  | @down x pc' hpc hpc' =>
    have hw : (s.cond.pc t).waiting = true := by rcases hpc with hpc | hpc <;> rw [hpc] <;> rfl
    have hp := SlPc.place_wait hplace (.inr hw)
    rw [SlSys.after_loop hp]
    refine hi.quiet_wait hp hw ?_ hc hoth fun _ h => h
    show (pc' t).waiting = true
    rcases hpc' with ⟨-, hpc'⟩ | ⟨-, hpc'⟩ <;> rw [hpc'] <;> rfl
  | @acquire p p' l pc' hpc hpc' =>
    have hp := SlPc.place_wait hplace (.inr (by rw [hpc]; rfl))
    rw [SlSys.after_loop hp]
    refine hi.quiet_wait hp (by rw [hpc]; rfl) ?_ hc hoth fun _ h => h
    show (pc' t).waiting = true
    rw [hpc']
    rfl
  | back hpc hpc' =>
    rw [hpc] at hplace
    have hp := SlPc.place_wait hplace (.inr rfl)
    have hin : s.Inside t := by rw [SlSys.Inside, hpc]; rfl
    rw [SlSys.after_loop hp]
    refine hi.quiet hp hpc hpc' hc hoth (.inr (.inl rfl)) rfl (by simp)
      (.inr ⟨hin, fun n hn hl hcr => ⟨1, by decide, fun _ => rfl, fun hw => ?_⟩⟩)
    have hzero : n ≠ 1 := fun h1 => by cases hl h1
    have := hcr hw
    simp only [List.length_append, List.length_singleton]
    omega
  | miss hpc hw hpc' =>
    have hin : s.Inside t := by rw [SlSys.Inside, hpc]; rfl
    rw [hpc] at hplace
    obtain ⟨hp, hsig | ⟨w, hsig⟩⟩ := SlPc.place_signal hplace (.inl ⟨_, rfl⟩)
    · cases hsig
      rw [SlSys.after_unlock hp]
      exact hi.quiet hp hpc hpc' hc hoth (.inr (.inr rfl)) rfl (by simp [Signaller.after])
        (.inr ⟨hin, fun n _ _ _ => ⟨0, by decide, fun h => (by cases h), fun h => absurd hw h⟩⟩)
    · cases hsig
  | pop hpc hw hpc' =>
    have hin : s.Inside t := by rw [SlSys.Inside, hpc]; rfl
    have hno := hi.cond.not_picked (t := t) (by rw [hpc]; rfl) (by rw [hpc]; rfl)
    rw [hpc] at hplace
    obtain ⟨hp, hsig | ⟨w, hsig⟩⟩ := SlPc.place_signal hplace (.inl ⟨_, rfl⟩)
    · cases hsig
      rw [SlSys.after_unlock hp]
      refine hi.quiet hp hpc hpc' hc hoth (.inr (.inl ⟨_, rfl⟩)) rfl (by simp)
        (.inr ⟨hin, fun n hn _ hcr => ⟨0, by decide, fun h => (by cases h), fun _ => ?_⟩⟩)
      have := hcr (by simp [hw])
      simp only [hno, Option.toList, List.length_nil, List.length_singleton] at this ⊢
      omega
    · cases hsig
  | up hpc hpc' =>
    rw [hpc] at hplace
    obtain ⟨hp, hsig | ⟨w, hsig⟩⟩ := SlPc.place_signal hplace (.inr ⟨_, _, rfl⟩)
    · cases hsig
    · cases hsig
      rw [SlSys.after_unlock hp]
      refine hi.quiet hp hpc hpc' hc hoth (.inr (.inr rfl)) rfl (by simp [Signaller.after])
        (.inl ⟨rfl, fun n hcr hw => ?_⟩)
      have h1 := hcr hw
      have h2 := toList_le s.cond.picked
      simp only [List.length_append, List.length_singleton, Option.toList, List.length_nil]
      omega
  | castEnd hpc _ _ | castNext hpc _ _ =>
    rw [hpc] at hplace
    exact absurd hplace SlPc.not_place_broadcast

/-- A thread calls `sl_append` or `sl_remove`. -/
theorem SlInv.begin (hi : SlInv s) (hp : s.sl t = .out) {p : SlPc α} (hplace : p.Place (.lock .acquire))
    (hcarry : p.carry = none) (hput : p.put (.lock .acquire) = none) (hpop : p ≠ .removePop)
    (hloose : p.loose (.lock .acquire) = false) :
    ∃ s', s.slCall t (.lock .acquire) p = some s' ∧ SlInv s' := by
  have ht := hi.place t
  rw [hp] at ht
  exact hi.sl_call (c := .lock .acquire) (show s.cond.pc t = _ from ht) hplace (by rw [hp, hcarry]; rfl)
    (by rw [hp]; exact hput) hpop (fun h => by cases h) (.inl (by rw [hp]; exact hloose))

/-- **One step.** -/
theorem SlInv.step (hi : SlInv s) {a : SlOp α} (h : slStep s a = some s') : SlInv s' := by
  cases a with
  | append t item =>
    simp only [slStep] at h
    split at h
    · next hp =>
      obtain ⟨s1, h1, hI⟩ := hi.begin hp (p := .appendLock item) (.inl (.inl rfl)) rfl rfl (by simp) rfl
      cases h1.symm.trans h
      exact hI
    · cases h
  | remove t =>
    simp only [slStep] at h
    split at h
    · next hp =>
      obtain ⟨s1, h1, hI⟩ := hi.begin hp (p := .removeLoop) (.inl (.inl rfl)) rfl rfl (by simp) rfl
      cases h1.symm.trans h
      exact hI
    · cases h
  | run t =>
    simp only [slStep] at h
    split at h
    · next ht =>
      obtain ⟨s1, h1, hI⟩ := hi.statement ht
      cases h1.symm.trans h
      exact hI
    · next ht =>
      obtain ⟨cond, hn, rfl⟩ := Option.map_eq_some_iff.mp h
      exact hi.next hn

theorem SlInv.reach (h : Reach slStep Free slInit s) : SlInv s :=
  h.invariant .start fun _ _ _ hi _ hs => hi.step hs

/-! ## The list as a queue -/

/-- A consumer has been signalled and has not run since. -/
def SlSys.Signalled (s : SlSys α) (t : Tid) : Prop :=
  (s.cond.pc t = .waitDown ∨ s.cond.pc t = .waitWoken) ∧ t ∉ s.cond.pending

/-- A thread waits for the lock: it is in `lock_acquire`, or goes there from `sema_down`. -/
def SlSys.WaitsLock (s : SlSys α) (t : Tid) : Prop :=
  s.cond.pc t = .waitAcquire .out ∨ (s.cond.pc t).lockPc = .acquire ∨ (s.cond.pc t).lockPc = .asleep ∨
    (s.cond.pc t).lockPc = .woken

/-- **No consumer is stuck**: while items are in the list and threads wait, somebody is on the
way to them. -/
theorem SlInv.not_stuck (hi : SlInv s) (hlist : s.slList ≠ []) (hwait : s.cond.waiters ≠ []) :
    ∃ t, s.Signalled t ∨ s.Inside t ∨ s.WaitsLock t := by
  by_contra hno
  push Not at hno
  have hout : ∀ t, ¬ s.Inside t := fun t => (hno t).2.1
  have hpicked : s.cond.picked = none := by
    cases hp : s.cond.picked with
    | none => rfl
    | some w =>
      obtain ⟨t, ht⟩ := (hi.cond.picked w).mp hp
      exact absurd (inside_of_held (CondPc.held_of_up ht)) (hout t)
  obtain ⟨n, hn, hloose, hcr⟩ := hi.credit
  have hzero : n ≠ 1 := fun h1 => by
    obtain ⟨t, ht⟩ := hloose h1
    exact hout t (inside_of_held (SlPc.loose_held (hi.place t) ht))
  have hpos := List.length_pos_of_ne_nil hlist
  have hlt : s.cond.returned.length < s.cond.released.length := by
    have := hcr hwait
    simp only [hpicked, Option.toList, List.length_nil] at this
    omega
  -- some thread has been sent more signals than it has returned
  obtain ⟨t, ht⟩ : ∃ t, s.cond.returned.count t < s.cond.released.count t := by
    by_contra hall
    push Not at hall
    have := (List.subperm_ext_iff.mpr fun t _ => hall t).length_le
    omega
  rw [hi.cond.released_count t] at ht
  split at ht
  · next hw =>
    obtain ⟨hsig, -, hlock⟩ := hno t
    have hplace := hi.cond.place t
    have hsema := hi.cond.sema t
    cases hpc : s.cond.pc t with
    | waitRelease p =>
      rw [hpc] at hplace
      apply hout t
      rw [SlSys.Inside, hpc]
      rcases hplace with rfl | rfl | rfl <;> rfl
    | waitDown | waitWoken => exact hsig ⟨by simp [hpc], hw.2⟩
    | waitAsleep =>
      rw [hpc] at hsema
      exact hw.2 hsema.1
    | waitAcquire p =>
      rw [hpc] at hplace
      rcases hplace with rfl | rfl | rfl | rfl | rfl
      · exact hlock (.inl hpc)
      · exact hlock (.inr (.inl (by rw [hpc]; rfl)))
      · exact hlock (.inr (.inr (.inl (by rw [hpc]; rfl))))
      · exact hlock (.inr (.inr (.inr (by rw [hpc]; rfl))))
      · exact hout t (by rw [SlSys.Inside, hpc]; rfl)
    | lock p | wait | signal c | signalUp c w | broadcast before called =>
      rw [hpc] at hw
      cases hw.1
  · omega

/-- **A synchronized list is a queue.** In every interleaving the list is not empty at
`list_pop_front`; the items come out in the order in which their `sl_append` got the lock, each
one once; no consumer is left waiting for an item that nobody is on the way to; and no ASSERT
fails. -/
theorem synch_list_fifo (h : Reach slStep Free (slInit : SlSys α) s) :
    (∀ t, s.sl t = .removePop → s.slList ≠ []) ∧
    s.removed <+: s.appended ∧
    s.appended = s.removed ++ s.going.toList ++ s.slList ++ s.coming.toList ∧
    ¬ (s.slList ≠ [] ∧ s.cond.waiters ≠ [] ∧
      ∀ t, ¬ s.Signalled t ∧ ¬ s.Inside t ∧ ¬ s.WaitsLock t) ∧
    ∀ t, s.cond.pc t = .lock .held ∨ (s.cond.pc t).busy = true → (slStep s (.run t)).isSome = true := by
  have hi := SlInv.reach h
  refine ⟨hi.pop, ?_, hi.fifo, fun ⟨hlist, hwait, hno⟩ => ?_, fun t ht => ?_⟩
  · rw [hi.fifo, List.append_assoc, List.append_assoc]
    exact List.prefix_append ..
  · obtain ⟨t, ht | ht | ht⟩ := hi.not_stuck hlist hwait
    · exact (hno t).1 ht
    · exact (hno t).2.1 ht
    · exact (hno t).2.2 ht
  · by_cases hheld : s.cond.pc t = .lock .held
    · obtain ⟨s1, h1, -⟩ := hi.statement hheld
      simp only [slStep, if_pos hheld, h1, Option.isSome_some]
    · obtain ⟨cond, hn, -⟩ := hi.cond.next (ht.resolve_left hheld)
      simp only [slStep, if_neg hheld, condStep, hn, Option.map_some, Option.isSome_some]

end

/-- Thread 1 waits, thread 2 appends, and thread 3 takes the item before thread 1 has the lock
again. -/
theorem item_stolen :
    ∃ s : SlSys Nat, runFrom slStep slInit
        (.remove 1 :: List.replicate 7 (.run 1) ++ .append 2 7 :: List.replicate 9 (.run 2) ++
          .remove 3 :: List.replicate 7 (.run 3)) = some s ∧
      s.removed = [7] ∧ s.removed <+: s.appended := by
  generalize hrun : runFrom slStep slInit _ = r
  obtain ⟨s, rfl, hs⟩ : ∃ s, r = some s ∧ s.removed = [7] := by
    subst hrun
    exact ⟨_, rfl, rfl⟩
  exact ⟨s, rfl, hs, (synch_list_fifo (reach_of_run _ hrun)).2.1⟩

end Pintos.Threads
