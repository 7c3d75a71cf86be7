import Pintos.Threads.Lock
import Mathlib.Data.List.Count

/-!
# Condition variables (threads/synch.c)

A thread waits on a semaphore of its own, on the stack of `cond_wait`, which it links into
the waiters of the condition before it gives the lock back. `cond_signal` takes the first
element out and then ups its semaphore, in two steps; in between, and at every statement
of the calls on the lock, other threads run. The list of waiters is only touched by the
thread that has the lock, so that each operation on it is one step.
-/

namespace Pintos.Threads

open Pintos.Base

/-- Who calls `cond_signal`: a thread, or `cond_broadcast`, which was called when the threads
`before` had been released and the threads `called` were waiting. -/
inductive Signaller where
  | thread
  | broadcast (before called : List Tid)
  deriving DecidableEq, Repr

/-- Where a thread stands. -/
inductive CondPc where
  /-- In no call on the condition. -/
  | lock (p : LockPc)
  /-- `cond_wait` past its ASSERTs. -/
  | wait
  /-- In the `lock_release` of `cond_wait`. -/
  | waitRelease (p : LockPc)
  /-- Before the `sema_down` of `cond_wait`. -/
  | waitDown
  /-- Among the waiters of its own semaphore. -/
  | waitAsleep
  /-- Unblocked, before the next test of its own semaphore. -/
  | waitWoken
  /-- In the `lock_acquire` of `cond_wait`. -/
  | waitAcquire (p : LockPc)
  /-- `cond_signal` past its ASSERTs. -/
  | signal (c : Signaller)
  /-- The element of thread `w` is out of the list and its `sema_up` is next. -/
  | signalUp (c : Signaller) (w : Tid)
  /-- At the head of the loop of `cond_broadcast`. -/
  | broadcast (before called : List Tid)
  deriving DecidableEq, Repr

/-- Where `cond_signal` returns to. -/
def Signaller.after : Signaller → CondPc
  | .thread => .lock .held
  | .broadcast before called => .broadcast before called

/-- What follows a statement of the `lock_release` in `cond_wait`. -/
def afterRelease : LockPc → CondPc
  | .out => .waitDown
  | p => .waitRelease p

/-- `thread_unblock`, with its ASSERT that the thread is blocked. -/
def CondPc.unblock : CondPc → Option CondPc
  | .lock .asleep => some (.lock .woken)
  | .waitAsleep => some .waitWoken
  | .waitAcquire .asleep => some (.waitAcquire .woken)
  | _ => none

inductive CondCall where
  | lock (c : LockCall)
  | wait
  | signal
  | broadcast
  deriving DecidableEq, Repr

/-- A condition, its lock and its threads. `picked` is the thread whose element a
`cond_signal` has taken out without having upped its semaphore; `begun`, `released` and
`returned` are the threads in the order in which they have linked their elements, were
upped, and have come back from `cond_wait`. -/
structure CondSys where
  lock : Lock
  waiters : List Tid
  /-- The semaphore of the `cond_wait` that a thread is in. -/
  sema : Tid → Semaphore
  pc : Tid → CondPc
  picked : Option Tid
  begun : List Tid
  released : List Tid
  returned : List Tid

inductive CondOp where
  | call (t : Tid) (c : CondCall)
  | next (t : Tid)
  deriving DecidableEq, Repr

def condStart : CondSys :=
  ⟨lockInit, [], fun _ => ⟨0, none⟩, fun _ => .lock .out, none, [], [], []⟩

namespace CondSys

def setPc (s : CondSys) (t : Tid) (p : CondPc) : CondSys :=
  { s with pc := Function.update s.pc t p }

def wake (s : CondSys) : Option Tid → Option CondSys
  | none => some s
  | some u => (s.pc u).unblock.map (s.setPc u)

/-- A statement of a call on the lock, after which the thread stands at `k`. -/
def lockMove (s : CondSys) (t : Tid) (p : LockPc) (k : LockPc → CondPc) : Option CondSys :=
  match lockNext s.lock t p with
  | some (l, p', w) => ({ s with lock := l }.setPc t (k p')).wake w
  | none => none

/-- A call, with the ASSERT on the holder; `none` when it fails. -/
def enter (s : CondSys) (t : Tid) : CondCall → Option CondSys
  | .lock c => (lockEnter s.lock t c).map fun p => s.setPc t (.lock p)
  | .wait => if lockHeldByCurrentThread s.lock t then some (s.setPc t .wait) else none
  | .signal => if lockHeldByCurrentThread s.lock t then some (s.setPc t (.signal .thread)) else none
  | .broadcast => some (s.setPc t (.broadcast s.released s.waiters))

/-- The next statement of the call that `t` is in; `none` when it is in no call or asleep, or
an ASSERT fails. -/
def next (s : CondSys) (t : Tid) : Option CondSys :=
  match s.pc t with
  | .lock p => s.lockMove t p .lock
  | .wait => some { s with
      sema := Function.update s.sema t ⟨0, some []⟩
      waiters := s.waiters ++ [t]
      begun := s.begun ++ [t]
      pc := Function.update s.pc t (.waitRelease .held) }
  | .waitRelease .held => (lockEnter s.lock t .release).map fun p => s.setPc t (.waitRelease p)
  | .waitRelease p => s.lockMove t p afterRelease
  | .waitDown | .waitWoken =>
    match semaDown (s.sema t) t with
    | .pass x => some { s with
        sema := Function.update s.sema t x, pc := Function.update s.pc t (.waitAcquire .out) }
    | .block x => some { s with
        sema := Function.update s.sema t x, pc := Function.update s.pc t .waitAsleep }
    | .fault => none
  | .waitAcquire .out => (lockEnter s.lock t .acquire).map fun p => s.setPc t (.waitAcquire p)
  | .waitAcquire .taken => { s with returned := s.returned ++ [t] }.lockMove t .taken .lock
  | .waitAcquire p => s.lockMove t p .waitAcquire
  | .signal c =>
    match s.waiters with
    | [] => some (s.setPc t c.after)
    | w :: ws => some { s with
        waiters := ws, picked := some w, pc := Function.update s.pc t (.signalUp c w) }
  | .signalUp c w =>
    match semaUp (s.sema w) with
    | some (x, u) => { s with
        sema := Function.update s.sema w x, picked := none, released := s.released ++ [w]
        pc := Function.update s.pc t c.after }.wake u
    | none => none
  | .broadcast before called =>
    if s.waiters = [] then some (s.setPc t (.lock .held))
    else if lockHeldByCurrentThread s.lock t then
      some (s.setPc t (.signal (.broadcast before called)))
    else none
  | .waitAsleep => none

end CondSys

def condStep (s : CondSys) : CondOp → Option CondSys
  | .call t c => if s.pc t = .lock .out ∨ s.pc t = .lock .held then s.enter t c else none
  | .next t => s.next t

/-- The lock is held as required: it is acquired by a thread that does not have it, and
given back by the one that has it, which alone calls the functions of the condition. -/
def Required (s : CondSys) : CondOp → Prop
  | .call t (.lock .acquire) | .call t (.lock .tryAcquire) => s.pc t = .lock .out
  | .call t _ => s.pc t = .lock .held
  | .next _ => True

instance (s : CondSys) : (a : CondOp) → Decidable (Required s a)
  | .call t (.lock .acquire) | .call t (.lock .tryAcquire) =>
    inferInstanceAs (Decidable (s.pc t = .lock .out))
  | .call t (.lock .release) | .call t .wait | .call t .signal | .call t .broadcast =>
    inferInstanceAs (Decidable (s.pc t = .lock .held))
  | .next _ => isTrue trivial

/-! ## The invariant -/

namespace CondPc

/-- A thread's place as the lock sees it. -/
def lockPc : CondPc → LockPc
  | .lock p | .waitRelease p | .waitAcquire p => p
  | .waitDown | .waitAsleep | .waitWoken => .out
  | .wait | .signal _ | .signalUp _ _ | .broadcast _ _ => .held

/-- The thread has linked its element and has not returned. -/
def waiting : CondPc → Bool
  | .waitRelease _ | .waitDown | .waitAsleep | .waitWoken | .waitAcquire _ => true
  | _ => false

/-- The thread whose semaphore is upped next. -/
def up : CondPc → Option Tid
  | .signalUp _ w => some w
  | _ => none

/-- The `cond_broadcast` that the thread is in. -/
def cast : CondPc → Option (List Tid × List Tid)
  | .signal (.broadcast before called) | .signalUp (.broadcast before called) _
  | .broadcast before called => some (before, called)
  | _ => none

/-- The places on the lock within `cond_wait`. -/
def Ok : CondPc → Prop
  | .waitRelease p => p = .held ∨ p = .release ∨ p = .cleared
  | .waitAcquire p => p = .out ∨ p = .acquire ∨ p = .asleep ∨ p = .woken ∨ p = .taken
  | _ => True

/-- The semaphore of a thread in `cond_wait`; `due` says that its signal is to come. -/
def SemaOk (t : Tid) (x : Semaphore) (due : Prop) : CondPc → Prop
  | .waitRelease _ | .waitDown => x.waiters = some [] ∧ (due ∧ x.value = 0 ∨ ¬ due ∧ x.value = 1)
  | .waitAsleep => due ∧ x = ⟨0, some [t]⟩
  | .waitWoken => ¬ due ∧ x = ⟨1, some []⟩
  | _ => ¬ due

end CondPc

/-- The threads in `cond_wait` whose signal is to come, the first one first. -/
def CondSys.pending (s : CondSys) : List Tid := s.picked.toList ++ s.waiters

/-- **The invariant** of a condition and its threads: signals go out in the order in which
threads began to wait, each thread has one semaphore, upped when its signal has gone out,
and nobody else gets in during a broadcast. -/
structure CondInv (s : CondSys) : Prop where
  lock : LockInv s.lock (CondPc.lockPc ∘ s.pc)
  place : ∀ t, (s.pc t).Ok
  fifo : s.begun = s.released ++ s.pending
  nodup : s.pending.Nodup
  picked : ∀ w, s.picked = some w ↔ ∃ t, (s.pc t).up = some w
  sema : ∀ t, (s.pc t).SemaOk t (s.sema t) (t ∈ s.pending)
  count : ∀ t, s.begun.count t = s.returned.count t + (if (s.pc t).waiting then 1 else 0)
  cast : ∀ t before called, (s.pc t).cast = some (before, called) → s.begun = before ++ called

theorem CondInv.start : CondInv condStart where
  lock := LockInv.start
  place _ := trivial
  fifo := rfl
  nodup := .nil
  picked w := iff_of_false (fun h => by cases h) fun ⟨_, h⟩ => by cases h
  sema t h := by cases h
  count _ := rfl
  cast _ _ _ h := by cases h

/-! ## Statements that move no signal -/

/-- A thread that goes from one place to the other keeps what the invariant says of it. -/
structure Alike (begun : List Tid) (p p' : CondPc) : Prop where
  ok : p.Ok → p'.Ok
  waiting : p'.waiting = p.waiting
  up : p'.up = p.up
  cast : ∀ x, p'.cast = some x → p.cast = some x ∨ begun = x.1 ++ x.2
  sema : ∀ t x due, p.SemaOk t x due → p'.SemaOk t x due

theorem Alike.refl (begun : List Tid) (p : CondPc) : Alike begun p p :=
  ⟨id, rfl, rfl, fun _ => .inl, fun _ _ _ => id⟩

theorem Alike.lock (begun : List Tid) (p p' : LockPc) : Alike begun (.lock p) (.lock p') :=
  ⟨fun _ => trivial, rfl, rfl, fun _ => .inl, fun _ _ _ => id⟩

section

variable {s s' : CondSys} {t u : Tid} {l : Lock} {pc' : Tid → CondPc}

theorem CondInv.places (hi : CondInv s) (hlock : LockInv l (CondPc.lockPc ∘ pc'))
    (h : ∀ u, Alike s.begun (s.pc u) (pc' u)) : CondInv { s with lock := l, pc := pc' } where
  lock := hlock
  place u := (h u).ok (hi.place u)
  fifo := hi.fifo
  nodup := hi.nodup
  picked w := by
    rw [hi.picked]
    exact exists_congr fun u => by rw [(h u).up]
  sema u := (h u).sema _ _ _ (hi.sema u)
  count u := by
    rw [(h u).waiting]
    exact hi.count u
  cast u before called hc := ((h u).cast _ hc).elim (hi.cast u before called) id

/-- A thread moves on without a change to the lock. -/
theorem CondInv.stay (hi : CondInv s) {p q : CondPc} (ht : s.pc t = p) (ha : Alike s.begun p q)
    (hne : p.lockPc ≠ .asleep) (hin : q.lockPc.inside = p.lockPc.inside)
    (hn : q.lockPc.named = p.lockPc.named) : CondInv (s.setPc t q) := by
  subst ht
  refine hi.places (l := s.lock) ?_ fun u => ?_
  · rw [Function.comp_update]
    exact hi.lock.stay hne hin hn
  · by_cases hu : u = t
    · subst hu
      rwa [Function.update_self]
    · rw [Function.update_of_ne hu]
      exact .refl ..

/-- A thread asleep on the lock can be unblocked. -/
theorem CondInv.asleep (hi : CondInv s) (h : (s.pc u).lockPc = .asleep) :
    ∃ p, (s.pc u).unblock = some p ∧ p.lockPc = .woken ∧ Alike s.begun (s.pc u) p := by
  have hok := hi.place u
  cases hu : s.pc u with
  | lock p =>
    rw [hu] at h
    cases h
    exact ⟨_, rfl, rfl, .lock ..⟩
  | waitAcquire p =>
    rw [hu] at h
    cases h
    exact ⟨_, rfl, rfl, fun _ => by simp [CondPc.Ok], rfl, rfl, fun _ => .inl, fun _ _ _ => id⟩
  | waitRelease p =>
    rw [hu] at h hok
    cases h
    simp [CondPc.Ok] at hok
  | wait | waitDown | waitAsleep | waitWoken | signal c | signalUp c w | broadcast before called =>
    rw [hu] at h
    cases h

end

theorem LockInv.next_defined {l : Lock} {pc : Tid → LockPc} {t : Tid} (hi : LockInv l pc)
    (hout : pc t ≠ .out) (hheld : pc t ≠ .held) (hasleep : pc t ≠ .asleep) :
    ∃ l' p' w, lockNext l t (pc t) = some (l', p', w) := by
  obtain ⟨ws, hws, -⟩ := hi.waiters
  cases ht : pc t with
  | acquire | woken =>
    by_cases hv : l.semaphore.value = 0 <;> simp [lockNext, semaDown, hv, hws]
  | tryAcquire =>
    by_cases hv : 0 < l.semaphore.value <;> simp [lockNext, semaTryDown, hv]
  | taken | release => exact ⟨_, _, _, rfl⟩
  | cleared => cases ws <;> simp [lockNext, semaUp, hws]
  | out => exact absurd ht hout
  | held => exact absurd ht hheld
  | asleep => exact absurd ht hasleep

/-- The places a statement of a call on the lock leads to. -/
def LockPc.To : LockPc → LockPc → Prop
  | .acquire, p | .woken, p => p = .taken ∨ p = .asleep
  | .tryAcquire, p => p = .taken ∨ p = .out
  | .taken, p => p = .held
  | .release, p => p = .cleared
  | .cleared, p => p = .out
  | _, _ => False

theorem lockNext_to {l l' : Lock} {t : Tid} {p p' : LockPc} {w : Option Tid}
    (h : lockNext l t p = some (l', p', w)) : p.To p' := by
  rcases lockNext_cases h with ⟨-, hc⟩ | ⟨rfl, rfl, -⟩
  · rcases hc with ⟨rfl | rfl, hc⟩ | ⟨rfl, hc⟩ | ⟨rfl, hc⟩ | ⟨rfl, hc⟩ <;> exact hc
  · rfl

/-- A step of `t` moves other threads only by waking them. -/
def Others (pc pc' : Tid → CondPc) (t : Tid) : Prop :=
  ∀ u, u ≠ t → pc' u = pc u ∨ (pc u).unblock = some (pc' u)

theorem Others.update (pc : Tid → CondPc) (t : Tid) (p : CondPc) :
    Others pc (Function.update pc t p) t := fun _ hu => .inl (Function.update_of_ne hu ..)

section

variable {s : CondSys} {t : Tid}

/-- **A statement of a call on the lock.** -/
theorem CondInv.lock_move (hi : CondInv s) {q : CondPc} {p : LockPc} (ht : s.pc t = q)
    (hp : q.lockPc = p) (hout : p ≠ .out) (hheld : p ≠ .held) (hasleep : p ≠ .asleep)
    {k : LockPc → CondPc} (hk : ∀ p', (k p').lockPc = p')
    (ha : ∀ p', p.To p' → Alike s.begun q (k p')) :
    ∃ l p' pc', s.lockMove t p k = some { s with lock := l, pc := pc' } ∧
      CondInv { s with lock := l, pc := pc' } ∧ p.To p' ∧ pc' t = k p' ∧ Others s.pc pc' t := by
  subst ht hp
  obtain ⟨l, p', w, hn⟩ := hi.lock.next_defined (t := t) hout hheld hasleep
  have hto : (s.pc t).lockPc.To p' := lockNext_to hn
  have hlock := hi.lock.next hn
  have halike : ∀ u, Alike s.begun (s.pc u) (Function.update s.pc t (k p') u) := by
    intro u
    by_cases hu : u = t
    · subst hu
      rw [Function.update_self]
      exact ha p' hto
    · rw [Function.update_of_ne hu]
      exact .refl ..
  have hcomp : CondPc.lockPc ∘ Function.update s.pc t (k p') =
      Function.update (CondPc.lockPc ∘ s.pc) t p' := by
    rw [Function.comp_update, hk]
  have hmove : s.lockMove t (s.pc t).lockPc k = ({ s with lock := l }.setPc t (k p')).wake w := by
    unfold CondSys.lockMove
    rw [show lockNext s.lock t (s.pc t).lockPc = some (l, p', w) from hn]
  cases w with
  | none =>
    refine ⟨l, p', _, hmove, hi.places ?_ halike, hto, Function.update_self .., Others.update s.pc t _⟩
    rwa [hcomp]
  | some u =>
    obtain ⟨-, -, ws, hws, hu⟩ := (lockNext_cases hn).resolve_left fun h => by cases h.1
    obtain ⟨ws', hws', -, hall⟩ := hi.lock.waiters
    rw [hws] at hws'
    cases hws'
    have huasleep : (s.pc u).lockPc = .asleep := hall u (List.mem_of_mem_head? hu.symm)
    have hut : u ≠ t := by
      rintro rfl
      exact hasleep huasleep
    obtain ⟨q, hq, hqwoken, hqa⟩ := hi.asleep huasleep
    have hwake : ({ s with lock := l }.setPc t (k p')).wake (some u) =
        some { s with lock := l, pc := Function.update (Function.update s.pc t (k p')) u q } := by
      show (Function.update s.pc t (k p') u).unblock.map _ = _
      rw [Function.update_of_ne hut, hq]
      rfl
    refine ⟨l, p', _, hmove.trans hwake, hi.places ?_ fun v => ?_, hto, ?_, fun v hv => ?_⟩
    · rw [Function.comp_update, hcomp, hqwoken]
      exact hlock
    · by_cases hv : v = u
      · subst hv
        rwa [Function.update_self]
      · rw [Function.update_of_ne hv]
        exact halike v
    · rw [Function.update_of_ne hut.symm, Function.update_self]
    · by_cases hvu : v = u
      · subst hvu
        rw [Function.update_self]
        exact .inr hq
      · rw [Function.update_of_ne hvu, Function.update_of_ne hv]
        exact .inl rfl

/-! ## Statements of `cond_wait` -/

theorem CondPc.held_of_cast {p : CondPc} {x : List Tid × List Tid} (h : p.cast = some x) :
    p.lockPc = .held := by
  cases p with
  | signal c | signalUp c w | broadcast before called => rfl
  | lock p | wait | waitRelease p | waitDown | waitAsleep | waitWoken | waitAcquire p => cases h

theorem CondPc.held_of_up {p : CondPc} {w : Tid} (h : p.up = some w) : p.lockPc = .held := by
  cases p with
  | signalUp c w => rfl
  | signal c | broadcast before called | lock p | wait | waitRelease p | waitDown | waitAsleep
  | waitWoken | waitAcquire p => cases h

theorem CondPc.unblock_of_held {p : CondPc} (h : p.lockPc = .held) : p.unblock = none := by
  cases p with
  | lock p | waitAcquire p =>
    cases h
    rfl
  | waitAsleep => cases h
  | wait | waitRelease p | waitDown | waitWoken | signal c | signalUp c w | broadcast before called => rfl

/-- The thread inside is alone. -/
theorem CondInv.alone (hi : CondInv s) {u : Tid} (ht : (s.pc t).lockPc = .held)
    (hu : (s.pc u).lockPc = .held) : u = t :=
  hi.lock.region.one (t := u) (u := t) (by show (s.pc u).lockPc.inside; rw [hu]; rfl)
    (by show (s.pc t).lockPc.inside; rw [ht]; rfl)

/-- A thread begins to wait. -/
theorem CondInv.wait (hi : CondInv s) (ht : s.pc t = .wait) :
    CondInv { s with
      sema := Function.update s.sema t ⟨0, some []⟩
      waiters := s.waiters ++ [t]
      begun := s.begun ++ [t]
      pc := Function.update s.pc t (.waitRelease .held) } := by
  have hheld : (s.pc t).lockPc = .held := by rw [ht]; rfl
  have hout : t ∉ s.pending := by
    have := hi.sema t
    rwa [ht] at this
  have hpend : s.picked.toList ++ (s.waiters ++ [t]) = s.pending ++ [t] := by simp [CondSys.pending]
  refine ⟨?_, ?_, ?_, ?_, fun w => ?_, fun u => ?_, fun u => ?_, fun u before called hc => ?_⟩
  · rw [Function.comp_update]
    exact hi.lock.stay (t := t) (p := .held) (by simp [hheld]) (by simp [hheld]) (by simp [hheld])
  · rw [Function.forall_update_iff (p := fun _ p => CondPc.Ok p)]
    exact ⟨.inl rfl, fun u _ => hi.place u⟩
  · show s.begun ++ [t] = s.released ++ (s.picked.toList ++ (s.waiters ++ [t]))
    rw [hpend, hi.fifo, List.append_assoc]
  · show (s.picked.toList ++ (s.waiters ++ [t])).Nodup
    rw [hpend]
    exact List.nodup_middle.mpr (List.nodup_cons.mpr ⟨by simpa using hout, by simpa using hi.nodup⟩)
  · rw [hi.picked]
    refine exists_congr fun u => ?_
    simp only [Function.update_apply]
    grind [CondPc.up]
  · show CondPc.SemaOk u (Function.update s.sema t _ u) (u ∈ s.picked.toList ++ (s.waiters ++ [t])) _
    rw [hpend]
    by_cases hu : u = t
    · subst hu
      simp [CondPc.SemaOk]
    · simpa [Function.update_of_ne hu, hu] using hi.sema u
  · have := hi.count u
    by_cases hu : u = t
    · subst hu
      simp_all [CondPc.waiting]
    · simpa [Function.update_of_ne hu, List.count_singleton, Ne.symm hu] using this
  · by_cases hu : u = t
    · subst hu
      simp [CondPc.cast] at hc
    · simp only [Function.update_of_ne hu] at hc
      exact absurd (hi.alone hheld (CondPc.held_of_cast hc)) hu

/-- A pass of `sema_down` on the semaphore of the thread: it goes on when its signal has gone
out, and sleeps until then. -/
theorem CondInv.down (hi : CondInv s) (ht : s.pc t = .waitDown ∨ s.pc t = .waitWoken) :
    ∃ x p, s.next t = some { s with
        sema := Function.update s.sema t x, pc := Function.update s.pc t p } ∧
      CondInv { s with sema := Function.update s.sema t x, pc := Function.update s.pc t p } ∧
      (t ∉ s.pending ∧ p = .waitAcquire .out ∨ t ∈ s.pending ∧ p = .waitAsleep) := by
  have hkeep : ∀ x p, p.lockPc = .out → p.waiting = true → p.up = none → p.cast = none → p.Ok →
      p.SemaOk t x (t ∈ s.pending) →
      CondInv { s with sema := Function.update s.sema t x, pc := Function.update s.pc t p } := by
    intro x p hp hw hup hcast hok hsema
    have hout : (s.pc t).lockPc = .out := by rcases ht with ht | ht <;> rw [ht] <;> rfl
    refine ⟨?_, ?_, hi.fifo, hi.nodup, fun w => ?_, fun u => ?_, fun u => ?_, fun u before called hc => ?_⟩
    · rw [Function.comp_update, hp]
      exact hi.lock.stay (t := t) (by simp [hout]) (by simp [hout]) (by simp [hout])
    · rw [Function.forall_update_iff (p := fun _ p => CondPc.Ok p)]
      exact ⟨hok, fun u _ => hi.place u⟩
    · rw [hi.picked]
      refine exists_congr fun u => ?_
      simp only [Function.update_apply]
      grind [CondPc.up]
    · show CondPc.SemaOk u (Function.update s.sema t x u) (u ∈ s.pending) _
      by_cases hu : u = t
      · subst hu
        simpa using hsema
      · simpa [Function.update_of_ne hu] using hi.sema u
    · by_cases hu : u = t
      · subst hu
        have hwait : (s.pc u).waiting = true := by rcases ht with ht | ht <;> rw [ht] <;> rfl
        have := hi.count u
        rw [hwait] at this
        simpa [hw] using this
      · simpa [Function.update_of_ne hu] using hi.count u
    · by_cases hu : u = t
      · subst hu
        simp [hcast] at hc
      · simp only [Function.update_of_ne hu] at hc
        exact hi.cast u before called hc
  have hs := hi.sema t
  by_cases hd : t ∈ s.pending
  · rcases ht with ht | ht
    · rw [ht] at hs
      obtain ⟨hw, ⟨-, hv⟩ | ⟨hn, -⟩⟩ := hs
      · refine ⟨⟨0, some [t]⟩, .waitAsleep, ?_, hkeep _ _ rfl rfl rfl rfl trivial ⟨hd, rfl⟩, .inr ⟨hd, rfl⟩⟩
        simp [CondSys.next, ht, semaDown, hv, hw]
      · exact absurd hd hn
    · rw [ht] at hs
      exact absurd hd hs.1
  · refine ⟨⟨0, some []⟩, .waitAcquire .out, ?_, hkeep _ _ rfl rfl rfl rfl (.inl rfl) hd, .inl ⟨hd, rfl⟩⟩
    rcases ht with ht | ht
    · rw [ht] at hs
      obtain ⟨hw, ⟨hn, -⟩ | ⟨-, hv⟩⟩ := hs
      · exact absurd hn hd
      · simp [CondSys.next, ht, semaDown, hv, hw]
    · rw [ht] at hs
      simp [CondSys.next, ht, semaDown, hs.2]

/-- `lock_acquire` comes to its end and `cond_wait` returns. -/
theorem CondInv.back (hi : CondInv s) (ht : s.pc t = .waitAcquire .taken) :
    s.next t = some { s with
      lock.holder := some t, returned := s.returned ++ [t]
      pc := Function.update s.pc t (.lock .held) } ∧
    CondInv { s with
      lock.holder := some t, returned := s.returned ++ [t]
      pc := Function.update s.pc t (.lock .held) } := by
  refine ⟨by simp [CondSys.next, ht, CondSys.lockMove, lockNext, CondSys.wake, CondSys.setPc],
    ?_, ?_, hi.fifo, hi.nodup, fun w => ?_, fun u => ?_, fun u => ?_, fun u before called hc => ?_⟩
  · rw [Function.comp_update]
    exact hi.lock.setHolder (t := t) (by simp [ht, CondPc.lockPc])
  · rw [Function.forall_update_iff (p := fun _ p => CondPc.Ok p)]
    exact ⟨trivial, fun u _ => hi.place u⟩
  · rw [hi.picked]
    refine exists_congr fun u => ?_
    simp only [Function.update_apply]
    grind [CondPc.up]
  · show CondPc.SemaOk u (s.sema u) (u ∈ s.pending) _
    have := hi.sema u
    by_cases hu : u = t
    · subst hu
      rw [ht] at this
      simpa [CondPc.SemaOk] using this
    · simpa [Function.update_of_ne hu] using this
  · have := hi.count u
    by_cases hu : u = t
    · subst hu
      simp_all [CondPc.waiting]
    · simpa [Function.update_of_ne hu, List.count_singleton, Ne.symm hu] using this
  · by_cases hu : u = t
    · subst hu
      simp [CondPc.cast] at hc
    · simp only [Function.update_of_ne hu] at hc
      exact hi.cast u before called hc

/-! ## Statements of `cond_signal` -/

theorem CondInv.not_picked (hi : CondInv s) (ht : (s.pc t).lockPc = .held) (hup : (s.pc t).up = none) :
    s.picked = none := by
  cases hp : s.picked with
  | none => rfl
  | some w =>
    obtain ⟨u, hu⟩ := (hi.picked w).mp hp
    cases hi.alone ht (CondPc.held_of_up hu)
    cases hup.symm.trans hu

/-- `cond_signal` takes the first element out. -/
theorem CondInv.pop (hi : CondInv s) {c : Signaller} (ht : s.pc t = .signal c) {w : Tid} {ws : List Tid}
    (hw : s.waiters = w :: ws) :
    CondInv { s with
      waiters := ws, picked := some w, pc := Function.update s.pc t (.signalUp c w) } := by
  have hheld : (s.pc t).lockPc = .held := by rw [ht]; rfl
  have hno := hi.not_picked hheld (by rw [ht]; rfl)
  have hpend : (some w).toList ++ ws = s.pending := by simp [CondSys.pending, hno, hw]
  refine ⟨?_, ?_, ?_, ?_, fun v => ?_, fun u => ?_, fun u => ?_, fun u before called hc => ?_⟩
  · rw [Function.comp_update]
    exact hi.lock.stay (t := t) (p := .held) (by simp [hheld]) (by simp [hheld]) (by simp [hheld])
  · rw [Function.forall_update_iff (p := fun _ p => CondPc.Ok p)]
    exact ⟨trivial, fun u _ => hi.place u⟩
  · show s.begun = s.released ++ ((some w).toList ++ ws)
    rw [hpend]
    exact hi.fifo
  · show ((some w).toList ++ ws).Nodup
    rw [hpend]
    exact hi.nodup
  · constructor
    · intro hv
      cases hv
      exact ⟨t, by simp [CondPc.up]⟩
    · rintro ⟨u, hu⟩
      by_cases hut : u = t
      · subst hut
        simpa [CondPc.up] using hu
      · simp only [Function.update_of_ne hut] at hu
        exact absurd (hi.alone hheld (CondPc.held_of_up hu)) hut
  · show CondPc.SemaOk u (s.sema u) (u ∈ (some w).toList ++ ws) _
    rw [hpend]
    have := hi.sema u
    by_cases hu : u = t
    · subst hu
      rw [ht] at this
      simpa [CondPc.SemaOk] using this
    · simpa [Function.update_of_ne hu] using this
  · have := hi.count u
    by_cases hu : u = t
    · subst hu
      simpa [ht, CondPc.waiting] using this
    · simpa [Function.update_of_ne hu] using this
  · by_cases hu : u = t
    · subst hu
      apply hi.cast u before called
      simp only [Function.update_self] at hc
      rw [ht]
      cases c with
      | thread => cases hc
      | broadcast b d => exact hc
    · simp only [Function.update_of_ne hu] at hc
      exact hi.cast u before called hc

/-- Where a thread stands after the `sema_up` on its semaphore. -/
def CondPc.upped : CondPc → CondPc
  | .waitAsleep => .waitWoken
  | p => p

theorem CondPc.upped_eq {p : CondPc} (h : p ≠ .waitAsleep) : p.upped = p := by
  cases p with
  | waitAsleep => exact absurd rfl h
  | _ => rfl

theorem CondPc.upped_cases (p : CondPc) : p.upped = p ∨ p.unblock = some p.upped := by
  cases p with
  | waitAsleep => exact .inr rfl
  | _ => exact .inl rfl

theorem CondPc.upped_lockPc (p : CondPc) : p.upped.lockPc = p.lockPc := by
  cases p <;> rfl

theorem CondPc.upped_of_waiting {p : CondPc} (h : p.waiting = true) :
    p.upped.waiting = true ∧ p.upped.up = none ∧ p.upped.cast = none := by
  cases p with
  | waitRelease p | waitDown | waitAsleep | waitWoken | waitAcquire p => exact ⟨rfl, rfl, rfl⟩
  | lock p | wait | signal c | signalUp c w | broadcast before called => cases h

theorem Signaller.after_spec (c : Signaller) :
    c.after.lockPc = .held ∧ c.after.waiting = false ∧ c.after.up = none ∧ c.after.Ok ∧
      (∀ t x due, c.after.SemaOk t x due ↔ ¬ due) ∧ ∀ w, c.after.cast = (CondPc.signalUp c w).cast := by
  cases c with
  | thread => exact ⟨rfl, rfl, rfl, trivial, fun _ _ _ => .rfl, fun _ => rfl⟩
  | broadcast b d => exact ⟨rfl, rfl, rfl, trivial, fun _ _ _ => .rfl, fun _ => rfl⟩

/-- The thread picked waits with its semaphore at 0. -/
theorem CondInv.picked_sema (hi : CondInv s) {c : Signaller} {w : Tid} (ht : s.pc t = .signalUp c w) :
    w ≠ t ∧ s.picked = some w ∧ (s.pc w).waiting = true ∧
      (s.pc w ≠ .waitAsleep ∧ s.sema w = ⟨0, some []⟩ ∧
          (∀ due, (s.pc w).SemaOk w ⟨1, some []⟩ due ↔ ¬ due) ∨
        s.pc w = .waitAsleep ∧ s.sema w = ⟨0, some [w]⟩) := by
  have hp : s.picked = some w := (hi.picked w).mpr ⟨t, by rw [ht]; rfl⟩
  have hmem : w ∈ s.pending := by simp [CondSys.pending, hp]
  have hs := hi.sema w
  refine ⟨?_, hp, ?_⟩
  · rintro rfl
    rw [ht] at hs
    exact hs hmem
  cases hw : s.pc w with
  | waitRelease p | waitDown =>
    rw [hw] at hs
    obtain ⟨hx, ⟨-, hv⟩ | ⟨hn, -⟩⟩ := hs
    · refine ⟨rfl, .inl ⟨by simp, ?_, fun due => by simp [CondPc.SemaOk]⟩⟩
      cases hsw : s.sema w
      simp_all
    · exact absurd hmem hn
  | waitAsleep =>
    rw [hw] at hs
    exact ⟨rfl, .inr ⟨rfl, hs.2⟩⟩
  | waitWoken =>
    rw [hw] at hs
    exact absurd hmem hs.1
  | waitAcquire p | lock p | wait | signal c | signalUp c w | broadcast before called =>
    rw [hw] at hs
    exact absurd hmem hs

/-- **The signal goes out**: the semaphore of the thread picked is upped, and the thread is
woken if it sleeps. -/
theorem CondInv.sema_up (hi : CondInv s) {c : Signaller} {w : Tid} (ht : s.pc t = .signalUp c w) :
    s.next t = some { s with
      sema := Function.update s.sema w ⟨1, some []⟩, picked := none, released := s.released ++ [w]
      pc := Function.update (Function.update s.pc t c.after) w (s.pc w).upped } ∧
    CondInv { s with
      sema := Function.update s.sema w ⟨1, some []⟩, picked := none, released := s.released ++ [w]
      pc := Function.update (Function.update s.pc t c.after) w (s.pc w).upped } := by
  obtain ⟨hwt, hp, hwait, hsema⟩ := hi.picked_sema ht
  obtain ⟨hafter, hawait, haup, haok, hasema, hacast⟩ := c.after_spec
  obtain ⟨huwait, huup, hucast⟩ := CondPc.upped_of_waiting hwait
  have hheld : (s.pc t).lockPc = .held := by rw [ht]; rfl
  have hfifo : s.begun = s.released ++ w :: s.waiters := by
    have := hi.fifo
    rwa [CondSys.pending, hp] at this
  have hnd : (w :: s.waiters).Nodup := by
    have := hi.nodup
    rwa [CondSys.pending, hp] at this
  have hpc : ∀ u, u ≠ t → u ≠ w →
      Function.update (Function.update s.pc t c.after) w (s.pc w).upped u = s.pc u := fun u hu hw => by
    rw [Function.update_of_ne hw, Function.update_of_ne hu]
  have hpct : Function.update (Function.update s.pc t c.after) w (s.pc w).upped t = c.after := by
    rw [Function.update_of_ne hwt.symm, Function.update_self]
  refine ⟨?_, ?_, fun u => ?_, ?_, (List.nodup_cons.mp hnd).2, fun v => ?_, fun u => ?_, fun u => ?_,
    fun u before called hc => ?_⟩
  · rcases hsema with ⟨hne, hx, -⟩ | ⟨heq, hx⟩
    · have hself : Function.update (Function.update s.pc t c.after) w (s.pc w) =
          Function.update s.pc t c.after := by
        rw [Function.update_comm hwt.symm, Function.update_eq_self]
      simp [CondSys.next, ht, semaUp, hx, CondSys.wake, CondPc.upped_eq hne, hself]
    · simp [CondSys.next, ht, semaUp, hx, CondSys.wake, Function.update_of_ne hwt, heq, CondPc.unblock,
        CondPc.upped, CondSys.setPc]
  · have hcomp : CondPc.lockPc ∘ Function.update (Function.update s.pc t c.after) w (s.pc w).upped =
        Function.update (CondPc.lockPc ∘ s.pc) t .held := by
      rw [Function.comp_update, Function.comp_update, CondPc.upped_lockPc, hafter,
        Function.update_comm hwt.symm]
      exact congrArg (Function.update · t _) (Function.update_eq_self ..)
    show LockInv s.lock (CondPc.lockPc ∘ Function.update (Function.update s.pc t c.after) w _)
    rw [hcomp]
    exact hi.lock.stay (t := t) (p := .held) (by simp [hheld]) (by simp [hheld]) (by simp [hheld])
  · show CondPc.Ok (Function.update (Function.update s.pc t c.after) w (s.pc w).upped u)
    by_cases hu : u = w
    · subst hu
      rw [Function.update_self]
      have := hi.place u
      cases hpu : s.pc u <;> simp_all [CondPc.upped, CondPc.Ok]
    · by_cases hut : u = t
      · subst hut
        rwa [hpct]
      · rw [hpc u hut hu]
        exact hi.place u
  · show s.begun = (s.released ++ [w]) ++ ((none : Option Tid).toList ++ s.waiters)
    rw [hfifo]
    simp
  · refine iff_of_false (fun h => by cases h) fun ⟨u, hu⟩ => ?_
    change (Function.update (Function.update s.pc t c.after) w (s.pc w).upped u).up = _ at hu
    by_cases huw : u = w
    · subst huw
      rw [Function.update_self, huup] at hu
      cases hu
    · by_cases hut : u = t
      · subst hut
        rw [hpct, haup] at hu
        cases hu
      · rw [hpc u hut huw] at hu
        exact hut (hi.alone hheld (CondPc.held_of_up hu))
  · show CondPc.SemaOk u (Function.update s.sema w _ u) (u ∈ (none : Option Tid).toList ++ s.waiters)
      (Function.update (Function.update s.pc t c.after) w (s.pc w).upped u)
    have hs := hi.sema u
    have hin : u ∈ s.pending ↔ u = w ∨ u ∈ s.waiters := by
      rw [CondSys.pending, hp]
      simp
    by_cases huw : u = w
    · subst huw
      have hgone : u ∉ (none : Option Tid).toList ++ s.waiters := (List.nodup_cons.mp hnd).1
      rw [Function.update_self, Function.update_self]
      rcases hsema with ⟨hne, -, hok⟩ | ⟨heq, -⟩
      · rw [CondPc.upped_eq hne]
        exact (hok _).mpr hgone
      · rw [heq]
        exact ⟨hgone, rfl⟩
    · rw [Function.update_of_ne huw]
      by_cases hut : u = t
      · subst hut
        rw [hpct, hasema]
        rw [ht] at hs
        exact fun hmem => hs (hin.mpr (.inr hmem))
      · rw [hpc u hut huw]
        simpa [hin, huw] using hs
  · show s.begun.count u = s.returned.count u +
      if (Function.update (Function.update s.pc t c.after) w (s.pc w).upped u).waiting then 1 else 0
    rw [hi.count u]
    by_cases huw : u = w
    · subst huw
      rw [Function.update_self, huwait, hwait]
    · by_cases hut : u = t
      · subst hut
        rw [hpct, hawait, ht]
        rfl
      · rw [hpc u hut huw]
  · change (Function.update (Function.update s.pc t c.after) w (s.pc w).upped u).cast = _ at hc
    by_cases huw : u = w
    · subst huw
      rw [Function.update_self, hucast] at hc
      cases hc
    · by_cases hut : u = t
      · subst hut
        rw [hpct, hacast w, ← ht] at hc
        exact hi.cast u before called hc
      · rw [hpc u hut huw] at hc
        exact hi.cast u before called hc

/-! ## Calls -/

/-- A thread with the lock goes on to a statement that needs it. -/
theorem CondInv.stay_held (hi : CondInv s) {p q : CondPc} (ht : s.pc t = p) (ha : Alike s.begun p q)
    (hp : p.lockPc = .held) (hp' : q.lockPc = .held) : CondInv (s.setPc t q) :=
  hi.stay ht ha (by rw [hp]; decide) (by rw [hp, hp']) (by rw [hp, hp'])

theorem CondInv.held (hi : CondInv s) (ht : (s.pc t).lockPc = .held) :
    lockHeldByCurrentThread s.lock t = true := by
  rw [lockHeldByCurrentThread, decide_eq_true_iff, hi.lock.holder]
  simp [ht, LockPc.named]

theorem CondInv.not_held (hi : CondInv s) (ht : (s.pc t).lockPc = .out) :
    lockHeldByCurrentThread s.lock t = false := by
  rw [lockHeldByCurrentThread, decide_eq_false_iff_not, hi.lock.holder]
  simp [ht, LockPc.named]

/-- Where a call that passes its ASSERT leads. -/
def CondCall.entry (s : CondSys) : CondCall → CondPc
  | .lock .acquire => .lock .acquire
  | .lock .tryAcquire => .lock .tryAcquire
  | .lock .release => .lock .release
  | .wait => .wait
  | .signal => .signal .thread
  | .broadcast => .broadcast s.released s.waiters

/-- **A call as required** passes its ASSERT and moves no signal. -/
theorem CondInv.enter (hi : CondInv s) {c : CondCall} (hok : Required s (.call t c)) :
    condStep s (.call t c) = some (s.setPc t (c.entry s)) ∧ CondInv (s.setPc t (c.entry s)) := by
  cases c with
  | lock c =>
    cases c with
    | acquire | tryAcquire =>
      have ht : s.pc t = .lock .out := hok
      have hlock := hi.not_held (t := t) (by rw [ht]; rfl)
      refine ⟨?_, hi.stay ht (.lock ..) (by decide) rfl rfl⟩
      simp [condStep, ht, CondSys.enter, lockEnter, hlock, CondCall.entry]
    | release =>
      have ht : s.pc t = .lock .held := hok
      have hlock := hi.held (t := t) (by rw [ht]; rfl)
      refine ⟨?_, hi.stay ht (.lock ..) (by decide) rfl rfl⟩
      simp [condStep, ht, CondSys.enter, lockEnter, hlock, CondCall.entry]
  | wait | signal =>
    have ht : s.pc t = .lock .held := hok
    have hlock := hi.held (t := t) (by rw [ht]; rfl)
    refine ⟨?_, hi.stay_held ht ?_ rfl rfl⟩
    · simp [condStep, ht, CondSys.enter, hlock, CondCall.entry]
    · exact ⟨fun _ => trivial, rfl, rfl, fun _ hc => (by cases hc), fun _ _ _ => id⟩
  | broadcast =>
    have ht : s.pc t = .lock .held := hok
    have hno := hi.not_picked (t := t) (by rw [ht]; rfl) (by rw [ht]; rfl)
    have hbegun : s.begun = s.released ++ s.waiters := by simpa [CondSys.pending, hno] using hi.fifo
    refine ⟨?_, hi.stay_held ht ⟨fun _ => trivial, rfl, rfl, fun x hc => .inr ?_, fun _ _ _ => id⟩ rfl rfl⟩
    · simp [condStep, ht, CondSys.enter, CondCall.entry]
    · cases hc
      exact hbegun

end

end Pintos.Threads
