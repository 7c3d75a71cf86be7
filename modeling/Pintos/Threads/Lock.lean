import Pintos.Base.Reach
import Pintos.Threads.Synch
import Mathlib.Data.List.Nodup
import Mathlib.Logic.Function.Basic

/-!
# Locks (threads/synch.c)

A lock is a semaphore of value 1 and a holder, which is written after the semaphore
is taken and cleared before it is given back, with interrupts on. A thread moves by
one statement: the ASSERT at the head of a call, one pass of `sema_down`, the store
to `holder`, `sema_up`. Between the semaphore and the store the lock is taken and has
no holder.
-/

namespace Pintos.Threads

open Pintos.Base

structure Lock where
  holder : Option Tid
  semaphore : Semaphore
  deriving DecidableEq, Repr

def lockInit : Lock := ⟨none, ⟨1, some []⟩⟩

def lockHeldByCurrentThread (l : Lock) (t : Tid) : Bool := l.holder = some t

inductive LockCall where
  | acquire
  | tryAcquire
  | release
  deriving DecidableEq, Repr

/-- Where a thread stands. -/
inductive LockPc where
  | out
  /-- `lock_acquire` past its ASSERT. -/
  | acquire
  /-- Among the waiters of the semaphore. -/
  | asleep
  /-- Unblocked, before the next test of the value. -/
  | woken
  /-- `lock_try_acquire` past its ASSERT. -/
  | tryAcquire
  /-- The semaphore is taken and `holder` not yet set. -/
  | taken
  /-- The acquire has returned. -/
  | held
  /-- `lock_release` past its ASSERT. -/
  | release
  /-- `holder` is cleared and the semaphore not yet given back. -/
  | cleared
  deriving DecidableEq, Repr

/-- Between the successful acquire and the end of the matching release. -/
def LockPc.inside : LockPc → Bool
  | .taken | .held | .release | .cleared => true
  | _ => false

/-- The ASSERT on the holder at the head of a call; `none` when it fails. -/
def lockEnter (l : Lock) (t : Tid) : LockCall → Option LockPc
  | .acquire => if lockHeldByCurrentThread l t then none else some .acquire
  | .tryAcquire => if lockHeldByCurrentThread l t then none else some .tryAcquire
  | .release => if lockHeldByCurrentThread l t then some .release else none

/-- The next statement of the function `t` is in, and the thread it unblocks. -/
def lockNext (l : Lock) (t : Tid) : LockPc → Option (Lock × LockPc × Option Tid)
  | .acquire | .woken =>
    match semaDown l.semaphore t with
    | .pass x => some ({ l with semaphore := x }, .taken, none)
    | .block x => some ({ l with semaphore := x }, .asleep, none)
    | .fault => none
  | .tryAcquire =>
    match semaTryDown l.semaphore with
    | some x => some ({ l with semaphore := x }, .taken, none)
    | none => some (l, .out, none)
  | .taken => some ({ l with holder := some t }, .held, none)
  | .release => some ({ l with holder := none }, .cleared, none)
  | .cleared =>
    match semaUp l.semaphore with
    | some (x, w) => some ({ l with semaphore := x }, .out, w)
    | none => none
  | .out | .held | .asleep => none

/-- A lock and its threads. `failed` is the call whose ASSERT stopped the kernel. -/
structure LockSys where
  lock : Lock
  pc : Tid → LockPc
  failed : Option (Tid × LockCall)

inductive LockOp where
  | call (t : Tid) (c : LockCall)
  | next (t : Tid)
  deriving DecidableEq, Repr

def lockStart : LockSys := ⟨lockInit, fun _ => .out, none⟩

def wakeLock (pc : Tid → LockPc) : Option Tid → Tid → LockPc
  | none => pc
  | some u => Function.update pc u .woken

def lockStep (s : LockSys) (a : LockOp) : Option LockSys :=
  if s.failed.isSome then none
  else match a with
  | .call t c =>
    if s.pc t = .out ∨ s.pc t = .held then
      match lockEnter s.lock t c with
      | some p => some { s with pc := Function.update s.pc t p }
      | none => some { s with failed := some (t, c) }
    else none
  | .next t =>
    match lockNext s.lock t (s.pc t) with
    | some (l, p, w) => some { s with lock := l, pc := wakeLock (Function.update s.pc t p) w }
    | none => none

/-- The thread is the holder: between the store of the acquire and that of the release. -/
def LockPc.named : LockPc → Bool
  | .held | .release => true
  | _ => false

/-- The semaphore counts the threads inside, of which there is at most one. -/
structure Region (v : Nat) (pc : Tid → LockPc) : Prop where
  one : ∀ {t u}, (pc t).inside → (pc u).inside → t = u
  value : v ≤ 1
  taken : v = 0 ↔ ∃ t, (pc t).inside

/-- **The invariant** of a lock and the places of its threads. -/
structure LockInv (l : Lock) (pc : Tid → LockPc) : Prop where
  region : Region l.semaphore.value pc
  holder : ∀ t, l.holder = some t ↔ (pc t).named
  waiters : ∃ ws, l.semaphore.waiters = some ws ∧ ws.Nodup ∧ ∀ u ∈ ws, pc u = .asleep

theorem LockPc.inside_of_named {p : LockPc} (h : p.named) : p.inside := by
  cases p <;> first | rfl | cases h

section

variable {v : Nat} {pc : Tid → LockPc} {t : Tid} {p : LockPc}

theorem Region.congr {pc' : Tid → LockPc} (h : Region v pc)
    (he : ∀ u, (pc' u).inside = (pc u).inside) : Region v pc' where
  one ht hu := h.one (by rwa [← he]) (by rwa [← he])
  value := h.value
  taken := by simp only [he, h.taken]

theorem Region.stay (h : Region v pc) (hp : p.inside = (pc t).inside) :
    Region v (Function.update pc t p) := by
  refine h.congr fun u => ?_
  by_cases hu : u = t
  · subst hu
    rw [Function.update_self, hp]
  · rw [Function.update_of_ne hu]

/-- The last unit goes to `t`. -/
theorem Region.enter (h : Region v pc) (hv : 0 < v) (hp : p.inside) :
    Region (v - 1) (Function.update pc t p) := by
  have hout : ∀ u, ¬ (pc u).inside := by
    intro u hu
    have := h.taken.mpr ⟨u, hu⟩
    omega
  have honly : ∀ u, (Function.update pc t p u).inside → u = t := by
    intro u hu
    by_contra hne
    rw [Function.update_of_ne hne] at hu
    exact hout u hu
  refine ⟨fun ha hb => (honly _ ha).trans (honly _ hb).symm, ?_, ?_⟩
  · have := h.value
    omega
  · refine iff_of_true ?_ ⟨t, by rwa [Function.update_self]⟩
    have := h.value
    omega

/-- `t` gives the unit back. -/
theorem Region.leave (h : Region v pc) (ht : (pc t).inside) (hp : p.inside = false) :
    Region ((v + 1) % 2 ^ 32) (Function.update pc t p) := by
  have hv : v = 0 := h.taken.mpr ⟨t, ht⟩
  have hnone : ∀ u, ¬ (Function.update pc t p u).inside := by
    intro u hu
    by_cases hut : u = t
    · subst hut
      rw [Function.update_self, hp] at hu
      cases hu
    · rw [Function.update_of_ne hut] at hu
      exact hut (h.one hu ht)
  subst hv
  exact ⟨fun ha => absurd ha (hnone _), by decide, iff_of_false (by decide) fun ⟨u, hu⟩ => hnone u hu⟩

theorem holder_stay {holder : Option Tid} (h : ∀ u, holder = some u ↔ (pc u).named)
    (hp : p.named = (pc t).named) (u : Tid) :
    holder = some u ↔ (Function.update pc t p u).named := by
  by_cases hu : u = t
  · subst hu
    rw [Function.update_self, hp, h]
  · rw [Function.update_of_ne hu, h]

end

/-! ## One statement -/

section

variable {l l' : Lock} {pc : Tid → LockPc} {t : Tid} {p : LockPc} {w : Option Tid}

theorem LockInv.start : LockInv lockInit fun _ => .out where
  region := by
    refine ⟨fun h => ?_, Nat.le_refl 1, iff_of_false Nat.one_ne_zero ?_⟩
    · cases h
    · rintro ⟨_, h⟩
      cases h
  holder t := iff_of_false (fun h => by cases h) fun h => by cases h
  waiters := ⟨[], rfl, .nil, fun _ h => by cases h⟩

/-- The sleepers stay asleep when another thread moves. -/
theorem asleep_stay {ws : List Tid} (h : ∀ u ∈ ws, pc u = .asleep) (ht : pc t ≠ .asleep)
    (p : LockPc) : ∀ u ∈ ws, Function.update pc t p u = .asleep := by
  intro u hu
  have hne : u ≠ t := by
    rintro rfl
    exact ht (h u hu)
  rw [Function.update_of_ne hne, h u hu]

/-- A move that leaves the lock as it is. -/
theorem LockInv.stay (hi : LockInv l pc) (ht : pc t ≠ .asleep) (hin : p.inside = (pc t).inside)
    (hn : p.named = (pc t).named) : LockInv l (Function.update pc t p) := by
  obtain ⟨ws, hws, hnd, hall⟩ := hi.waiters
  exact ⟨hi.region.stay hin, holder_stay hi.holder hn, ws, hws, hnd, asleep_stay hall ht p⟩

/-- A thread from outside takes the semaphore. -/
theorem LockInv.take (hi : LockInv l pc) (ht : pc t ≠ .asleep) (hn : (pc t).named = false)
    (hv : 0 < l.semaphore.value) :
    LockInv { l with semaphore.value := l.semaphore.value - 1 }
      (Function.update pc t .taken) := by
  obtain ⟨ws, hws, hnd, hall⟩ := hi.waiters
  exact ⟨hi.region.enter hv rfl, holder_stay hi.holder hn.symm, ws, hws, hnd, asleep_stay hall ht _⟩

/-- A thread from outside goes to sleep. -/
theorem LockInv.sleep (hi : LockInv l pc) (ht : pc t ≠ .asleep) (hin : (pc t).inside = false)
    (hn : (pc t).named = false) {ws : List Tid} (hws : l.semaphore.waiters = some ws) :
    LockInv { l with semaphore.waiters := some (ws ++ [t]) }
      (Function.update pc t .asleep) := by
  obtain ⟨ws', hws', hnd, hall⟩ := hi.waiters
  rw [hws] at hws'
  cases hws'
  refine ⟨hi.region.stay hin.symm, holder_stay hi.holder hn.symm, _, rfl, ?_, fun u hu => ?_⟩
  · exact List.nodup_middle.mpr (List.nodup_cons.mpr
      ⟨fun hmem => ht (hall t (by simpa using hmem)), by simpa using hnd⟩)
  · rcases List.mem_append.mp hu with hu | hu
    · exact asleep_stay hall ht _ u hu
    · rw [List.mem_singleton.mp hu, Function.update_self]

/-- One pass of `sema_down`, first or after a wake-up. -/
theorem LockInv.down (hi : LockInv l pc) (ht : pc t = .acquire ∨ pc t = .woken)
    (e : (match semaDown l.semaphore t with
      | .pass x => some ({ l with semaphore := x }, .taken, none)
      | .block x => some ({ l with semaphore := x }, .asleep, none)
      | .fault => none) = some (l', p, w)) :
    LockInv l' (wakeLock (Function.update pc t p) w) := by
  have hout : pc t ≠ .asleep ∧ (pc t).inside = false ∧ (pc t).named = false := by
    rcases ht with ht | ht <;> rw [ht] <;> decide
  split at e
  · next x hx =>
    obtain ⟨hv, rfl⟩ := semaDown_pass hx
    cases e
    exact hi.take hout.1 hout.2.2 hv
  · next x hx =>
    obtain ⟨-, ws, hws, rfl⟩ := semaDown_block hx
    cases e
    exact hi.sleep hout.1 hout.2.1 hout.2.2 hws
  · cases e

theorem LockInv.tryDown (hi : LockInv l pc) (ht : pc t = .tryAcquire)
    (e : lockNext l t .tryAcquire = some (l', p, w)) :
    LockInv l' (wakeLock (Function.update pc t p) w) := by
  simp only [lockNext] at e
  split at e
  · next x hx =>
    obtain ⟨hv, rfl⟩ := semaTryDown_some hx
    cases e
    exact hi.take (by rw [ht]; decide) (by rw [ht]; rfl) hv
  · cases e
    exact hi.stay (by rw [ht]; decide) (by rw [ht]; rfl) (by rw [ht]; rfl)

/-- The store to `holder` after the semaphore is taken: nobody else is inside. -/
theorem LockInv.setHolder (hi : LockInv l pc) (ht : pc t = .taken) :
    LockInv { l with holder := some t } (Function.update pc t .held) := by
  obtain ⟨ws, hws, hnd, hall⟩ := hi.waiters
  refine ⟨hi.region.stay (by rw [ht]; rfl), fun u => ?_, ws, hws, hnd,
    asleep_stay hall (by rw [ht]; decide) _⟩
  by_cases hu : u = t
  · subst hu
    rw [Function.update_self]
    exact iff_of_true rfl rfl
  · rw [Function.update_of_ne hu]
    refine iff_of_false (fun he => hu (Option.some.inj he).symm) fun hn => hu ?_
    exact hi.region.one (LockPc.inside_of_named hn) (by rw [ht]; rfl)

/-- The store to `holder` in the release. -/
theorem LockInv.clearHolder (hi : LockInv l pc) (ht : pc t = .release) :
    LockInv { l with holder := none } (Function.update pc t .cleared) := by
  obtain ⟨ws, hws, hnd, hall⟩ := hi.waiters
  refine ⟨hi.region.stay (by rw [ht]; rfl), fun u => ?_, ws, hws, hnd,
    asleep_stay hall (by rw [ht]; decide) _⟩
  refine iff_of_false (fun he => by cases he) fun hn => ?_
  by_cases hu : u = t
  · subst hu
    rw [Function.update_self] at hn
    cases hn
  · rw [Function.update_of_ne hu] at hn
    exact hu (hi.region.one (LockPc.inside_of_named hn) (by rw [ht]; rfl))

/-- `sema_up` in the release: the region is left, and the first waiter is unblocked. -/
theorem LockInv.up (hi : LockInv l pc) (ht : pc t = .cleared)
    (e : lockNext l t .cleared = some (l', p, w)) :
    LockInv l' (wakeLock (Function.update pc t p) w) := by
  obtain ⟨ws, hws, hnd, hall⟩ := hi.waiters
  simp only [lockNext] at e
  split at e
  · next x u hx =>
    obtain ⟨ws', hws', rfl, rfl⟩ := semaUp_some hx
    rw [hws] at hws'
    cases hws'
    cases e
    have hleft : Region ((l.semaphore.value + 1) % 2 ^ 32) (Function.update pc t .out) :=
      hi.region.leave (by rw [ht]; rfl) rfl
    have hhold := holder_stay (p := .out) hi.holder (t := t) (by rw [ht]; rfl)
    have hasl := asleep_stay hall (t := t) (by rw [ht]; decide) .out
    cases ws with
    | nil => exact ⟨hleft, hhold, [], rfl, .nil, fun _ h => by cases h⟩
    | cons u ts =>
      obtain ⟨hut, hnd⟩ := List.nodup_cons.mp hnd
      have hu := hasl u List.mem_cons_self
      refine ⟨hleft.stay (by rw [hu]; rfl), holder_stay hhold (by rw [hu]; rfl), ts, rfl, hnd,
        fun v hv => ?_⟩
      have hne : v ≠ u := by
        rintro rfl
        exact hut hv
      show Function.update _ u _ v = _
      rw [Function.update_of_ne hne]
      exact hasl v (List.mem_cons_of_mem u hv)
  · cases e

theorem LockInv.next (hi : LockInv l pc) (e : lockNext l t (pc t) = some (l', p, w)) :
    LockInv l' (wakeLock (Function.update pc t p) w) := by
  cases ht : pc t with
  | acquire => exact hi.down (.inl ht) (by rwa [ht] at e)
  | woken => exact hi.down (.inr ht) (by rwa [ht] at e)
  | tryAcquire => exact hi.tryDown ht (by rwa [ht] at e)
  | cleared => exact hi.up ht (by rwa [ht] at e)
  | taken =>
    rw [ht] at e
    cases e
    exact hi.setHolder ht
  | release =>
    rw [ht] at e
    cases e
    exact hi.clearHolder ht
  | out | held | asleep =>
    rw [ht] at e
    cases e

/-- Before a call the holder is the thread that has acquired the lock. -/
theorem LockInv.held_iff (hi : LockInv l pc) (hpc : pc t = .out ∨ pc t = .held) :
    lockHeldByCurrentThread l t = true ↔ pc t = .held := by
  rw [lockHeldByCurrentThread, decide_eq_true_iff, hi.holder]
  rcases hpc with hpc | hpc <;> rw [hpc] <;> decide

/-- A call that passes its ASSERT. -/
theorem LockInv.enter (hi : LockInv l pc) {c : LockCall} (hpc : pc t = .out ∨ pc t = .held)
    (e : lockEnter l t c = some p) : LockInv l (Function.update pc t p) := by
  have hh := hi.held_iff hpc
  cases c with
  | acquire | tryAcquire =>
    simp only [lockEnter, hh] at e
    split at e
    · cases e
    · next hne =>
      have ht := hpc.resolve_right hne
      cases e
      exact hi.stay (by rw [ht]; decide) (by rw [ht]; rfl) (by rw [ht]; rfl)
  | release =>
    simp only [lockEnter, hh] at e
    split at e
    · next ht =>
      cases e
      exact hi.stay (by rw [ht]; decide) (by rw [ht]; rfl) (by rw [ht]; rfl)
    · cases e

/-- **When the ASSERT fails**: a second acquire, or a release without the lock. -/
theorem LockInv.enter_none (hi : LockInv l pc) {c : LockCall} (hpc : pc t = .out ∨ pc t = .held)
    (e : lockEnter l t c = none) :
    (c ≠ .release ∧ pc t = .held) ∨ (c = .release ∧ pc t = .out) := by
  have hh := hi.held_iff hpc
  cases c with
  | acquire | tryAcquire =>
    simp only [lockEnter, hh] at e
    split at e
    · next ht => exact .inl ⟨by decide, ht⟩
    · cases e
  | release =>
    simp only [lockEnter, hh] at e
    split at e
    · cases e
    · next hne => exact .inr ⟨rfl, hpc.resolve_right hne⟩

end

/-! ## Whole calls

A caller with interrupts off is not interleaved inside a call. -/

section

variable {l : Lock} {pc : Tid → LockPc} {t : Tid} {x : Semaphore}

/-- `lock_acquire` gets the lock. -/
theorem LockInv.acquire (hi : LockInv l pc) (ht : pc t = .out ∨ pc t = .woken)
    (hx : semaDown l.semaphore t = .pass x) :
    LockInv ⟨some t, x⟩ (Function.update pc t .held) := by
  obtain ⟨hv, rfl⟩ := semaDown_pass hx
  have htaken := hi.take (t := t) (by rcases ht with ht | ht <;> rw [ht] <;> decide)
    (by rcases ht with ht | ht <;> rw [ht] <;> rfl) hv
  have hheld := htaken.setHolder (t := t) (Function.update_self ..)
  rwa [Function.update_idem] at hheld

/-- `lock_acquire` goes to sleep. -/
theorem LockInv.acquireSleep (hi : LockInv l pc) (ht : pc t = .out ∨ pc t = .woken)
    (hx : semaDown l.semaphore t = .block x) :
    LockInv { l with semaphore := x } (Function.update pc t .asleep) := by
  obtain ⟨-, ws, hws, rfl⟩ := semaDown_block hx
  have hout : pc t ≠ .asleep ∧ (pc t).inside = false ∧ (pc t).named = false := by
    rcases ht with ht | ht <;> rw [ht] <;> decide
  exact hi.sleep hout.1 hout.2.1 hout.2.2 hws

/-- `lock_release` by the holder. -/
theorem LockInv.release (hi : LockInv l pc) (ht : pc t = .held) {w : Option Tid}
    (hx : semaUp l.semaphore = some (x, w)) :
    LockInv ⟨none, x⟩ (wakeLock (Function.update pc t .out) w) := by
  have hrel : LockInv l (Function.update pc t .release) :=
    hi.stay (by rw [ht]; decide) (by rw [ht]; rfl) (by rw [ht]; rfl)
  have hclr := hrel.clearHolder (t := t) (Function.update_self ..)
  rw [Function.update_idem] at hclr
  have hnext : lockNext ⟨none, l.semaphore⟩ t .cleared = some (⟨none, x⟩, .out, w) := by
    simp only [lockNext, hx]
  have hup := hclr.up (Function.update_self ..) hnext
  rwa [Function.update_idem] at hup

end

/-! ## Whole runs -/

/-- The invariant of the system, with the cause of a failed ASSERT. -/
def LockSysInv (s : LockSys) : Prop :=
  LockInv s.lock s.pc ∧ ∀ t c, s.failed = some (t, c) →
    (c ≠ .release ∧ s.pc t = .held) ∨ (c = .release ∧ s.pc t = .out)

theorem lockStep_inv {s s' : LockSys} {a : LockOp} (hi : LockSysInv s)
    (h : lockStep s a = some s') : LockSysInv s' := by
  unfold lockStep at h
  split at h
  · cases h
  next hf =>
  have hnf : ∀ t c, s.failed ≠ some (t, c) := fun t c e => hf (by rw [e]; rfl)
  cases a with
  | call t c =>
    simp only at h
    split at h
    · next hpc =>
      split at h
      · next p hp =>
        cases h
        exact ⟨hi.1.enter hpc hp, fun u d e => absurd e (hnf u d)⟩
      · next hn =>
        cases h
        refine ⟨hi.1, fun u d e => ?_⟩
        cases e
        exact hi.1.enter_none hpc hn
    · cases h
  | next t =>
    simp only at h
    split at h
    · next l p w hn =>
      cases h
      exact ⟨hi.1.next hn, fun u d e => absurd e (hnf u d)⟩
    · cases h

theorem lock_reach_inv {s : LockSys} (h : Reach lockStep Free lockStart s) : LockSysInv s :=
  h.invariant ⟨.start, fun _ _ e => by cases e⟩ fun _ _ _ hi _ hs => lockStep_inv hi hs

/-! ## What a step does to the places -/

section

variable {s s' : LockSys} {t : Tid}

theorem lockStep_acquire (hi : LockSysInv s) (hf : s.failed = none) (ht : s.pc t = .out) :
    lockStep s (.call t .acquire) = some { s with pc := Function.update s.pc t .acquire } := by
  have hh : ¬ lockHeldByCurrentThread s.lock t = true := by
    rw [hi.1.held_iff (.inl ht), ht]
    decide
  simp [lockStep, hf, ht, lockEnter, hh]

theorem lockStep_release (hi : LockSysInv s) (hf : s.failed = none) (ht : s.pc t = .held) :
    lockStep s (.call t .release) = some { s with pc := Function.update s.pc t .release } := by
  have hh : lockHeldByCurrentThread s.lock t = true := (hi.1.held_iff (.inr ht)).mpr ht
  simp [lockStep, hf, ht, lockEnter, hh]

/-- The places before and after a statement. -/
theorem lockNext_cases {l l' : Lock} {p p' : LockPc} {w : Option Tid}
    (h : lockNext l t p = some (l', p', w)) :
    (w = none ∧ ((p = .acquire ∨ p = .woken) ∧ (p' = .taken ∨ p' = .asleep) ∨
      p = .tryAcquire ∧ (p' = .taken ∨ p' = .out) ∨ p = .taken ∧ p' = .held ∨
      p = .release ∧ p' = .cleared)) ∨
    (p = .cleared ∧ p' = .out ∧ ∃ ws, l.semaphore.waiters = some ws ∧ w = ws.head?) := by
  cases p with
  | acquire | woken =>
    simp only [lockNext] at h
    split at h <;> cases h <;> simp
  | tryAcquire =>
    simp only [lockNext] at h
    split at h <;> cases h <;> simp
  | taken | release =>
    cases h
    simp
  | cleared =>
    simp only [lockNext] at h
    split at h
    · next x u hx =>
      obtain ⟨ws, hws, hw, -⟩ := semaUp_some hx
      cases h
      exact .inr ⟨rfl, rfl, ws, hws, hw⟩
    · cases h
  | out | held | asleep => cases h

/-- The next statement of a thread moves it on, and only its `sema_up` moves another
thread, from its sleep. -/
theorem lockStep_next (hi : LockSysInv s) (h : lockStep s (.next t) = some s') :
    s'.failed = s.failed ∧
    (∀ u, u ≠ t → s'.pc u = s.pc u ∨ (s.pc u = .asleep ∧ s'.pc u = .woken)) ∧
    ((s.pc t = .acquire ∨ s.pc t = .woken) ∧ (s'.pc t = .taken ∨ s'.pc t = .asleep) ∨
      s.pc t = .tryAcquire ∧ (s'.pc t = .taken ∨ s'.pc t = .out) ∨
      s.pc t = .taken ∧ s'.pc t = .held ∨ s.pc t = .release ∧ s'.pc t = .cleared ∨
      s.pc t = .cleared ∧ s'.pc t = .out) := by
  unfold lockStep at h
  split at h
  · cases h
  simp only at h
  split at h
  · next l p w hn =>
    cases h
    obtain ⟨rfl, hcases⟩ | ⟨ht, rfl, ws, hws, rfl⟩ := lockNext_cases hn
    · refine ⟨rfl, fun u hu => .inl (Function.update_of_ne hu ..), ?_⟩
      simp only [wakeLock, Function.update_self]
      tauto
    · obtain ⟨ws', hws', -, hasl⟩ := hi.1.waiters
      rw [hws] at hws'
      cases hws'
      cases ws with
      | nil =>
        refine ⟨rfl, fun u hu => .inl (Function.update_of_ne hu ..), ?_⟩
        simp [wakeLock, ht]
      | cons v ts =>
        have hv : s.pc v = .asleep := hasl v List.mem_cons_self
        have hvt : v ≠ t := by
          rintro rfl
          rw [hv] at ht
          cases ht
        refine ⟨rfl, fun u hu => ?_, ?_⟩
        · by_cases huv : u = v
          · subst huv
            exact .inr ⟨hv, Function.update_self ..⟩
          · refine .inl ?_
            show Function.update (Function.update s.pc t _) v _ u = _
            rw [Function.update_of_ne huv, Function.update_of_ne hu]
        · simp [wakeLock, ht, Function.update_of_ne hvt.symm]
  · cases h

end

/-- **Mutual exclusion.** In every interleaving at most one thread is inside; the
semaphore is then 0, and 1 otherwise; `holder` is null or the thread inside; and an
ASSERT on the holder has failed only in a second acquire by the thread inside or in a
release by a thread outside. -/
theorem lock_mutual_exclusion {s : LockSys} (h : Reach lockStep Free lockStart s) :
    (∀ t u, (s.pc t).inside → (s.pc u).inside → t = u) ∧
    s.lock.semaphore.value ≤ 1 ∧
    (∀ t, (s.pc t).inside → s.lock.semaphore.value = 0 ∧
      (s.lock.holder = none ∨ s.lock.holder = some t)) ∧
    ((∀ t, (s.pc t).inside = false) → s.lock.semaphore.value = 1 ∧ s.lock.holder = none) ∧
    (∀ t c, s.failed = some (t, c) →
      (c ≠ .release ∧ (s.pc t).inside) ∨ (c = .release ∧ (s.pc t).inside = false)) := by
  obtain ⟨hi, hfail⟩ := lock_reach_inv h
  have hin : ∀ t, s.lock.holder = some t → (s.pc t).inside :=
    fun t e => LockPc.inside_of_named ((hi.holder t).mp e)
  refine ⟨fun t u => hi.region.one, hi.region.value, fun t ht => ⟨hi.region.taken.mpr ⟨t, ht⟩, ?_⟩,
    fun hout => ⟨?_, ?_⟩, fun t c e => ?_⟩
  · cases hh : s.lock.holder with
    | none => exact .inl rfl
    | some u => exact .inr (congrArg some (hi.region.one (hin u hh) ht))
  · have hne : s.lock.semaphore.value ≠ 0 := by
      intro h0
      obtain ⟨t, ht⟩ := hi.region.taken.mp h0
      rw [hout t] at ht
      cases ht
    have := hi.region.value
    omega
  · cases hh : s.lock.holder with
    | none => rfl
    | some u =>
      have := hin u hh
      rw [hout u] at this
      cases this
  · rcases hfail t c e with ⟨hc, ht⟩ | ⟨hc, ht⟩
    · exact .inl ⟨hc, by rw [ht]; rfl⟩
    · exact .inr ⟨hc, by rw [ht]; rfl⟩

/-- Thread 2 waits while thread 1 is between the semaphore and the store. -/
theorem taken_without_holder :
    ∃ s, runFrom lockStep lockStart [.call 1 .acquire, .next 1, .call 2 .acquire, .next 2] = some s ∧
      s.pc 1 = .taken ∧ s.pc 2 = .asleep ∧ s.lock.semaphore.value = 0 ∧
      (s.lock.holder = none ∨ s.lock.holder = some 1) := by
  refine ⟨_, rfl, rfl, rfl, ?_⟩
  exact (lock_mutual_exclusion (reach_of_run
    [.call 1 .acquire, .next 1, .call 2 .acquire, .next 2] rfl)).2.2.1 1 rfl

end Pintos.Threads
