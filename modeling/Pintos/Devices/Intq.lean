import Pintos.Threads.Lock

/-!
# Interrupt queues (devices/intq.c, devices/input.c)

A thread calls `intq_getc` or `intq_putc` with interrupts off, and whatever it does
up to its next sleep is one step. It sleeps in `lock_acquire`, when another thread is
waiting for the queue, or in `wait`, with the lock held, until the queue changes. When
it wakes up in `lock_acquire` it goes on to `wait` without a new look at the queue,
which may have changed meanwhile: then the ASSERT in `wait` fails.
-/

namespace Pintos.Devices

open Pintos.Base Pintos.Threads

def intqBufsize : Nat := 64

def next (pos : Nat) : Nat := (pos + 1) % intqBufsize

/-- The two conditions that threads wait for. -/
inductive Cond where
  | notEmpty
  | notFull
  deriving DecidableEq, Repr

structure Intq where
  lock : Lock
  /-- The members `not_empty` and `not_full`. -/
  waiter : Cond → Option Tid
  buf : Nat → UInt8
  head : Nat
  tail : Nat

def intqInit : Intq := ⟨lockInit, fun _ => none, fun _ => 0, 0, 0⟩

def intqEmpty (q : Intq) : Bool := q.head = q.tail

def intqFull (q : Intq) : Bool := next q.head = q.tail

/-- The condition is true of the queue. -/
def Intq.meets (q : Intq) : Cond → Bool
  | .notEmpty => !intqEmpty q
  | .notFull => !intqFull q

inductive IntqCall where
  | getc
  | putc (byte : UInt8)
  deriving DecidableEq, Repr

/-- The condition a call waits for. -/
def IntqCall.awaits : IntqCall → Cond
  | .getc => .notEmpty
  | .putc _ => .notFull

/-- The condition a call signals. -/
def IntqCall.signals : IntqCall → Cond
  | .getc => .notFull
  | .putc _ => .notEmpty

/-- The change to the queue after the loop. -/
def IntqCall.transfer (q : Intq) : IntqCall → Intq
  | .getc => { q with tail := next q.tail }
  | .putc byte => { q with buf := Function.update q.buf q.head byte, head := next q.head }

/-- The byte that `intq_getc` returns. -/
def IntqCall.result (q : Intq) : IntqCall → List UInt8
  | .getc => [q.buf q.tail]
  | .putc _ => []

/-- Where a thread stands. -/
inductive IntqPc where
  | out
  /-- Blocked in `lock_acquire`. -/
  | lockWait (c : IntqCall)
  /-- Unblocked in `lock_acquire`, before the test of the semaphore. -/
  | lockWoken (c : IntqCall)
  /-- Blocked in `wait`. -/
  | condWait (c : IntqCall)
  /-- Unblocked in `wait`, with the lock still held. -/
  | condWoken (c : IntqCall)
  deriving DecidableEq, Repr

/-- The queue and its threads; `got` is what `intq_getc` has returned so far, and
`failed` says that an ASSERT has stopped the kernel. -/
structure IntqSys where
  q : Intq
  pc : Tid → IntqPc
  got : List UInt8
  failed : Bool

def intqStart : IntqSys := ⟨intqInit, fun _ => .out, [], false⟩

namespace IntqSys

/-- `thread_unblock`, with its ASSERT that the thread is blocked. -/
def unblock (s : IntqSys) (t : Tid) : Option IntqSys :=
  match s.pc t with
  | .lockWait c => some { s with pc := Function.update s.pc t (.lockWoken c) }
  | .condWait c => some { s with pc := Function.update s.pc t (.condWoken c) }
  | _ => none

def wait (s : IntqSys) (t : Tid) (c : IntqCall) : Option IntqSys :=
  if s.q.meets c.awaits then none
  else some { s with
    q.waiter := Function.update s.q.waiter c.awaits (some t)
    pc := Function.update s.pc t (.condWait c) }

def signal (s : IntqSys) (c : Cond) : Option IntqSys :=
  if s.q.meets c then
    match s.q.waiter c with
    | none => some s
    | some t => (s.unblock t).map fun s =>
      { s with q.waiter := Function.update s.q.waiter c none }
  else none

/-- The pass of `lock_acquire` through its semaphore, and `wait` when it gets the lock. -/
def acquire (s : IntqSys) (t : Tid) (c : IntqCall) : Option IntqSys :=
  match semaDown s.q.lock.semaphore t with
  | .pass x => wait { s with q.lock := ⟨some t, x⟩ } t c
  | .block x => some { s with
      q.lock.semaphore := x, pc := Function.update s.pc t (.lockWait c) }
  | .fault => none

/-- What follows the loop. -/
def finish (s : IntqSys) (c : IntqCall) : Option IntqSys :=
  signal { s with q := c.transfer s.q, got := s.got ++ c.result s.q } c.signals

/-- The head of the loop, for a thread: finish, or go for the lock. -/
def attempt (s : IntqSys) (t : Tid) (c : IntqCall) : Option IntqSys :=
  if s.q.meets c.awaits then finish { s with pc := Function.update s.pc t .out } c
  else if lockHeldByCurrentThread s.q.lock t then none
  else s.acquire t c

/-- `lock_release` after `wait`. -/
def release (s : IntqSys) (t : Tid) : Option IntqSys :=
  if lockHeldByCurrentThread s.q.lock t then
    match semaUp s.q.lock.semaphore with
    | some (x, w) =>
      let s := { s with q.lock := ⟨none, x⟩, pc := Function.update s.pc t .out }
      match w with
      | none => some s
      | some u => s.unblock u
    | none => none
  else none

/-- A thread that has been unblocked runs. -/
def resume (s : IntqSys) (t : Tid) : IntqPc → Option IntqSys
  | .lockWoken c => s.acquire t c
  | .condWoken c => (s.release t).bind fun s => s.attempt t c
  | _ => none

end IntqSys

inductive IntqOp where
  /-- A thread calls `intq_getc` or `intq_putc`. -/
  | call (t : Tid) (c : IntqCall)
  /-- An unblocked thread is scheduled. -/
  | resume (t : Tid)
  /-- An interrupt handler calls, having seen that it need not wait. -/
  | handler (c : IntqCall)
  deriving DecidableEq, Repr

def IntqPc.woken : IntqPc → Bool
  | .lockWoken _ | .condWoken _ => true
  | _ => false

/-- A failed ASSERT stops the kernel. -/
def IntqSys.settle (s : IntqSys) : Option IntqSys → IntqSys
  | some s' => s'
  | none => { s with failed := true }

def intqStep (s : IntqSys) (a : IntqOp) : Option IntqSys :=
  if s.failed then none
  else match a with
  | .call t c => if s.pc t = .out then some (s.settle (s.attempt t c)) else none
  | .resume t => if (s.pc t).woken then some (s.settle (s.resume t (s.pc t))) else none
  | .handler c => if s.q.meets c.awaits then some (s.settle (s.finish c)) else none

/-- The call in whose `lock_acquire` an unblocked thread slept. -/
def IntqPc.slept : IntqPc → Option IntqCall
  | .lockWoken c => some c
  | _ => none

/-- A thread that slept in `lock_acquire` and now gets the lock finds the queue as it
left it: still empty in `intq_getc`, still full in `intq_putc`. -/
def StillWaiting (s : IntqSys) : IntqOp → Prop
  | .resume t => ∀ c ∈ (s.pc t).slept, 0 < s.q.lock.semaphore.value → s.q.meets c.awaits = false
  | _ => True

instance (s : IntqSys) : (a : IntqOp) → Decidable (StillWaiting s a)
  | .resume t => inferInstanceAs (Decidable (∀ c ∈ (s.pc t).slept, _ → _))
  | .call _ _ => isTrue trivial
  | .handler _ => isTrue trivial

/-! ## The invariant -/

/-- A thread's place as the lock sees it. -/
def IntqPc.lockPc : IntqPc → LockPc
  | .out => .out
  | .lockWait _ => .asleep
  | .lockWoken _ => .woken
  | .condWait _ | .condWoken _ => .held

/-- The lock is held by the thread in `wait`, which is the one recorded until it is
unblocked. -/
structure IntqInv (s : IntqSys) : Prop where
  lock : LockInv s.q.lock (IntqPc.lockPc ∘ s.pc)
  head : s.q.head < intqBufsize
  tail : s.q.tail < intqBufsize
  waiter : ∀ c t, s.q.waiter c = some t ↔ ∃ call, s.pc t = .condWait call ∧ call.awaits = c
  running : s.failed = false

theorem IntqInv.start : IntqInv intqStart where
  lock := LockInv.start
  head := by decide
  tail := by decide
  waiter c t := by simp [intqStart, intqInit]
  running := rfl

theorem next_lt (pos : Nat) : next pos < intqBufsize := Nat.mod_lt _ (by decide)

theorem next_inj {a b : Nat} (ha : a < intqBufsize) (hb : b < intqBufsize) (h : next a = next b) :
    a = b := by
  simp only [next, intqBufsize] at *
  omega

/-- What a call adds or takes makes the condition it signals true. -/
theorem meets_transfer {q : Intq} (hh : q.head < intqBufsize) (ht : q.tail < intqBufsize)
    {c : IntqCall} (h : q.meets c.awaits = true) : (c.transfer q).meets c.signals = true := by
  cases c with
  | getc =>
    have hne : q.head ≠ q.tail := by simpa [IntqCall.awaits, Intq.meets, intqEmpty] using h
    have hne' : next q.head ≠ next q.tail := fun e => hne (next_inj hh ht e)
    simp [IntqCall.signals, IntqCall.transfer, Intq.meets, intqFull, hne']
  | putc byte =>
    have hne : next q.head ≠ q.tail := by simpa [IntqCall.awaits, Intq.meets, intqFull] using h
    simp [IntqCall.signals, IntqCall.transfer, Intq.meets, intqEmpty, hne]

section

variable {s s' : IntqSys} {t : Tid} {c : IntqCall}

/-- Two threads in `wait` are the same. -/
theorem IntqInv.one_waits (hi : IntqInv s) {u : Tid} (ht : (s.pc t).lockPc = .held)
    (hu : (s.pc u).lockPc = .held) : t = u :=
  hi.lock.region.one (t := t) (u := u) (by simp [ht, LockPc.inside]) (by simp [hu, LockPc.inside])

/-- A true condition is signalled: the thread that waits for it is unblocked. -/
theorem IntqInv.signal (hi : IntqInv s) {c : Cond} (hc : s.q.meets c = true) :
    ∃ s', s.signal c = some s' ∧ IntqInv s' := by
  unfold IntqSys.signal
  rw [if_pos hc]
  cases hw : s.q.waiter c with
  | none => exact ⟨s, rfl, hi⟩
  | some t =>
    obtain ⟨call, hpc, hcall⟩ := (hi.waiter c t).mp hw
    simp only [IntqSys.unblock, hpc, Option.map_some]
    refine ⟨_, rfl, ?_, hi.head, hi.tail, fun d u => ?_, hi.running⟩
    · show LockInv _ (IntqPc.lockPc ∘ Function.update s.pc t _)
      rw [Function.comp_update]
      exact hi.lock.stay (by simp [hpc, IntqPc.lockPc]) (by simp [hpc, IntqPc.lockPc])
        (by simp [hpc, IntqPc.lockPc])
    · show Function.update s.q.waiter c none d = some u ↔
        ∃ call, Function.update s.pc t (.condWoken _) u = .condWait call ∧ call.awaits = d
      have hone := hi.one_waits (t := t) (u := u)
      have := hi.waiter d u
      simp only [Function.update_apply]
      grind [IntqPc.lockPc]

/-- The end of a call whose condition is true. -/
theorem IntqInv.finish (hi : IntqInv s) (hm : s.q.meets c.awaits = true) :
    ∃ s', s.finish c = some s' ∧ IntqInv s' := by
  have hmoved : IntqInv { s with q := c.transfer s.q, got := s.got ++ c.result s.q } := by
    refine ⟨?_, ?_, ?_, ?_, hi.running⟩
    · cases c <;> exact hi.lock
    · cases c
      · exact hi.head
      · exact next_lt _
    · cases c
      · exact next_lt _
      · exact hi.tail
    · cases c <;> exact hi.waiter
  exact hmoved.signal (meets_transfer hi.head hi.tail hm)

/-- A thread goes through `lock_acquire`, to `wait` or to sleep. -/
theorem IntqInv.acquire (hi : IntqInv s) (ht : s.pc t = .out ∨ ∃ d, s.pc t = .lockWoken d)
    (hc : 0 < s.q.lock.semaphore.value → s.q.meets c.awaits = false) :
    ∃ s', s.acquire t c = some s' ∧ IntqInv s' := by
  have hlock : (IntqPc.lockPc ∘ s.pc) t = .out ∨ (IntqPc.lockPc ∘ s.pc) t = .woken := by
    rcases ht with ht | ⟨d, ht⟩ <;> simp [ht, IntqPc.lockPc]
  have hnotwait : ∀ call, s.pc t ≠ .condWait call := by
    rcases ht with ht | ⟨d, ht⟩ <;> simp [ht]
  unfold IntqSys.acquire
  split
  · next x hx =>
    obtain ⟨hv, -⟩ := semaDown_pass hx
    have hm := hc hv
    -- the semaphore was free, so that nobody is recorded
    have hnone : ∀ u, (s.pc u).lockPc ≠ .held := by
      intro u hu
      have := hi.lock.region.taken.mpr ⟨u, by simp [hu, LockPc.inside]⟩
      omega
    have hm' : ¬ ({ s with q.lock := ⟨some t, x⟩ } : IntqSys).q.meets c.awaits = true := by
      cases hw : c.awaits <;> rw [hw] at hm <;> simpa [Intq.meets, intqEmpty, intqFull] using hm
    unfold IntqSys.wait
    rw [if_neg hm']
    refine ⟨_, rfl, ?_, hi.head, hi.tail, fun d u => ?_, hi.running⟩
    · show LockInv _ (IntqPc.lockPc ∘ Function.update s.pc t _)
      rw [Function.comp_update]
      exact hi.lock.acquire hlock hx
    · show Function.update s.q.waiter c.awaits (some t) d = some u ↔
        ∃ call, Function.update s.pc t (.condWait c) u = .condWait call ∧ call.awaits = d
      have := hi.waiter d u
      have := hnone u
      simp only [Function.update_apply]
      grind [IntqPc.lockPc]
  · next x hx =>
    refine ⟨_, rfl, ?_, hi.head, hi.tail, fun d u => ?_, hi.running⟩
    · show LockInv _ (IntqPc.lockPc ∘ Function.update s.pc t _)
      rw [Function.comp_update]
      exact hi.lock.acquireSleep hlock hx
    · show s.q.waiter d = some u ↔
        ∃ call, Function.update s.pc t (.lockWait c) u = .condWait call ∧ call.awaits = d
      have := hi.waiter d u
      simp only [Function.update_apply]
      grind
  · next hx =>
    obtain ⟨ws, hws, -⟩ := hi.lock.waiters
    rw [(semaDown_fault hx).2] at hws
    cases hws

/-- The ASSERT of `wait` fails when the thread gets the lock and the queue has changed. -/
theorem acquire_fails (hv : 0 < s.q.lock.semaphore.value) (hm : s.q.meets c.awaits = true) :
    s.acquire t c = none := by
  unfold IntqSys.acquire semaDown
  rw [if_neg (Nat.pos_iff_ne_zero.mp hv)]
  have hm' : ∀ x, ({ s with q.lock := ⟨some t, x⟩ } : IntqSys).q.meets c.awaits = true := by
    intro x
    cases hw : c.awaits <;> rw [hw] at hm <;> simpa [Intq.meets, intqEmpty, intqFull] using hm
  simp only [IntqSys.wait, hm', if_true]

/-- The head of the loop. A thread that goes for the lock at once finds the queue
unchanged. -/
theorem IntqInv.attempt (hi : IntqInv s) (ht : s.pc t = .out) :
    ∃ s', s.attempt t c = some s' ∧ IntqInv s' := by
  unfold IntqSys.attempt
  have hself : Function.update s.pc t .out = s.pc := by rw [← ht, Function.update_eq_self]
  by_cases hm : s.q.meets c.awaits = true
  · rw [if_pos hm, hself]
    exact hi.finish hm
  · rw [if_neg hm, if_neg ?_]
    · exact hi.acquire (.inl ht) fun _ => by simpa using hm
    · rw [lockHeldByCurrentThread, decide_eq_true_iff, hi.lock.holder]
      simp [ht, IntqPc.lockPc, LockPc.named]

theorem lockPc_asleep {p : IntqPc} (h : p.lockPc = .asleep) : ∃ c, p = .lockWait c := by
  cases p with
  | lockWait c => exact ⟨c, rfl⟩
  | _ => cases h

/-- `lock_release` after `wait`. -/
theorem IntqInv.release (hi : IntqInv s) (ht : s.pc t = .condWoken c) :
    ∃ s', s.release t = some s' ∧ IntqInv s' ∧ s'.pc t = .out := by
  have hheld : (IntqPc.lockPc ∘ s.pc) t = .held := by simp [ht, IntqPc.lockPc]
  have hassert : lockHeldByCurrentThread s.q.lock t = true := by
    rw [lockHeldByCurrentThread, decide_eq_true_iff, hi.lock.holder, hheld]
    rfl
  obtain ⟨ws, hws, -, hasl⟩ := hi.lock.waiters
  unfold IntqSys.release
  rw [if_pos hassert]
  cases hup : semaUp s.q.lock.semaphore with
  | none =>
    rw [semaUp_none, hws] at hup
    cases hup
  | some r =>
    obtain ⟨x, w⟩ := r
    have hrel := hi.lock.release hheld hup
    obtain ⟨ws', hws', rfl, -⟩ := semaUp_some hup
    rw [hws] at hws'
    cases hws'
    cases ws with
    | nil =>
      refine ⟨_, rfl, ⟨?_, hi.head, hi.tail, fun d u => ?_, hi.running⟩, Function.update_self ..⟩
      · show LockInv _ (IntqPc.lockPc ∘ Function.update s.pc t _)
        rw [Function.comp_update]
        exact hrel
      · show s.q.waiter d = some u ↔
          ∃ call, Function.update s.pc t .out u = .condWait call ∧ call.awaits = d
        have := hi.waiter d u
        simp only [Function.update_apply]
        grind
    | cons v ts =>
      obtain ⟨d, hd⟩ := lockPc_asleep (hasl v List.mem_cons_self)
      have hvt : v ≠ t := by
        rintro rfl
        rw [ht] at hd
        cases hd
      have hd' : Function.update s.pc t .out v = .lockWait d := by
        rw [Function.update_of_ne hvt, hd]
      simp only [List.head?_cons, IntqSys.unblock, hd']
      refine ⟨_, rfl, ⟨?_, hi.head, hi.tail, fun e u => ?_, hi.running⟩, ?_⟩
      · show LockInv _ (IntqPc.lockPc ∘ Function.update (Function.update s.pc t _) v _)
        rw [Function.comp_update, Function.comp_update]
        exact hrel
      · show s.q.waiter e = some u ↔
          ∃ call, Function.update (Function.update s.pc t .out) v (.lockWoken d) u = .condWait call ∧
            call.awaits = e
        have := hi.waiter e u
        simp only [Function.update_apply]
        grind
      · show Function.update (Function.update s.pc t .out) v _ t = _
        rw [Function.update_of_ne hvt.symm, Function.update_self]

/-- **One step**: no ASSERT fails exactly when a thread that slept for the lock finds the
queue as it left it, and then the invariant stays. -/
theorem IntqInv.step (hi : IntqInv s) {a : IntqOp} (h : intqStep s a = some s') :
    (StillWaiting s a → IntqInv s') ∧ (s'.failed = false ↔ StillWaiting s a) := by
  have hgood : ∀ {o : Option IntqSys}, (∃ r, o = some r ∧ IntqInv r) → some (s.settle o) = some s' →
      IntqInv s' := by
    rintro _ ⟨r, rfl, hr⟩ he
    exact Option.some.inj he ▸ hr
  unfold intqStep at h
  rw [if_neg (by simp [hi.running])] at h
  cases a with
  | call t c =>
    simp only [Option.ite_none_right_eq_some] at h
    have hi' := hgood (hi.attempt h.1) h.2
    exact ⟨fun _ => hi', iff_of_true hi'.running trivial⟩
  | handler c =>
    simp only [Option.ite_none_right_eq_some] at h
    have hi' := hgood (hi.finish h.1) h.2
    exact ⟨fun _ => hi', iff_of_true hi'.running trivial⟩
  | resume t =>
    simp only [Option.ite_none_right_eq_some] at h
    obtain ⟨hw, h⟩ := h
    cases hpc : s.pc t with
    | out | lockWait d | condWait d =>
      rw [hpc] at hw
      cases hw
    | condWoken d =>
      have hok : StillWaiting s (.resume t) := by simp [StillWaiting, hpc, IntqPc.slept]
      obtain ⟨r, hr, hri, hrt⟩ := hi.release hpc
      have hi' := hgood (o := s.resume t (s.pc t))
        (by rw [hpc, IntqSys.resume, hr]; exact hri.attempt hrt) h
      exact ⟨fun _ => hi', iff_of_true hi'.running hok⟩
    | lockWoken d =>
      rw [hpc, IntqSys.resume] at h
      by_cases hok : 0 < s.q.lock.semaphore.value → s.q.meets d.awaits = false
      · have hok' : StillWaiting s (.resume t) := by
          simpa [StillWaiting, hpc, IntqPc.slept] using hok
        have hi' := hgood (hi.acquire (.inr ⟨d, hpc⟩) hok) h
        exact ⟨fun _ => hi', iff_of_true hi'.running hok'⟩
      · have hno : ¬ StillWaiting s (.resume t) := fun hs => hok (hs d (by rw [hpc]; rfl))
        refine ⟨fun hs => absurd hs hno, iff_of_false ?_ hno⟩
        simp only [Classical.not_imp, Bool.not_eq_false] at hok
        rw [acquire_fails hok.1 hok.2] at h
        rw [← Option.some.inj h]
        simp [IntqSys.settle]

end

/-- **The queue as a monitor.** While every thread that slept for the lock finds the queue
still empty, or still full, when it gets it, no ASSERT fails and a thread is recorded
only while it is blocked in `wait`; and the first step that is not so fails. -/
theorem intq_monitor {s : IntqSys} (h : Reach intqStep StillWaiting intqStart s) :
    s.failed = false ∧
    (∀ c t, s.q.waiter c = some t → ∃ call, s.pc t = .condWait call ∧ call.awaits = c) ∧
    ∀ a s', intqStep s a = some s' → (s'.failed = false ↔ StillWaiting s a) := by
  have hi : IntqInv s := h.invariant IntqInv.start fun _ _ _ hi ha hs => (hi.step hs).1 ha
  exact ⟨hi.running, fun c t => (hi.waiter c t).mp, fun a s' hs => (hi.step hs).2⟩

/-- Two readers and one byte: the second reader gets the lock when the first has taken
the byte, and waits. -/
theorem second_reader_waits :
    ∃ s, runFrom (guarded intqStep StillWaiting) intqStart
        [.call 1 .getc, .call 2 .getc, .handler (.putc 97), .resume 1, .resume 2] = some s ∧
      s.got = [97] ∧ s.q.waiter .notEmpty = some 2 ∧ s.failed = false := by
  refine ⟨_, rfl, rfl, rfl, ?_⟩
  exact (intq_monitor (reach_of_guarded
    [.call 1 .getc, .call 2 .getc, .handler (.putc 97), .resume 1, .resume 2] rfl)).1

/-- Two readers and two bytes: the second byte is in the queue when the second reader gets
the lock, and the ASSERT in `wait` fails. -/
theorem second_byte_panics :
    ∃ s, runFrom intqStep intqStart [.call 1 .getc, .call 2 .getc, .handler (.putc 97),
        .handler (.putc 98), .resume 1, .resume 2] = some s ∧ s.failed = true :=
  ⟨_, rfl, rfl⟩

end Pintos.Devices
