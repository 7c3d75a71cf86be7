import Pintos.Base.Reach
import Pintos.Base.Ordered
import Pintos.Threads.Synch
import Mathlib.Logic.Function.Basic
import Mathlib.Algebra.Order.Ring.Int
import Mathlib.Tactic.Common

/-!
# The alarm clock (devices/timer.c)

Any number of threads run `timer_sleep` while timer interrupts arrive. A thread
is preempted between any two statements it executes with interrupts on; the
stretch of `timer_sleep` between `intr_disable` and `intr_set_level`, `sema_down`
and the whole of `timer_interrupt` are one step each.

`sema_init` runs with interrupts on and after the thread has become visible in
`sleep_list`, so it is two steps here: the store to `value`, then `list_init`.
-/

namespace Pintos.Devices.Timer

open Pintos.Base Pintos.Threads

/-- Where a thread is in `timer_sleep`. -/
inductive Pc where
  /-- Not in `timer_sleep`. -/
  | out
  /-- `sleep_until` (the local) is computed, `th->sleep_until = sleep_until` is next. -/
  | store (d : Int)
  /-- `list_insert_ordered`, with interrupts disabled around it, is next. -/
  | insert
  /-- In `sema_init`, before `sema->value = value`. -/
  | semaValue
  /-- In `sema_init`, before `list_init (&sema->waiters)`. -/
  | semaList
  /-- `sema_down` is next. -/
  | down
  /-- Blocked in `sema_down`. -/
  | asleep
  /-- Unblocked by a `sema_up`, still in the loop of `sema_down`. -/
  | woken
  deriving DecidableEq, Repr

structure Thread where
  pc : Pc
  sleepUntil : Int
  sleepSema : Semaphore

structure State where
  /-- Timer ticks since boot. -/
  ticks : Int
  sleepList : List Tid
  thread : Tid → Thread
  /-- An ASSERT failed: the kernel has stopped. -/
  panic : Bool

/-- `init_thread` zeroes `struct thread`: `sleep_sema` is not a semaphore yet. -/
def init : State where
  ticks := 0
  sleepList := []
  thread _ := { pc := .out, sleepUntil := 0, sleepSema := { value := 0, waiters := none } }
  panic := false

inductive Label where
  /-- Thread `t` calls `timer_sleep (ticks)`. -/
  | sleep (t : Tid) (ticks : Int)
  /-- Thread `t` executes its next statement. -/
  | run (t : Tid)
  /-- A timer interrupt. -/
  | tick
  deriving DecidableEq, Repr

/-- The values of an `int64_t`. -/
def InInt64 (x : Int) : Prop := -2 ^ 63 ≤ x ∧ x < 2 ^ 63

instance (x : Int) : Decidable (InInt64 x) := inferInstanceAs (Decidable (_ ∧ _))

/-- Conversion of an `int64_t` to `uint64_t`. -/
def toUInt64 (x : Int) : Int := x % 2 ^ 64

/-- `sleep_less`: the deadlines are compared as `uint64_t`. -/
def sleepLess (th : Tid → Thread) (a b : Tid) : Bool :=
  decide (toUInt64 (th a).sleepUntil < toUInt64 (th b).sleepUntil)

/-- `thread_unblock` of the thread a `sema_up` took off the waiters. -/
def unblock (w : Option Tid) (th : Tid → Thread) : Tid → Thread :=
  match w with
  | none => th
  | some w => Function.update th w { th w with pc := .woken }

/-- The loop of `timer_interrupt` at the counter value `now`: wake threads from
the front until one is not due. The flag says that an ASSERT failed in `sema_up`. -/
def wake (now : Int) : List Tid → (Tid → Thread) → List Tid × (Tid → Thread) × Bool
  | [], th => ([], th, false)
  | t :: l, th =>
    if now < (th t).sleepUntil then (t :: l, th, false)
    else
      match semaUp (th t).sleepSema with
      | none => (t :: l, th, true)
      | some (s', w) => wake now l (unblock w (Function.update th t { th t with sleepSema := s' }))

/-- `timer_interrupt`. -/
def timerInterrupt (s : State) : State :=
  let r := wake (s.ticks + 1) s.sleepList s.thread
  { ticks := s.ticks + 1, sleepList := r.1, thread := r.2.1, panic := r.2.2 }

def setThread (s : State) (t : Tid) (x : Thread) : State :=
  { s with thread := Function.update s.thread t x }

/-- The next statement of `timer_sleep` for thread `t`. -/
def runThread (s : State) (t : Tid) : Option State :=
  let x := s.thread t
  match x.pc with
  | .out => none
  | .store d => some (setThread s t { x with sleepUntil := d, pc := .insert })
  | .insert =>
    some { setThread s t { x with pc := .semaValue } with
      sleepList := insertBy (sleepLess s.thread) t s.sleepList }
  | .semaValue =>
    some (setThread s t { x with sleepSema := { x.sleepSema with value := 0 }, pc := .semaList })
  | .semaList =>
    some (setThread s t
      { x with sleepSema := { x.sleepSema with waiters := some [] }, pc := .down })
  | .down | .woken =>
    match semaDown x.sleepSema t with
    | .pass s' => some (setThread s t { x with sleepSema := s', pc := .out })
    | .block s' => some (setThread s t { x with sleepSema := s', pc := .asleep })
    | .fault => some { s with panic := true }
  | .asleep => none

/-- One step. A call computes `ticks + timer_ticks ()`, which must not overflow. -/
def step (s : State) (a : Label) : Option State :=
  if s.panic then none
  else
    match a with
    | .sleep t n =>
      if (s.thread t).pc = .out ∧ InInt64 n ∧ InInt64 (n + s.ticks) then
        some (setThread s t { s.thread t with pc := .store (n + s.ticks) })
      else none
    | .run t => runThread s t
    | .tick => some (timerInterrupt s)

end Pintos.Devices.Timer
