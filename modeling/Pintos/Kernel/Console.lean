import Pintos.Threads.Lock
import Mathlib.Data.Int.Notation
import Mathlib.Tactic.Common

/-!
# The console lock (lib/kernel/console.c)

Threads call the functions of the console, one statement at a time. A call may begin at any
statement of another call of the same thread that is not asleep, so a thread has a stack of calls,
the innermost at the head. An interrupt handler runs from its beginning to its end.

The depth of the lock counts the calls inside: a call is inside from the statement that takes the
console for it, the store to `holder` or `console_lock_depth++`, to the one that gives it back. The
stack of a thread bounds its calls, so that the counter does not overflow.
-/

namespace Pintos.Kernel.Console

open Pintos.Base Pintos.Threads

/-! ## Calls -/

inductive ConsoleCall where
  /-- `out` is what `__vprintf` passes to `vprintf_helper`. -/
  | vprintf (out : List Char)
  | puts (s : List Char)
  | putbuf (buffer : List Char) (n : Nat)
  | putchar (c : Char)
  deriving DecidableEq, Repr

/-- The characters that a call passes to `putchar_have_lock`. -/
def ConsoleCall.chars : ConsoleCall → List Char
  | .vprintf out => out
  | .puts s => s ++ ['\n']
  | .putbuf buffer n => buffer.take n
  | .putchar c => [c]

/-- The statement that a call is about to run. -/
inductive Pc where
  /-- `acquire_console`: the test of `use_console_lock`. -/
  | enter
  /-- `lock_held_by_current_thread` -/
  | test
  /-- `console_lock_depth++` -/
  | incr
  /-- In `lock_acquire`; at `out` before its ASSERT. -/
  | lock (p : LockPc)
  /-- The loop over the characters, and the ASSERT of `putchar_have_lock`. -/
  | putc
  /-- The output of a character. -/
  | emit
  /-- `release_console`: the test of `use_console_lock`. -/
  | leave
  /-- The test of `console_lock_depth`. -/
  | depth
  /-- `console_lock_depth--` -/
  | decr
  /-- In `lock_release`; at `held` before its ASSERT. -/
  | unlock (p : LockPc)
  deriving DecidableEq, Repr

structure Frame where
  pc : Pc
  /-- The characters still to be output. -/
  rest : List Char
  deriving DecidableEq, Repr

/-- A character on the console. -/
structure Output where
  /-- The thread and the number of its outermost call, unless an interrupt handler wrote it. -/
  source : Option (Tid × Nat)
  char : Char
  deriving DecidableEq, Repr

structure Sys where
  consoleLock : Lock
  useConsoleLock : Bool
  consoleLockDepth : Int
  writeCnt : Int
  stack : Tid → List Frame
  output : List Output
  /-- How many outermost calls have taken the lock. -/
  calls : Nat
  /-- An ASSERT has failed. -/
  failed : Bool

inductive Label where
  | call (t : Tid) (c : ConsoleCall)
  | next (t : Tid)
  | interrupt (c : ConsoleCall)
  | consolePanic
  deriving DecidableEq, Repr

/-! ## Steps -/

/-- The thread is blocked in `lock_acquire`. -/
def asleep (l : List Frame) : Prop := l.head?.map Frame.pc = some (.lock .asleep)

instance (l : List Frame) : Decidable (asleep l) :=
  inferInstanceAs (Decidable (l.head?.map Frame.pc = some (.lock .asleep)))

def Sys.setStack (s : Sys) (t : Tid) (l : List Frame) : Sys :=
  { s with stack := Function.update s.stack t l }

/-- The thread goes on at `pc` in its innermost call. -/
def Sys.goto (s : Sys) (t : Tid) (pc : Pc) : Sys :=
  match s.stack t with
  | [] => s
  | f :: below => s.setStack t ({ f with pc := pc } :: below)

/-- The innermost call returns. -/
def Sys.ret (s : Sys) (t : Tid) : Sys := s.setStack t (s.stack t).tail

def Sys.fail (s : Sys) : Sys := { s with failed := true }

def Sys.wake (s : Sys) : Option Tid → Sys
  | none => s
  | some u => s.goto u (.lock .woken)

/-- `console_locked_by_current_thread`, outside interrupts. -/
def consoleLockedByCurrentThread (s : Sys) (t : Tid) : Bool :=
  !s.useConsoleLock || lockHeldByCurrentThread s.consoleLock t

/-- A statement of `lock_acquire`. -/
def acquireStep (s : Sys) (t : Tid) (p : LockPc) : Option Sys :=
  if p = .out then
    match lockEnter s.consoleLock t .acquire with
    | some p => some (s.goto t (.lock p))
    | none => some s.fail
  else
    match lockNext s.consoleLock t p with
    | some (l, p, w) =>
      let s := { s with consoleLock := l }
      some ((if p = .held then ({ s with calls := s.calls + 1 } : Sys).goto t .putc
        else s.goto t (.lock p)).wake w)
    | none => none

/-- A statement of `lock_release`. -/
def releaseStep (s : Sys) (t : Tid) (p : LockPc) : Option Sys :=
  if p = .held then
    match lockEnter s.consoleLock t .release with
    | some p => some (s.goto t (.unlock p))
    | none => some s.fail
  else
    match lockNext s.consoleLock t p with
    | some (l, p, w) =>
      let s := { s with consoleLock := l }
      some ((if p = .out then s.ret t else s.goto t (.unlock p)).wake w)
    | none => none

/-- The output of the next character of the call `f`. -/
def emitStep (s : Sys) (t : Tid) (f : Frame) (below : List Frame) : Sys :=
  match f.rest with
  | [] => s.goto t .leave
  | c :: rest =>
    let s' : Sys := { s with
      writeCnt := s.writeCnt + 1
      output := s.output ++ [⟨some (t, s.calls), c⟩] }
    s'.setStack t (⟨.putc, rest⟩ :: below)

/-- The next statement of thread `t`. -/
def nextStep (s : Sys) (t : Tid) : Option Sys :=
  match s.stack t with
  | [] => none
  | f :: below =>
    match f.pc with
    | .enter => some (s.goto t (if s.useConsoleLock then .test else .putc))
    | .test => some (s.goto t (if lockHeldByCurrentThread s.consoleLock t then .incr else .lock .out))
    | .incr => some ({ s with consoleLockDepth := s.consoleLockDepth + 1 }.goto t .putc)
    | .lock p => acquireStep s t p
    | .putc =>
      if f.rest = [] then some (s.goto t .leave)
      else if consoleLockedByCurrentThread s t then some (s.goto t .emit)
      else some s.fail
    | .emit => some (emitStep s t f below)
    | .leave => some (if s.useConsoleLock then s.goto t .depth else s.ret t)
    | .depth => some (s.goto t (if 0 < s.consoleLockDepth then .decr else .unlock .held))
    | .decr => some ({ s with consoleLockDepth := s.consoleLockDepth - 1 }.ret t)
    | .unlock p => releaseStep s t p

/-- A call in an interrupt handler: `intr_context ()` holds, so that the lock is left alone. -/
def interruptStep (s : Sys) (c : ConsoleCall) : Sys :=
  { s with
    writeCnt := s.writeCnt + c.chars.length
    output := s.output ++ c.chars.map (⟨none, ·⟩) }

def consoleStep (s : Sys) (a : Label) : Option Sys :=
  if s.failed then none
  else match a with
  | .call t c => if asleep (s.stack t) then none else some (s.setStack t (⟨.enter, c.chars⟩ :: s.stack t))
  | .next t => nextStep s t
  | .interrupt c => some (interruptStep s c)
  | .consolePanic => some { s with useConsoleLock := false }

/-- After `console_init`. -/
def consoleStart : Sys where
  consoleLock := lockInit
  useConsoleLock := true
  consoleLockDepth := 0
  writeCnt := 0
  stack _ := []
  output := []
  calls := 0
  failed := false

/-! ## The invariant -/

/-- The call has taken the console and not given it back. -/
def Pc.inside : Pc → Bool
  | .putc | .emit | .leave | .depth | .decr | .unlock .held | .unlock .release => true
  | _ => false

/-- The call has the semaphore without being the holder. -/
def Pc.between : Pc → Bool
  | .lock .taken | .unlock .cleared => true
  | _ => false

/-- How deep the calls of a thread are nested in the console. -/
def nesting (l : List Frame) : Nat := l.countP fun f => f.pc.inside

def betweens (l : List Frame) : Nat := l.countP fun f => f.pc.between

/-- Where a call stands, with `n` calls inside under it. -/
def FrameOk (pc : Pc) (n : Nat) : Prop :=
  match pc with
  | .incr | .decr => 0 < n
  | .lock p => n = 0 ∧ (p = .out ∨ p = .acquire ∨ p = .asleep ∨ p = .woken ∨ p = .taken)
  | .unlock p => n = 0 ∧ (p = .held ∨ p = .release ∨ p = .cleared)
  | _ => True

def StackOk : List Frame → Prop
  | [] => True
  | f :: below => FrameOk f.pc (nesting below) ∧ StackOk below

/-- No call of the thread has the console. -/
def Away (l : List Frame) : Prop := nesting l = 0 ∧ betweens l = 0

/-- Who has the lock. -/
inductive Phase (s : Sys) : Prop where
  | free (value : s.consoleLock.semaphore.value = 1) (holder : s.consoleLock.holder = none)
      (depth : s.consoleLockDepth = 0) (away : ∀ u, Away (s.stack u))
  | held (t : Tid) (value : s.consoleLock.semaphore.value = 0) (holder : s.consoleLock.holder = some t)
      (depth : s.consoleLockDepth + 1 = nesting (s.stack t))
      (mine : 0 < nesting (s.stack t) ∧ betweens (s.stack t) = 0)
      (away : ∀ u, u ≠ t → Away (s.stack u))
  | between (t : Tid) (value : s.consoleLock.semaphore.value = 0) (holder : s.consoleLock.holder = none)
      (depth : s.consoleLockDepth = 0) (mine : nesting (s.stack t) = 0 ∧ betweens (s.stack t) = 1)
      (away : ∀ u, u ≠ t → Away (s.stack u))

/-- Of two characters of threads the later one is of a later call, or of the same thread. -/
def InOrder (x y : Output) : Prop :=
  ∀ t n u m, x.source = some (t, n) → y.source = some (u, m) → n ≤ m ∧ (n = m → t = u)

/-- What is on the console is of the calls so far, and what is of the present one is of its
thread. -/
structure Unmixed (s : Sys) : Prop where
  order : s.output.Pairwise InOrder
  calls : ∀ x ∈ s.output, ∀ t n, x.source = some (t, n) →
    n ≤ s.calls ∧ (n = s.calls → ∀ u, s.consoleLock.holder = some u → t = u)

structure Inv (s : Sys) : Prop where
  phase : Phase s
  stack : ∀ t, StackOk (s.stack t)
  waiters : ∃ ws, s.consoleLock.semaphore.waiters = some ws ∧ ws.Nodup ∧ ∀ u ∈ ws, asleep (s.stack u)
  output : Unmixed s
  failed : s.failed = false

theorem Inv.start : Inv consoleStart where
  phase := .free rfl rfl rfl fun _ => ⟨rfl, rfl⟩
  stack _ := trivial
  waiters := ⟨[], rfl, .nil, fun _ h => by cases h⟩
  output := ⟨.nil, fun _ h => by cases h⟩
  failed := rfl

/-! ## Counting calls -/

section

variable {s s' : Sys} {t u : Tid} {f : Frame} {below l : List Frame}

theorem nesting_cons (f : Frame) (l : List Frame) :
    nesting (f :: l) = nesting l + if f.pc.inside then 1 else 0 := List.countP_cons ..

theorem betweens_cons (f : Frame) (l : List Frame) :
    betweens (f :: l) = betweens l + if f.pc.between then 1 else 0 := List.countP_cons ..

theorem goto_eq (h : s.stack t = f :: below) (pc : Pc) :
    s.goto t pc = s.setStack t ({ f with pc := pc } :: below) := by
  unfold Sys.goto
  rw [h]

theorem ret_eq (h : s.stack t = f :: below) : s.ret t = s.setStack t below := by
  unfold Sys.ret
  rw [h]
  rfl

/-- The lock when a call of `t` is inside. -/
theorem Phase.inside (h : Phase s) (ht : 0 < nesting (s.stack t)) :
    s.consoleLock.semaphore.value = 0 ∧ s.consoleLock.holder = some t ∧
      s.consoleLockDepth + 1 = nesting (s.stack t) ∧ betweens (s.stack t) = 0 ∧
      ∀ u, u ≠ t → Away (s.stack u) := by
  cases h with
  | free _ _ _ away => exact absurd (away t).1 (Nat.ne_of_gt ht)
  | held v value holder depth mine away =>
    by_cases hv : t = v
    · subst hv
      exact ⟨value, holder, depth, mine.2, away⟩
    · exact absurd (away t hv).1 (Nat.ne_of_gt ht)
  | between v value holder depth mine away =>
    by_cases hv : t = v
    · subst hv
      exact absurd mine.1 (Nat.ne_of_gt ht)
    · exact absurd (away t hv).1 (Nat.ne_of_gt ht)

/-- The lock when a call of `t` has only its semaphore. -/
theorem Phase.taken (h : Phase s) (ht : 0 < betweens (s.stack t)) :
    s.consoleLock.semaphore.value = 0 ∧ s.consoleLock.holder = none ∧ s.consoleLockDepth = 0 ∧
      nesting (s.stack t) = 0 ∧ betweens (s.stack t) = 1 ∧ ∀ u, u ≠ t → Away (s.stack u) := by
  cases h with
  | free _ _ _ away => exact absurd (away t).2 (Nat.ne_of_gt ht)
  | held v value holder depth mine away =>
    by_cases hv : t = v
    · subst hv
      exact absurd mine.2 (Nat.ne_of_gt ht)
    · exact absurd (away t hv).2 (Nat.ne_of_gt ht)
  | between v value holder depth mine away =>
    by_cases hv : t = v
    · subst hv
      exact ⟨value, holder, depth, mine.1, mine.2, away⟩
    · exact absurd (away t hv).2 (Nat.ne_of_gt ht)

/-- Who is the holder. -/
theorem Phase.holder_iff (h : Phase s) (t : Tid) :
    s.consoleLock.holder = some t ↔ 0 < nesting (s.stack t) := by
  refine ⟨fun hh => ?_, fun ht => (h.inside ht).2.1⟩
  cases h with
  | free _ holder _ _ =>
    rw [holder] at hh
    cases hh
  | held v _ holder _ mine _ =>
    rw [holder] at hh
    cases hh
    exact mine.1
  | between v _ holder _ _ _ =>
    rw [holder] at hh
    cases hh

theorem Phase.congr (h : Phase s) (hlock : s'.consoleLock.semaphore.value = s.consoleLock.semaphore.value)
    (hholder : s'.consoleLock.holder = s.consoleLock.holder)
    (hdepth : s'.consoleLockDepth = s.consoleLockDepth)
    (hstack : ∀ u, nesting (s'.stack u) = nesting (s.stack u) ∧ betweens (s'.stack u) = betweens (s.stack u)) :
    Phase s' := by
  have haway : ∀ u, Away (s.stack u) → Away (s'.stack u) := fun u h => by
    rwa [Away, (hstack u).1, (hstack u).2]
  cases h with
  | free value holder depth away =>
    exact .free (hlock.trans value) (hholder.trans holder) (hdepth.trans depth) fun u => haway u (away u)
  | held v value holder depth mine away =>
    refine .held v (hlock.trans value) (hholder.trans holder) ?_ ?_ fun u hu => haway u (away u hu)
    · rw [hdepth, (hstack v).1, depth]
    · rwa [(hstack v).1, (hstack v).2]
  | between v value holder depth mine away =>
    refine .between v (hlock.trans value) (hholder.trans holder) (hdepth.trans depth) ?_
      fun u hu => haway u (away u hu)
    rwa [(hstack v).1, (hstack v).2]

/-! ## What a step leaves alone -/

theorem stack_self (s : Sys) (t : Tid) (l : List Frame) : (s.setStack t l).stack t = l :=
  Function.update_self ..

theorem stack_of_ne (s : Sys) (l : List Frame) (hu : u ≠ t) : (s.setStack t l).stack u = s.stack u :=
  Function.update_of_ne hu ..

theorem away_of_ne (s : Sys) (l : List Frame) (h : ∀ u, u ≠ t → Away (s.stack u)) :
    ∀ u, u ≠ t → Away ((s.setStack t l).stack u) := fun u hu => by
  rw [stack_of_ne s l hu]
  exact h u hu

theorem stackOk_set (h : ∀ u, StackOk (s.stack u)) (hl : StackOk l) :
    ∀ u, StackOk ((s.setStack t l).stack u) := by
  intro u
  by_cases hu : u = t
  · rw [hu, stack_self]
    exact hl
  · rw [stack_of_ne s l hu]
    exact h u

/-- The waiters are other threads. -/
theorem waiters_set (h : ∃ ws, s.consoleLock.semaphore.waiters = some ws ∧ ws.Nodup ∧ ∀ u ∈ ws, asleep (s.stack u))
    (ht : ¬ asleep (s.stack t)) (l : List Frame) :
    ∃ ws, s.consoleLock.semaphore.waiters = some ws ∧ ws.Nodup ∧
      ∀ u ∈ ws, asleep ((s.setStack t l).stack u) := by
  obtain ⟨ws, hws, hnd, hall⟩ := h
  refine ⟨ws, hws, hnd, fun u hu => ?_⟩
  have hne : u ≠ t := by
    rintro rfl
    exact ht (hall u hu)
  rw [stack_of_ne s l hne]
  exact hall u hu

/-- A step of a call that neither gets inside nor leaves. -/
theorem Inv.local (hi : Inv s) (ht : ¬ asleep (s.stack t)) (hl : StackOk l)
    (hn : nesting l = nesting (s.stack t)) (hb : betweens l = betweens (s.stack t)) :
    Inv (s.setStack t l) where
  phase := by
    refine hi.phase.congr rfl rfl rfl fun u => ?_
    by_cases hu : u = t
    · rw [hu, stack_self]
      exact ⟨hn, hb⟩
    · rw [stack_of_ne s l hu]
      exact ⟨rfl, rfl⟩
  stack := stackOk_set hi.stack hl
  waiters := waiters_set hi.waiters ht l
  output := ⟨hi.output.order, hi.output.calls⟩
  failed := hi.failed

theorem not_asleep (h : s.stack t = f :: below) (hpc : f.pc ≠ .lock .asleep) : ¬ asleep (s.stack t) := by
  rw [h]
  intro ha
  exact hpc (Option.some.inj ha)

/-- A statement of the innermost call that neither gets inside nor leaves. -/
theorem Inv.goto (hi : Inv s) (h : s.stack t = f :: below) (hpc : f.pc ≠ .lock .asleep) (pc : Pc)
    (hin : pc.inside = f.pc.inside) (hbt : pc.between = f.pc.between)
    (hok : FrameOk pc (nesting below)) : Inv (s.goto t pc) := by
  have hbelow := hi.stack t
  rw [h] at hbelow
  rw [goto_eq h]
  refine hi.local (not_asleep h hpc) ⟨hok, hbelow.2⟩ ?_ ?_
  · rw [h, nesting_cons, nesting_cons, hin]
  · rw [h, betweens_cons, betweens_cons, hbt]

end

end Pintos.Kernel.Console
