import Pintos.Threads.Lock

/-!
# Disk commands and their interrupts (devices/disk.c)

Threads run `disk_read` and `disk_write` on the disks of one channel, one statement at a time. The
device completes each command that it was given with one interrupt; other interrupts on the line are
spurious. Commands are numbered in the order in which they are issued. A register access that
changes nothing on the channel is part of the step before it, and the data of the sectors is left
out.

`interrupt_handler` takes an interrupt to be spurious when `expecting_interrupt` is false, but no
statement sets it to false again.
-/

namespace Pintos.Devices.Ata

open Pintos.Base Pintos.Threads

/-- What `struct channel` holds, with the threads that are in the functions of its lock. -/
structure Channel where
  lock : LockSys
  expectingInterrupt : Bool
  completionWait : Semaphore

structure Disk where
  capacity : Nat
  readCnt : Nat
  writeCnt : Nat

inductive DiskOp where
  | read
  | write
  deriving DecidableEq, Repr

/-- A call of `disk_read` or `disk_write` on a disk of the channel. -/
structure Call where
  op : DiskOp
  devNo : Fin 2
  secNo : Nat
  /-- Whether interrupts are on in the caller. -/
  intrOn : Bool
  deriving DecidableEq, Repr

/-- The statement that a thread is about to run. -/
inductive DiskPc where
  | out
  /-- In `lock_acquire`. -/
  | acquire
  /-- `select_sector` -/
  | select
  /-- `issue_pio_command` -/
  | issue
  /-- The write of the command register in `issue_pio_command`. -/
  | command
  /-- `sema_down` -/
  | down
  /-- Among the waiters of `completion_wait`. -/
  | asleep
  /-- Unblocked, before the next test of the value. -/
  | woken
  /-- `wait_while_busy` -/
  | busy
  /-- `input_sector` or `output_sector` -/
  | transfer
  /-- The count of the sectors. -/
  | count
  /-- In `lock_release`. -/
  | release
  deriving DecidableEq, Repr

structure Thread where
  pc : DiskPc
  call : Call
  /-- The command that the thread has issued and not yet come back from `sema_down` for. -/
  command : Option Nat

structure Sys where
  channel : Channel
  disks : Fin 2 → Disk
  thread : Tid → Thread
  /-- The commands that the device has not completed, of those issued. -/
  pending : List Nat
  /-- The commands whose completion interrupt has come. -/
  completed : List Nat
  issued : Nat
  /-- An ASSERT has failed, or a PANIC was reached. -/
  stopped : Bool

inductive Label where
  | call (t : Tid) (c : Call)
  /-- The next statement of a thread; `ready` is what `wait_while_busy` returns. -/
  | next (t : Tid) (ready : Bool)
  | complete (n : Nat)
  | spurious
  deriving DecidableEq, Repr

/-! ## Steps -/

def DiskOp.afterCommand : DiskOp → DiskPc
  | .read => .down
  | .write => .busy

def DiskOp.afterDown : DiskOp → DiskPc
  | .read => .busy
  | .write => .count

def DiskOp.afterTransfer : DiskOp → DiskPc
  | .read => .count
  | .write => .down

/-- `d->read_cnt++` or `d->write_cnt++` -/
def DiskOp.count (d : Disk) : DiskOp → Disk
  | .read => { d with readCnt := d.readCnt + 1 }
  | .write => { d with writeCnt := d.writeCnt + 1 }

def Sys.setThread (s : Sys) (t : Tid) (th : Thread) : Sys :=
  { s with thread := Function.update s.thread t th }

/-- The thread goes on at `pc`. -/
def Sys.goto (s : Sys) (t : Tid) (pc : DiskPc) : Sys := s.setThread t { s.thread t with pc := pc }

def Sys.setLock (s : Sys) (l : LockSys) : Sys := { s with channel := { s.channel with lock := l } }

def Sys.stop (s : Sys) : Sys := { s with stopped := true }

/-- `sema_down (&c->completion_wait)` -/
def downStep (s : Sys) (t : Tid) : Sys :=
  let th := s.thread t
  match semaDown s.channel.completionWait t with
  | .pass x =>
    { s with channel := { s.channel with completionWait := x } }.setThread t
      { th with pc := th.call.op.afterDown, command := none }
  | .block x => { s with channel := { s.channel with completionWait := x } }.goto t .asleep
  | .fault => s.stop

/-- The write of the command register. -/
def commandStep (s : Sys) (t : Tid) : Sys :=
  let th := s.thread t
  { s with pending := s.issued :: s.pending, issued := s.issued + 1 }.setThread t
    { th with pc := th.call.op.afterCommand, command := some s.issued }

/-- A statement of `lock_acquire` or `lock_release`. -/
def lockStatement (s : Sys) (t : Tid) (a : LockOp) (done : LockPc) (pc : DiskPc) : Option Sys :=
  match lockStep s.channel.lock a with
  | some l => some (if l.pc t = done then (s.setLock l).goto t pc else s.setLock l)
  | none => none

/-- The next statement of thread `t`. -/
def nextStep (s : Sys) (t : Tid) (ready : Bool) : Option Sys :=
  let th := s.thread t
  match th.pc with
  | .out | .asleep => none
  | .acquire => lockStatement s t (.next t) .held .select
  | .select =>
    if th.call.secNo < (s.disks th.call.devNo).capacity ∧ th.call.secNo < 2 ^ 28 then some (s.goto t .issue)
    else some s.stop
  | .issue =>
    if th.call.intrOn then
      some ({ s with channel := { s.channel with expectingInterrupt := true } }.goto t .command)
    else some s.stop
  | .command => some (commandStep s t)
  | .down | .woken => some (downStep s t)
  | .busy => if ready then some (s.goto t .transfer) else some s.stop
  | .transfer => some (s.goto t th.call.op.afterTransfer)
  | .count =>
    some ({ s with
      disks := Function.update s.disks th.call.devNo (th.call.op.count (s.disks th.call.devNo)) }.goto t .release)
  | .release =>
    if s.channel.lock.pc t = .held then lockStatement s t (.call t .release) .out .out
    else lockStatement s t (.next t) .out .out

/-- `interrupt_handler`, for the channel whose line it is: the channel and the thread that is
unblocked. -/
def interruptHandler (c : Channel) : Option (Channel × Option Tid) :=
  if c.expectingInterrupt then
    match semaUp c.completionWait with
    | some (x, w) => some ({ c with completionWait := x }, w)
    | none => none
  else some (c, none)

def Sys.wake (s : Sys) : Option Tid → Sys
  | none => s
  | some u => s.goto u .woken

def interruptStep (s : Sys) : Option Sys :=
  match interruptHandler s.channel with
  | some (c, w) => some ({ s with channel := c }.wake w)
  | none => none

def diskStep (s : Sys) (a : Label) : Option Sys :=
  if s.stopped || s.channel.lock.failed.isSome then none
  else match a with
  | .call t c =>
    if (s.thread t).pc = .out then
      lockStatement (s.setThread t ⟨.acquire, c, none⟩) t (.call t .acquire) .held .select
    else none
  | .next t ready => nextStep s t ready
  | .complete n =>
    if n ∈ s.pending then
      interruptStep { s with pending := s.pending.erase n, completed := n :: s.completed }
    else none
  | .spurious => interruptStep s

/-- The channel after `disk_init`; `identified` tells whether a command was issued to identify a
disk. -/
def diskStart (identified : Bool) (disks : Fin 2 → Disk) : Sys where
  channel := ⟨lockStart, identified, ⟨0, some []⟩⟩
  disks := disks
  thread _ := ⟨.out, ⟨.read, 0, 0, true⟩, none⟩
  pending := []
  completed := []
  issued := 0
  stopped := false

/-! ## Matching -/

/-- Some thread has issued a command and not come back from its `sema_down`. -/
def Outstanding (s : Sys) : Prop := ∃ t, (s.thread t).command.isSome

/-- What a step must do. -/
structure Matching (s : Sys) (a : Label) (s' : Sys) : Prop where
  /-- `sema_down` returns after the completion interrupt of the caller's own command. -/
  matched : ∀ t n, (s.thread t).command = some n → (s'.thread t).command = none → n ∈ s.completed
  idle : ¬ Outstanding s' → s'.channel.completionWait.value = 0
  spurious : a = .spurious → s'.channel = s.channel

/-- A spurious interrupt comes while none is expected. -/
def Quiet (s : Sys) (a : Label) : Prop := a = .spurious → s.channel.expectingInterrupt = false

/-! ## The invariant -/

/-- Where the thread stands in the functions of the lock. -/
def Agree (pc : DiskPc) (p : LockPc) : Prop :=
  match pc with
  | .out => p = .out
  | .acquire => p = .acquire ∨ p = .asleep ∨ p = .woken ∨ p = .taken
  | .release => p = .held ∨ p = .release ∨ p = .cleared
  | _ => p = .held

/-- The thread is between the command and the return of `sema_down`. -/
def Thread.waiting (th : Thread) : Bool :=
  match th.pc with
  | .down | .asleep | .woken => true
  | .busy | .transfer => th.call.op = .write
  | _ => false

theorem Thread.waiting_of_pc {th : Thread} {pc : DiskPc} (h : th.pc = pc) :
    th.waiting = { th with pc := pc }.waiting := by
  subst h
  rfl

/-- Nobody waits: the semaphore is as `sema_init` left it. -/
structure Idle (s : Sys) : Prop where
  command : ∀ t, (s.thread t).command = none
  sema : s.channel.completionWait = ⟨0, some []⟩
  pending : s.pending = []

/-- `t` waits for command `n`, which the device has not completed, or has completed. -/
structure Awaits (s : Sys) (t : Tid) (n : Nat) : Prop where
  command : (s.thread t).command = some n
  expecting : s.channel.expectingInterrupt = true
  progress : (s.channel.completionWait = ⟨0, some (if (s.thread t).pc = .asleep then [t] else [])⟩ ∧
      s.pending = [n] ∧ (s.thread t).pc ≠ .woken) ∨
    (s.channel.completionWait = ⟨1, some []⟩ ∧ s.pending = [] ∧ n ∈ s.completed ∧
      (s.thread t).pc ≠ .asleep)

structure Inv (s : Sys) : Prop where
  lock : LockSysInv s.channel.lock
  place : ∀ t, Agree (s.thread t).pc (s.channel.lock.pc t)
  command : ∀ t, (s.thread t).command.isSome = (s.thread t).waiting
  issue : ∀ t, (s.thread t).pc = .command → s.channel.expectingInterrupt = true
  wait : Idle s ∨ ∃ t n, Awaits s t n

theorem Inv.start (identified : Bool) (disks : Fin 2 → Disk) : Inv (diskStart identified disks) where
  lock := ⟨.start, fun _ _ e => by cases e⟩
  place _ := rfl
  command _ := rfl
  issue _ e := by cases e
  wait := .inl ⟨fun _ => rfl, rfl, rfl⟩

section

variable {s s' : Sys} {t u : Tid} {n : Nat}

theorem Agree.held {th : Thread} {p : LockPc} (h : Agree th.pc p) (hw : th.waiting = true) :
    p = .held := by
  unfold Thread.waiting at hw
  unfold Agree at h
  cases hpc : th.pc <;> rw [hpc] at h hw <;> first | exact h | cases hw

/-- The thread with a command is alone in the lock. -/
theorem Inv.alone (hi : Inv s) (ht : s.channel.lock.pc t = .held) (hu : (s.thread u).command.isSome) :
    u = t := by
  rw [hi.command] at hu
  have hheld := (hi.place u).held hu
  exact hi.lock.1.region.one (by rw [hheld]; rfl) (by rw [ht]; rfl)

theorem Inv.none_of_not_waiting (hi : Inv s) (h : (s.thread t).waiting = false) :
    (s.thread t).command = none := by
  rw [← hi.command] at h
  exact Option.isSome_eq_false_iff.mp h |> Option.isNone_iff_eq_none.mp

/-- The invariant is kept, and a command is given up only when it is completed. -/
def Good (s s' : Sys) : Prop :=
  Inv s' ∧ ∀ t n, (s.thread t).command = some n → (s'.thread t).command = none → n ∈ s.completed

/-- A step that moves one thread. -/
structure Moves (s s' : Sys) (t : Tid) (th : Thread) : Prop where
  thread : s'.thread = Function.update s.thread t th
  lock : LockSysInv s'.channel.lock
  others : ∀ u, u ≠ t → s'.channel.lock.pc u = s.channel.lock.pc u ∨
    s.channel.lock.pc u = .asleep ∧ s'.channel.lock.pc u = .woken
  place : Agree th.pc (s'.channel.lock.pc t)
  command : th.command.isSome = th.waiting
  expecting : s.channel.expectingInterrupt = true ∨ th.pc = .command →
    s'.channel.expectingInterrupt = true

theorem Agree.woken {pc : DiskPc} (h : Agree pc .asleep) : Agree pc .woken := by
  unfold Agree at *
  cases pc <;> simp_all

section

variable {th : Thread}

theorem Moves.self (h : Moves s s' t th) : s'.thread t = th := by
  rw [h.thread, Function.update_self]

theorem Moves.other (h : Moves s s' t th) (hu : u ≠ t) : s'.thread u = s.thread u := by
  rw [h.thread, Function.update_of_ne hu]

theorem Moves.inv (h : Moves s s' t th) (hi : Inv s) (hwait : Idle s' ∨ ∃ t n, Awaits s' t n) :
    Inv s' where
  lock := h.lock
  place u := by
    by_cases hu : u = t
    · rw [hu, h.self]
      exact h.place
    · rw [h.other hu]
      rcases h.others u hu with hpc | ⟨hpc, hpc'⟩
      · rw [hpc]
        exact hi.place u
      · rw [hpc']
        exact Agree.woken (hpc ▸ hi.place u)
  command u := by
    by_cases hu : u = t
    · rw [hu, h.self]
      exact h.command
    · rw [h.other hu]
      exact hi.command u
  issue u hpc := by
    by_cases hu : u = t
    · rw [hu, h.self] at hpc
      exact h.expecting (.inr hpc)
    · rw [h.other hu] at hpc
      exact h.expecting (.inl (hi.issue u hpc))
  wait := hwait

/-- A step of the thread that has the lock. -/
theorem Moves.held (hi : Inv s) (hheld : s.channel.lock.pc t = .held)
    (hthread : s'.thread = Function.update s.thread t th) (hlock : s'.channel.lock = s.channel.lock)
    (hplace : Agree th.pc .held) (hcmd : th.command.isSome = th.waiting)
    (hexp : s.channel.expectingInterrupt = true ∨ th.pc = .command →
      s'.channel.expectingInterrupt = true) : Moves s s' t th := by
  refine ⟨hthread, ?_, fun u _ => ?_, ?_, hcmd, hexp⟩
  · rw [hlock]
    exact hi.lock
  · rw [hlock]
    exact .inl rfl
  · rw [hlock, hheld]
    exact hplace

/-- A step of a thread without a command that leaves the semaphore alone. -/
theorem Moves.aside (h : Moves s s' t th) (hi : Inv s) (hw : (s.thread t).waiting = false)
    (hcmd : th.command = none) (hsema : s'.channel.completionWait = s.channel.completionWait)
    (hpend : s'.pending = s.pending) (hdone : s'.completed = s.completed) : Good s s' := by
  have hnone := hi.none_of_not_waiting hw
  refine ⟨h.inv hi ?_, fun u n hu hu' => ?_⟩
  · rcases hi.wait with hidle | ⟨u, n, haw⟩
    · refine .inl ⟨fun u => ?_, hsema.trans hidle.sema, hpend.trans hidle.pending⟩
      by_cases hu : u = t
      · rw [hu, h.self, hcmd]
      · rw [h.other hu, hidle.command]
    · have hu : u ≠ t := by
        rintro rfl
        rw [haw.command] at hnone
        cases hnone
      refine .inr ⟨u, n, ?_, h.expecting (.inl haw.expecting), ?_⟩
      · rw [h.other hu, haw.command]
      · rw [h.other hu, hsema, hpend, hdone]
        exact haw.progress
  · have hut : u ≠ t := by
      rintro rfl
      rw [hnone] at hu
      cases hu
    rw [h.other hut, hu] at hu'
    cases hu'

/-- The commands that threads wait for are still theirs. -/
theorem Moves.kept (h : Moves s s' t th) (hcmd : th.command = (s.thread t).command) (u : Tid) :
    (s'.thread u).command = (s.thread u).command := by
  by_cases hu : u = t
  · rw [hu, h.self, hcmd]
  · rw [h.other hu]

end

theorem Good.of_kept (hi : Inv s') (h : ∀ u, (s'.thread u).command = (s.thread u).command) : Good s s' :=
  ⟨hi, fun u n hu hu' => by
    rw [h, hu] at hu'
    cases hu'⟩

/-- The thread that waits for a command. -/
theorem Inv.awaits (hi : Inv s) (hw : (s.thread t).waiting = true) :
    s.channel.lock.pc t = .held ∧ (∃ n, Awaits s t n) ∧ ∀ u, u ≠ t → (s.thread u).command = none := by
  have hheld := (hi.place t).held hw
  refine ⟨hheld, ?_, fun u hu => ?_⟩
  · rcases hi.wait with hidle | ⟨u, n, haw⟩
    · have hsome := hi.command t
      rw [hw, hidle.command] at hsome
      cases hsome
    · obtain rfl : u = t := hi.alone hheld (by rw [haw.command]; rfl)
      exact ⟨n, haw⟩
  · cases hc : (s.thread u).command with
    | none => rfl
    | some m => exact absurd (hi.alone hheld (by rw [hc]; rfl)) hu

/-! ## Statements -/

theorem Good.stop (hi : Inv s) : Good s s.stop := by
  refine .of_kept ⟨hi.lock, hi.place, hi.command, hi.issue, ?_⟩ fun _ => rfl
  refine hi.wait.imp (fun h => ⟨h.1, h.2, h.3⟩) fun h => ?_
  obtain ⟨t, n, h⟩ := h
  exact ⟨t, n, h.1, h.2, h.3⟩

/-- A statement of the lock's functions. -/
theorem Good.lockStatement {a : LockOp} {done : LockPc} {pc : DiskPc} {th : Thread} (hi : Inv s)
    (hw : (s.thread t).waiting = false) (hcmd : th.command = none) (hth : th.waiting = false)
    (hd : ({ th with pc := pc } : Thread).waiting = false) (hne : th.pc ≠ .command ∧ pc ≠ .command)
    (hothers : ∀ l, lockStep s.channel.lock a = some l → ∀ u, u ≠ t →
      l.pc u = s.channel.lock.pc u ∨ s.channel.lock.pc u = .asleep ∧ l.pc u = .woken)
    (hplace : ∀ l, lockStep s.channel.lock a = some l →
      if l.pc t = done then Agree pc (l.pc t) else Agree th.pc (l.pc t))
    (h : Ata.lockStatement (s.setThread t th) t a done pc = some s') : Good s s' := by
  unfold Ata.lockStatement at h
  split at h
  · next l hl =>
    have hinv : LockSysInv l := lockStep_inv hi.lock hl
    have hpl := hplace l hl
    have hoth := hothers l hl
    by_cases hdone : l.pc t = done
    · rw [if_pos hdone] at h hpl
      cases h
      have hmove : Moves s (((s.setThread t th).setLock l).goto t pc) t { th with pc := pc } :=
        ⟨by simp [Sys.goto, Sys.setLock, Sys.setThread], hinv, hoth, hpl, by rw [hd, hcmd]; rfl,
          fun h => h.resolve_right hne.2⟩
      exact hmove.aside hi hw hcmd rfl rfl rfl
    · rw [if_neg hdone] at h hpl
      cases h
      have hmove : Moves s ((s.setThread t th).setLock l) t th :=
        ⟨rfl, hinv, hoth, hpl, by rw [hth, hcmd]; rfl, fun h => h.resolve_right hne.1⟩
      exact hmove.aside hi hw hcmd rfl rfl rfl
  · cases h

/-- A statement of the thread in the lock, before the command or after `sema_down`. -/
theorem Good.local (pc : DiskPc) (hi : Inv s) (hheld : s.channel.lock.pc t = .held)
    (hw : (s.thread t).waiting = false) (hd : ({ s.thread t with pc := pc } : Thread).waiting = false)
    (hplace : Agree pc .held) (hthread : s'.thread = (s.goto t pc).thread)
    (hlock : s'.channel.lock = s.channel.lock)
    (hexp : s.channel.expectingInterrupt = true ∨ pc = .command → s'.channel.expectingInterrupt = true)
    (hsema : s'.channel.completionWait = s.channel.completionWait) (hpend : s'.pending = s.pending)
    (hdone : s'.completed = s.completed) : Good s s' := by
  have hnone := hi.none_of_not_waiting hw
  have hmove : Moves s s' t { s.thread t with pc := pc } :=
    .held hi hheld hthread hlock hplace (by rw [hd, hnone]; rfl) hexp
  exact hmove.aside hi hw hnone hsema hpend hdone

/-- A statement between the command and `sema_down`. -/
theorem Good.between {pc : DiskPc} (hi : Inv s) (hw : (s.thread t).waiting = true)
    (hd : ({ s.thread t with pc := pc } : Thread).waiting = true) (hplace : Agree pc .held)
    (hpc : (s.thread t).pc ≠ .asleep) (hpc' : pc ≠ .asleep ∧ pc ≠ .woken ∧ pc ≠ .command) :
    Good s (s.goto t pc) := by
  obtain ⟨hheld, ⟨n, haw⟩, -⟩ := hi.awaits hw
  have hsome : (s.thread t).command.isSome = true := by rw [haw.command]; rfl
  have hmove : Moves s (s.goto t pc) t { s.thread t with pc := pc } :=
    .held hi hheld rfl rfl hplace (by rw [hd, hsome]) fun h => h.resolve_right hpc'.2.2
  refine .of_kept (hmove.inv hi (.inr ⟨t, n, ?_, haw.expecting, ?_⟩)) (hmove.kept rfl)
  · rw [hmove.self, haw.command]
  · have hprog := haw.progress
    rw [if_neg hpc] at hprog
    rw [hmove.self, if_neg hpc'.1]
    exact hprog.imp (fun h => ⟨h.1, h.2.1, hpc'.2.1⟩) fun h => ⟨h.1, h.2.1, h.2.2.1, hpc'.1⟩

/-- **The command**: the device has one command, of the thread in the lock. -/
theorem Good.command (hi : Inv s) (hpc : (s.thread t).pc = .command) : Good s (commandStep s t) := by
  have hheld : s.channel.lock.pc t = .held := by
    have := hi.place t
    rwa [hpc] at this
  have hw : (s.thread t).waiting = false := Thread.waiting_of_pc hpc
  have hnone := hi.none_of_not_waiting hw
  have hidle : Idle s := by
    rcases hi.wait with hidle | ⟨u, n, haw⟩
    · exact hidle
    · obtain rfl : u = t := hi.alone hheld (by rw [haw.command]; rfl)
      rw [haw.command] at hnone
      cases hnone
  let pc := (s.thread t).call.op.afterCommand
  have hafter : Agree pc .held ∧ pc ≠ .command ∧ pc ≠ .asleep ∧ pc ≠ .woken ∧
      ({ s.thread t with pc := pc, command := some s.issued } : Thread).waiting = true := by
    unfold Thread.waiting pc
    cases hop : (s.thread t).call.op <;> simp [DiskOp.afterCommand, Agree]
  have hmove : Moves s (commandStep s t) t { s.thread t with pc := pc, command := some s.issued } :=
    .held hi hheld rfl rfl hafter.1 hafter.2.2.2.2.symm fun _ => hi.issue t hpc
  refine ⟨hmove.inv hi (.inr ⟨t, s.issued, ?_, hi.issue t hpc, .inl ⟨?_, ?_, ?_⟩⟩), fun u n h _ => ?_⟩
  · rw [hmove.self]
  · rw [hmove.self, if_neg hafter.2.2.1]
    exact hidle.sema
  · show s.issued :: s.pending = _
    rw [hidle.pending]
  · rw [hmove.self]
    exact hafter.2.2.2.1
  · rw [hidle.command] at h
    cases h

/-- **`sema_down`** returns only when the command of the caller is completed. -/
theorem Good.down (hi : Inv s) (hpc : (s.thread t).pc = .down ∨ (s.thread t).pc = .woken) :
    Good s (downStep s t) := by
  have hw : (s.thread t).waiting = true ∧ (s.thread t).pc ≠ .asleep := by
    unfold Thread.waiting
    rcases hpc with hpc | hpc <;> rw [hpc] <;> simp
  obtain ⟨hheld, ⟨n, haw⟩, halone⟩ := hi.awaits hw.1
  have hprog := haw.progress
  rw [if_neg hw.2] at hprog
  rcases hprog with ⟨hsema, hpend, -⟩ | ⟨hsema, hpend, hdone, -⟩
  · -- not completed yet: the thread goes to sleep
    let s' := { s with channel := { s.channel with completionWait := ⟨0, some [t]⟩ } }.goto t .asleep
    have hrun : downStep s t = s' := by
      unfold downStep
      rw [hsema]
      rfl
    have hsome : (s.thread t).command.isSome = true := by rw [haw.command]; rfl
    have hmove : Moves s s' t { s.thread t with pc := .asleep } :=
      .held hi hheld rfl rfl rfl hsome fun h => h.resolve_right (by simp)
    rw [hrun]
    refine .of_kept (hmove.inv hi (.inr ⟨t, n, ?_, haw.expecting, .inl ⟨?_, hpend, ?_⟩⟩)) (hmove.kept rfl)
    · rw [hmove.self, haw.command]
    · rw [hmove.self, if_pos rfl]
      rfl
    · rw [hmove.self]
      simp
  · let th : Thread := { s.thread t with pc := (s.thread t).call.op.afterDown, command := none }
    let s' := { s with channel := { s.channel with completionWait := ⟨0, some []⟩ } }.setThread t th
    have hrun : downStep s t = s' := by
      unfold downStep
      rw [hsema]
      rfl
    have hafter : Agree th.pc .held ∧ th.pc ≠ .command ∧ th.waiting = false := by
      unfold Thread.waiting th
      cases hop : (s.thread t).call.op <;> simp [DiskOp.afterDown, Agree]
    have hmove : Moves s s' t th :=
      .held hi hheld rfl rfl hafter.1 hafter.2.2.symm fun h => h.resolve_right hafter.2.1
    rw [hrun]
    refine ⟨hmove.inv hi (.inl ⟨fun u => ?_, rfl, hpend⟩), fun u m h h' => ?_⟩
    · by_cases hu : u = t
      · rw [hu, hmove.self]
      · rw [hmove.other hu, halone u hu]
    · obtain rfl : u = t := by
        by_contra hu
        rw [halone u hu] at h
        cases h
      obtain rfl : n = m := Option.some.inj (haw.command.symm.trans h)
      exact hdone

/-! ## Interrupts -/

/-- **The completion interrupt** comes for the command that is awaited. -/
theorem Good.complete (hi : Inv s) (hn : n ∈ s.pending)
    (h : interruptStep { s with pending := s.pending.erase n, completed := n :: s.completed } = some s') :
    Good s s' := by
  obtain ⟨t, m, haw⟩ : ∃ t m, Awaits s t m := by
    rcases hi.wait with hidle | haw
    · rw [hidle.pending] at hn
      cases hn
    · exact haw
  obtain ⟨hsema, hpend, hnw⟩ : s.channel.completionWait = ⟨0, some (if (s.thread t).pc = .asleep then [t] else [])⟩ ∧
      s.pending = [m] ∧ (s.thread t).pc ≠ .woken := by
    apply haw.progress.resolve_right
    rintro ⟨-, hp, -⟩
    rw [hp] at hn
    cases hn
  rw [hpend] at hn
  obtain rfl : n = m := List.mem_singleton.mp hn
  have hw : (s.thread t).waiting = true := by
    rw [← hi.command, haw.command]
    rfl
  obtain ⟨hheld, -, -⟩ := hi.awaits hw
  have hsome : (s.thread t).command.isSome = true := by rw [haw.command]; rfl
  have hgone : s.pending.erase n = [] := by rw [hpend]; simp
  unfold interruptStep interruptHandler at h
  dsimp only at h
  rw [if_pos haw.expecting, hsema, hgone] at h
  by_cases hasl : (s.thread t).pc = .asleep
  · rw [if_pos hasl] at h
    cases h
    let s' := { s with
      pending := []
      completed := n :: s.completed
      channel := { s.channel with completionWait := ⟨1, some []⟩ } }.goto t .woken
    have hmove : Moves s s' t { s.thread t with pc := .woken } :=
      .held hi hheld rfl rfl rfl hsome fun h => h.resolve_right (by simp)
    refine .of_kept (hmove.inv hi (.inr ⟨t, n, ?_, haw.expecting, .inr ⟨rfl, rfl, List.mem_cons_self .., ?_⟩⟩))
      (hmove.kept rfl)
    · rw [hmove.self, haw.command]
    · rw [hmove.self]
      simp
  · rw [if_neg hasl] at h
    cases h
    refine .of_kept ⟨hi.lock, hi.place, hi.command, hi.issue, .inr ⟨t, n, haw.command, haw.expecting, ?_⟩⟩
      fun _ => rfl
    exact .inr ⟨rfl, rfl, List.mem_cons_self .., hasl⟩

/-- A spurious interrupt leaves the channel alone exactly when none is expected. -/
theorem spurious_iff (h : interruptStep s = some s') :
    s'.channel = s.channel ↔ s.channel.expectingInterrupt = false := by
  unfold interruptStep interruptHandler at h
  cases hexp : s.channel.expectingInterrupt with
  | false =>
    rw [hexp, if_neg Bool.false_ne_true] at h
    cases h
    exact iff_of_true rfl rfl
  | true =>
    refine iff_of_false (fun he => ?_) (by simp)
    rw [hexp, if_pos rfl] at h
    cases hup : semaUp s.channel.completionWait with
    | none =>
      rw [hup] at h
      cases h
    | some p =>
      obtain ⟨x, w⟩ := p
      obtain ⟨ws, -, -, hx⟩ := semaUp_some hup
      rw [hup] at h
      have hchannel : s'.channel.completionWait = x := by
        cases w <;> cases h <;> rfl
      rw [he] at hchannel
      have hvalue := congrArg Semaphore.value (hchannel.trans hx)
      dsimp only at hvalue
      omega

theorem Good.spurious (hi : Inv s) (hexp : s.channel.expectingInterrupt = false)
    (h : interruptStep s = some s') : Good s s' := by
  unfold interruptStep interruptHandler at h
  rw [hexp, if_neg Bool.false_ne_true] at h
  cases h
  exact .of_kept hi fun _ => rfl

/-! ## Runs -/

/-- A statement of `lock_acquire`. -/
theorem acquire_place {l : LockSys} (hi : Inv s) (hpc : (s.thread t).pc = .acquire)
    (hl : lockStep s.channel.lock (.next t) = some l) :
    if l.pc t = .held then Agree .select (l.pc t) else Agree (s.thread t).pc (l.pc t) := by
  have hplace := hi.place t
  obtain ⟨-, -, hto⟩ := lockStep_next hi.lock hl
  rw [hpc] at hplace ⊢
  split
  · next hheld => exact hheld
  · unfold Agree at hplace ⊢
    rcases hplace with hp | hp | hp | hp <;> simp only [hp] at hto <;> simp_all
    all_goals exact hto.elim (fun h => .inr (.inr (.inr h))) fun h => .inr (.inl h)

/-- A statement of `lock_release`. -/
theorem release_place {l : LockSys} (hi : Inv s) (hpc : (s.thread t).pc = .release)
    (hp : s.channel.lock.pc t ≠ .held) (hl : lockStep s.channel.lock (.next t) = some l) :
    if l.pc t = .out then Agree .out (l.pc t) else Agree (s.thread t).pc (l.pc t) := by
  have hplace := hi.place t
  obtain ⟨-, -, hto⟩ := lockStep_next hi.lock hl
  rw [hpc] at hplace ⊢
  split
  · next hout => exact hout
  · unfold Agree at hplace ⊢
    rcases hplace with hp' | hp' | hp'
    · exact absurd hp' hp
    · simp only [hp'] at hto
      simp_all
    · simp only [hp'] at hto
      simp_all

/-- The call of a function of the lock moves only the caller. -/
theorem lockStep_call {l l' : LockSys} {c : LockCall} (h : lockStep l (.call t c) = some l') :
    (∀ u, u ≠ t → l'.pc u = l.pc u) ∧
      (l'.pc t = l.pc t ∨ ∃ p, lockEnter l.lock t c = some p ∧ l'.pc t = p) := by
  unfold lockStep at h
  split at h
  · cases h
  · dsimp only at h
    split at h
    · split at h
      · next p hp =>
        cases h
        exact ⟨fun u hu => Function.update_of_ne hu .., .inr ⟨p, hp, Function.update_self ..⟩⟩
      · cases h
        exact ⟨fun _ _ => rfl, .inl rfl⟩
    · cases h

/-- Every statement of a thread. -/
theorem Good.next {ready : Bool} (hi : Inv s) (h : nextStep s t ready = some s') : Good s s' := by
  have hplace := hi.place t
  have hself : s.setThread t (s.thread t) = s := by
    unfold Sys.setThread
    rw [Function.update_eq_self]
  unfold nextStep at h
  dsimp only at h
  cases hpc : (s.thread t).pc with
  | out | asleep =>
    rw [hpc] at h
    cases h
  | acquire =>
    rw [hpc] at h
    have hw : (s.thread t).waiting = false := Thread.waiting_of_pc hpc
    rw [← hself] at h
    exact .lockStatement hi hw (hi.none_of_not_waiting hw) hw rfl ⟨by rw [hpc]; simp, by simp⟩
      (fun l hl => (lockStep_next hi.lock hl).2.1) (fun l => acquire_place hi hpc) h
  | select =>
    rw [hpc] at h hplace
    dsimp only at h
    have hw : (s.thread t).waiting = false := Thread.waiting_of_pc hpc
    split at h
    · cases h
      exact .local .issue hi hplace hw rfl rfl rfl rfl (fun h => h.resolve_right (by simp)) rfl rfl rfl
    · cases h
      exact .stop hi
  | issue =>
    rw [hpc] at h hplace
    dsimp only at h
    have hw : (s.thread t).waiting = false := Thread.waiting_of_pc hpc
    split at h
    · cases h
      exact .local .command hi hplace hw rfl rfl rfl rfl (fun _ => rfl) rfl rfl rfl
    · cases h
      exact .stop hi
  | command =>
    rw [hpc] at h
    cases h
    exact .command hi hpc
  | down =>
    rw [hpc] at h
    cases h
    exact .down hi (.inl hpc)
  | woken =>
    rw [hpc] at h
    cases h
    exact .down hi (.inr hpc)
  | busy =>
    rw [hpc] at h hplace
    dsimp only at h
    split at h
    · cases h
      by_cases hop : (s.thread t).call.op = .write
      · have hw : (s.thread t).waiting = true := (Thread.waiting_of_pc hpc).trans (decide_eq_true hop)
        exact .between hi hw (decide_eq_true hop) rfl (by rw [hpc]; simp) (by simp)
      · have hw : (s.thread t).waiting = false := (Thread.waiting_of_pc hpc).trans (decide_eq_false hop)
        exact .local .transfer hi hplace hw (decide_eq_false hop) rfl rfl rfl
          (fun h => h.resolve_right (by simp)) rfl rfl rfl
    · cases h
      exact .stop hi
  | transfer =>
    rw [hpc] at h hplace
    cases h
    cases hop : (s.thread t).call.op with
    | write =>
      have hw : (s.thread t).waiting = true := (Thread.waiting_of_pc hpc).trans (decide_eq_true hop)
      exact .between hi hw rfl rfl (by rw [hpc]; simp) (by simp [DiskOp.afterTransfer])
    | read =>
      have hread : ¬ (s.thread t).call.op = .write := by
        rw [hop]
        decide
      have hw : (s.thread t).waiting = false := (Thread.waiting_of_pc hpc).trans (decide_eq_false hread)
      exact .local .count hi hplace hw rfl rfl rfl rfl (fun h => h.resolve_right (by simp)) rfl rfl rfl
  | count =>
    rw [hpc] at h hplace
    cases h
    have hw : (s.thread t).waiting = false := Thread.waiting_of_pc hpc
    have hrel : Agree .release .held := .inl rfl
    exact .local .release hi hplace hw rfl hrel rfl rfl (fun h => h.resolve_right (by simp)) rfl rfl rfl
  | release =>
    rw [hpc] at h
    dsimp only at h
    have hw : (s.thread t).waiting = false := Thread.waiting_of_pc hpc
    have hnone := hi.none_of_not_waiting hw
    have hne : (s.thread t).pc ≠ .command ∧ DiskPc.out ≠ .command := ⟨by rw [hpc]; simp, by simp⟩
    rw [← hself] at h
    split at h
    · next hheld =>
      refine .lockStatement hi hw hnone hw rfl hne (fun l hl u hu => .inl ((lockStep_call hl).1 u hu))
        (fun l hl => ?_) h
      have hto : l.pc t = .held ∨ l.pc t = .release := by
        rcases (lockStep_call hl).2 with hp | ⟨p, hp, hto⟩
        · exact .inl (hp.trans hheld)
        · refine .inr (hto.trans ?_)
          simp only [lockEnter] at hp
          split at hp <;> cases hp
          rfl
      rw [hpc]
      rcases hto with hto | hto <;> rw [hto] <;> simp [Agree]
    · next hnot =>
      exact .lockStatement hi hw hnone hw rfl hne (fun l hl => (lockStep_next hi.lock hl).2.1)
        (fun l => release_place hi hpc hnot) h

/-- The start of a call. -/
theorem Good.call {c : Call} (hi : Inv s) (hpc : (s.thread t).pc = .out)
    (h : Ata.lockStatement (s.setThread t ⟨.acquire, c, none⟩) t (.call t .acquire) .held .select = some s') :
    Good s s' := by
  have hw : (s.thread t).waiting = false := Thread.waiting_of_pc hpc
  have hout : s.channel.lock.pc t = .out := by
    have := hi.place t
    rwa [hpc] at this
  refine .lockStatement hi hw rfl rfl rfl ⟨by simp, by simp⟩
    (fun l hl u hu => .inl ((lockStep_call hl).1 u hu)) (fun l hl => ?_) h
  have hno : lockStep s.channel.lock (.call t .acquire) =
      some { s.channel.lock with pc := Function.update s.channel.lock.pc t .acquire } := by
    refine lockStep_acquire hi.lock ?_ hout
    cases hf : s.channel.lock.failed with
    | none => rfl
    | some f =>
      unfold lockStep at hl
      rw [hf] at hl
      cases hl
  obtain rfl := Option.some.inj (hno.symm.trans hl)
  simp [Agree]

/-- **One step**: the matching of commands and interrupts is kept as long as spurious interrupts are
known for what they are. -/
theorem diskStep_good {a : Label} (hi : Inv s) (h : diskStep s a = some s') :
    (Quiet s a → Good s s') ∧ (a = .spurious → (s'.channel = s.channel ↔ Quiet s a)) := by
  unfold diskStep at h
  split at h
  · cases h
  · cases a with
    | call t c =>
      dsimp only at h
      split at h
      · next hpc => exact ⟨fun _ => .call hi hpc h, fun he => (by cases he)⟩
      · cases h
    | next t ready => exact ⟨fun _ => .next hi h, fun he => (by cases he)⟩
    | complete n =>
      dsimp only at h
      split at h
      · next hn => exact ⟨fun _ => .complete hi hn h, fun he => (by cases he)⟩
      · cases h
    | spurious =>
      refine ⟨fun hq => .spurious hi (hq rfl) h, fun _ => (spurious_iff h).trans ?_⟩
      exact ⟨fun he _ => he, fun hq => hq rfl⟩

theorem matching_iff {a : Label} (hi : Inv s) (h : diskStep s a = some s') :
    Matching s a s' ↔ Quiet s a := by
  obtain ⟨hgood, hspur⟩ := diskStep_good hi h
  constructor
  · intro hm ha
    exact (hspur ha).mp (hm.spurious ha) ha
  · intro hq
    obtain ⟨hi', hmatched⟩ := hgood hq
    refine ⟨hmatched, fun hout => ?_, fun ha => (hspur ha).mpr hq⟩
    rcases hi'.wait with hidle | ⟨t, n, haw⟩
    · rw [hidle.sema]
    · exact absurd ⟨t, by rw [haw.command]; rfl⟩ hout

end

/-- Once a command was issued, interrupts are expected for good. -/
theorem expecting_stays {s s' : Sys} {a : Label} (hexp : s.channel.expectingInterrupt = true)
    (h : diskStep s a = some s') : s'.channel.expectingInterrupt = true := by
  have hlock : ∀ {s : Sys} {t : Tid} {a : LockOp} {done : LockPc} {pc : DiskPc},
      s.channel.expectingInterrupt = true → lockStatement s t a done pc = some s' →
      s'.channel.expectingInterrupt = true := by
    intro s t a done pc hexp h
    unfold lockStatement at h
    split at h
    · split at h <;> cases h <;> exact hexp
    · cases h
  have hintr : ∀ {s : Sys}, s.channel.expectingInterrupt = true → interruptStep s = some s' →
      s'.channel.expectingInterrupt = true := by
    intro s hexp h
    unfold interruptStep interruptHandler at h
    rw [if_pos hexp] at h
    cases hup : semaUp s.channel.completionWait with
    | none =>
      rw [hup] at h
      cases h
    | some p =>
      obtain ⟨x, w⟩ := p
      rw [hup] at h
      cases w <;> cases h <;> exact hexp
  unfold diskStep at h
  split at h
  · cases h
  · cases a with
    | call t c =>
      dsimp only at h
      split at h
      · refine hlock ?_ h
        exact hexp
      · cases h
    | complete n =>
      dsimp only at h
      split at h
      · refine hintr ?_ h
        exact hexp
      · cases h
    | spurious => exact hintr hexp h
    | next t ready =>
      dsimp only [nextStep] at h
      split at h
      any_goals exact hlock hexp h
      any_goals (cases h; done)
      any_goals (cases h; exact hexp)
      any_goals (split at h <;> cases h <;> first | exact hexp | rfl)
      · cases h
        unfold downStep
        dsimp only
        split <;> exact hexp
      · cases h
        unfold downStep
        dsimp only
        split <;> exact hexp
      · split at h <;> exact hlock hexp h

/-- **Completion matching.** In every run each step matches commands and completions exactly when
every spurious interrupt comes while none is expected. -/
theorem completions_match_iff (identified : Bool) (disks : Fin 2 → Disk) (labels : List Label) :
    Along diskStep Matching (diskStart identified disks) labels ↔
      Along diskStep (fun s a _ => Quiet s a) (diskStart identified disks) labels := by
  have hiff : ∀ s a s', Inv s → diskStep s a = some s' → (Matching s a s' ↔ Quiet s a) :=
    fun _ _ _ hi h => matching_iff hi h
  have hkeep : ∀ s a s', Inv s → diskStep s a = some s' → Quiet s a → Inv s' :=
    fun _ _ _ hi h hq => ((diskStep_good hi h).1 hq).1
  exact along_iff hiff hkeep (.start identified disks)

/-- A spurious interrupt lets thread 1 read before its command is completed. -/
theorem spurious_completes : ¬ ∀ (identified : Bool) (disks : Fin 2 → Disk) (labels : List Label),
    Along diskStep Matching (diskStart identified disks) labels := by
  intro h
  have hrun := h true (fun _ => ⟨1, 0, 0⟩) ([.spurious, .call 1 ⟨.read, 0, 0, true⟩, .next 1 true,
    .next 1 true, .next 1 true, .next 1 true, .next 1 true] ++ [.next 1 true])
  have hstep := hrun.at rfl rfl
  have hdone : 0 ∈ ([] : List Nat) := hstep.matched 1 0 rfl rfl
  cases hdone

end Pintos.Devices.Ata
