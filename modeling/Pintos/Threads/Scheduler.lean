import Pintos.Base.Reach
import Pintos.Threads.Synch
import Mathlib.Data.List.Nodup
import Mathlib.Logic.Function.Basic
import Mathlib.Tactic.Simps.Basic

/-!
# The scheduler (threads/thread.c, threads/synch.c)

One operation of the scheduler runs with interrupts off and is one step: it ends
when `schedule_tail` has run on the thread switched to, or at once when there is no
switch. A thread that resumes inside `sema_down` still has interrupts off, tests the
value and may block again before anything else happens; `cont` says where each thread
continues.

Threads are named by their `tid`, which is never reused, so that a page that
`palloc_get_page` hands out again is another thread. The run begins in
`thread_start`, when `idle` has been created and has yet to store `idle_thread`.
-/

namespace Pintos.Threads

open Pintos.Base

abbrev SemaId := Nat

inductive Status where
  | running
  | ready
  | blocked
  | dying
  deriving DecidableEq, Repr

/-- The statement of `idle` that comes next. -/
inductive IdlePc where
  /-- `idle_thread = thread_current ()`. -/
  | begin
  /-- `sema_up (idle_started)`. -/
  | assigned
  /-- The head of the loop. -/
  | loop
  /-- `sti; hlt`. -/
  | halt
  deriving DecidableEq, Repr

/-- What a thread does when it runs. -/
inductive Cont where
  /-- Its own function, between two operations. -/
  | run
  /-- The test of the loop of `sema_down`, with interrupts off. -/
  | down (x : SemaId)
  /-- `thread_create` has not yet unblocked it. -/
  | fresh
  /-- `thread_start`, at its `sema_down`. -/
  | start
  | idle (p : IdlePc)
  deriving DecidableEq, Repr

/-- The threads and the scheduler's variables. `exited` and `freed` record the calls of
`thread_exit` and of `palloc_free_page`, the latter with the thread it ran on. -/
structure Kernel where
  /-- `none`: there is no such thread. -/
  status : Tid → Option Status
  cont : Tid → Cont
  /-- The thread that this one's call of `thread_create` has made. -/
  creating : Tid → Option Tid
  cur : Tid
  readyList : List Tid
  idleThread : Option Tid
  sema : SemaId → Semaphore
  threadTicks : Nat
  nextTid : Tid
  exited : List Tid
  freed : List (Tid × Tid)

def initialThread : Tid := 1

/-- The second thread created, on which `idle` runs. -/
def idleTid : Tid := 2

def idleStarted : SemaId := 0

def timeSlice : Nat := 4

namespace Kernel

@[simps]
def setStatus (k : Kernel) (t : Tid) (st : Status) : Kernel :=
  { k with status := Function.update k.status t (some st) }

@[simps]
def setCont (k : Kernel) (t : Tid) (c : Cont) : Kernel :=
  { k with cont := Function.update k.cont t c }

@[simps]
def setSema (k : Kernel) (x : SemaId) (s : Semaphore) : Kernel :=
  { k with sema := Function.update k.sema x s }

/-- `next_thread_to_run`, with the ready list it leaves. -/
def nextThreadToRun (k : Kernel) : Option Tid × List Tid :=
  match k.readyList with
  | [] => (k.idleThread, [])
  | t :: ts => (some t, ts)

/-- `schedule_tail` on the current thread; `none` is a failed ASSERT. -/
def scheduleTail (k : Kernel) (prev : Option Tid) : Option Kernel :=
  let k := { k.setStatus k.cur .running with threadTicks := 0 }
  match prev with
  | none => some k
  | some p =>
    if k.status p = some .dying ∧ p ≠ initialThread then
      if p = k.cur then none
      else some { k with
        status := Function.update k.status p none, freed := k.freed ++ [(p, k.cur)] }
    else some k

def schedule (k : Kernel) : Option Kernel :=
  match k.nextThreadToRun with
  | (none, _) => none
  | (some next, ready) =>
    if k.status k.cur = some .running ∨ k.status next = none then none
    else scheduleTail { k with readyList := ready, cur := next }
      (if k.cur = next then none else some k.cur)

def threadBlock (k : Kernel) : Option Kernel := (k.setStatus k.cur .blocked).schedule

def threadUnblock (k : Kernel) (t : Tid) : Option Kernel :=
  if k.status t = some .blocked then
    some { k.setStatus t .ready with readyList := k.readyList ++ [t] }
  else none

def threadYield (k : Kernel) : Option Kernel :=
  let k' := if k.idleThread = some k.cur then k else { k with readyList := k.readyList ++ [k.cur] }
  (k'.setStatus k.cur .ready).schedule

def threadExit (k : Kernel) : Option Kernel :=
  ({ k with exited := k.exited ++ [k.cur] }.setStatus k.cur .dying).schedule

/-- `thread_tick`, and the yield on return from the interrupt. -/
def threadTick (k : Kernel) : Option Kernel :=
  let k := { k with threadTicks := k.threadTicks + 1 }
  if timeSlice ≤ k.threadTicks then k.threadYield else some k

/-- The part of `thread_create` before the thread is unblocked: `palloc_get_page`,
`init_thread`, `allocate_tid`. -/
def threadCreate (k : Kernel) : Kernel :=
  { k with
    status := Function.update k.status k.nextTid (some .blocked)
    cont := Function.update k.cont k.nextTid .fresh
    creating := Function.update (Function.update k.creating k.nextTid none) k.cur (some k.nextTid)
    nextTid := k.nextTid + 1 }

/-- The end of `thread_create`. -/
def threadCreateEnd (k : Kernel) (t : Tid) : Option Kernel :=
  { k with
    cont := Function.update k.cont t .run
    creating := Function.update k.creating k.cur none }.threadUnblock t

/-- One pass of the loop of `sema_down` by the current thread. -/
def semaTest (k : Kernel) (x : SemaId) : Option Kernel :=
  match semaDown (k.sema x) k.cur with
  | .pass s => some ((k.setSema x s).setCont k.cur .run)
  | .block s => ((k.setSema x s).setCont k.cur (.down x)).threadBlock
  | .fault => none

def semaUp (k : Kernel) (x : SemaId) : Option Kernel :=
  match Threads.semaUp (k.sema x) with
  | some (s, some t) => (k.setSema x s).threadUnblock t
  | some (s, none) => some (k.setSema x s)
  | none => none

/-- The statement at which a thread of the kernel itself stands. -/
def advance (k : Kernel) : Cont → Option Kernel
  | .down x => k.semaTest x
  | .start => k.semaTest idleStarted
  | .idle .begin =>
    some ({ k with idleThread := some k.cur }.setCont k.cur (.idle .assigned))
  | .idle .assigned => (k.setCont k.cur (.idle .loop)).semaUp idleStarted
  | .idle .loop => (k.setCont k.cur (.idle .halt)).threadBlock
  | .idle .halt => some (k.setCont k.cur (.idle .loop))
  | .run | .fresh => none

end Kernel

inductive SchedOp where
  /-- A timer interrupt. -/
  | tick
  /-- `thread_unblock`, by the current thread or an interrupt handler. -/
  | unblock (t : Tid)
  /-- `sema_up`, by the current thread or an interrupt handler. -/
  | up (x : SemaId)
  | yield
  | block
  | exit
  /-- `thread_create` up to `allocate_tid`, with the answer of the page allocator. -/
  | create (page : Bool)
  | createEnd
  | down (x : SemaId)
  | advance
  deriving DecidableEq, Repr

/-- One operation. Interrupts are on unless the thread has resumed in `sema_down`. -/
def schedStep (k : Kernel) (a : SchedOp) : Option Kernel :=
  let c := k.cont k.cur
  let intrOn : Bool := match c with
    | .down _ => false
    | _ => true
  match a with
  | .tick => if intrOn then k.threadTick else none
  | .unblock t => if intrOn then k.threadUnblock t else none
  | .up x => if intrOn then k.semaUp x else none
  | .yield => if c = .run then k.threadYield else none
  | .block => if c = .run ∧ k.creating k.cur = none then k.threadBlock else none
  | .exit => if c = .run ∧ k.creating k.cur = none then k.threadExit else none
  | .create page =>
    if c = .run ∧ k.creating k.cur = none then some (if page then k.threadCreate else k) else none
  | .createEnd =>
    if c = .run then
      match k.creating k.cur with
      | some t => k.threadCreateEnd t
      | none => none
    else none
  | .down x => if c = .run then k.semaTest x else none
  | .advance => k.advance c

/-- `thread_init` and the call of `thread_create` in `thread_start`, with any other
semaphores. -/
def bootKernel (v : SemaId → Nat) : Kernel where
  status := Function.update (Function.update (fun _ => none) initialThread (some .running))
    idleTid (some .ready)
  cont := Function.update (Function.update (fun _ => .run) initialThread .start)
    idleTid (.idle .begin)
  creating _ := none
  cur := initialThread
  readyList := [idleTid]
  idleThread := none
  sema x := ⟨if x = idleStarted then 0 else v x, some []⟩
  threadTicks := 0
  nextTid := 3
  exited := []
  freed := []

/-- `thread_unblock` is called for a thread that blocked itself by `thread_block`, as
`intq.c` does. -/
def Proper (k : Kernel) : SchedOp → Prop
  | .unblock t => k.cont t = .run
  | _ => True

instance (k : Kernel) (a : SchedOp) : Decidable (Proper k a) := by
  cases a <;> simp only [Proper] <;> infer_instance

/-! ## The invariant -/

def Kernel.waitersOf (k : Kernel) (x : SemaId) : List Tid := (k.sema x).waiters.getD []

/-- The part of the invariant that holds inside an operation too. -/
structure SchedCore (k : Kernel) : Prop where
  readyNodup : k.readyList.Nodup
  ready : ∀ t, t ∈ k.readyList ↔ k.status t = some .ready ∧ k.idleThread ≠ some t
  semaInit : ∀ x, (k.sema x).waiters = some (k.waitersOf x)
  waitersNodup : ∀ x, (k.waitersOf x).Nodup
  waiters : ∀ x t, t ∈ k.waitersOf x ↔ k.status t = some .blocked ∧ k.cont t = .down x
  idlePc : ∃ p, k.cont idleTid = .idle p ∧
    k.idleThread = (if p = .begin then none else some idleTid) ∧
    (p = .begin → k.status idleTid ≠ some .blocked)
  idleOnly : ∀ t p, k.cont t = .idle p → t = idleTid
  idleAlive : k.status idleTid ≠ none ∧ k.status idleTid ≠ some .dying
  creating : ∀ u c, k.creating u = some c → k.status c = some .blocked ∧ k.cont c = .fresh
  creator : ∀ u v c, k.creating u = some c → k.creating v = some c → u = v
  unused : ∀ t, k.nextTid ≤ t → k.status t = none ∧ t ∉ k.exited
  dying : ∀ t, k.status t = some .dying → t ∈ k.exited
  exited : ∀ t ∈ k.exited, k.status t = some .dying ∨
    (k.status t = none ∧ ∃ r, (t, r) ∈ k.freed)
  freedNodup : (k.freed.map Prod.fst).Nodup
  freed : ∀ t r, (t, r) ∈ k.freed →
    t ≠ r ∧ t ≠ initialThread ∧ t ∈ k.exited ∧ k.status t = none

/-- **The invariant** between operations. -/
structure SchedInv (k : Kernel) : Prop extends SchedCore k where
  running : ∀ t, k.status t = some .running ↔ t = k.cur
  dead : ∀ t, k.status t = some .dying → t = initialThread

section

variable {k k' : Kernel} {t : Tid}

theorem bootKernel_inv (v : SemaId → Nat) : SchedInv (bootKernel v) := by
  constructor
  · constructor <;> simp only [bootKernel, Kernel.waitersOf, Function.update_apply] <;>
      grind [idleTid, initialThread]
  · simp only [bootKernel, Function.update_apply]
    grind [idleTid, initialThread]
  · simp only [bootKernel, Function.update_apply]
    grind [idleTid, initialThread]

/-- The thread that `next_thread_to_run` returns is the head of the ready list, or
`idle_thread`, which is then set. -/
theorem SchedCore.next (hc : SchedCore k) (hr : ∀ t, k.status t ≠ some .running) :
    ∃ n ready, k.nextThreadToRun = (some n, ready) ∧
      (k.readyList = n :: ready ∨
        (k.readyList = [] ∧ ready = [] ∧ n = idleTid ∧ k.idleThread = some idleTid)) := by
  unfold Kernel.nextThreadToRun
  split
  · next he =>
    obtain ⟨p, -, hid, hb⟩ := hc.idlePc
    by_cases hp : p = .begin
    · -- before the store, idle is on the ready list
      have hnot : idleTid ∉ k.readyList := by simp [he]
      rw [hc.ready, hid, if_pos hp] at hnot
      refine absurd ⟨?_, by simp⟩ hnot
      cases hs : k.status idleTid with
      | none => exact absurd hs hc.idleAlive.1
      | some st =>
        cases st with
        | ready => rfl
        | running => exact absurd hs (hr idleTid)
        | blocked => exact absurd hs (hb hp)
        | dying => exact absurd hs hc.idleAlive.2
    · rw [if_neg hp] at hid
      exact ⟨idleTid, [], by rw [hid], .inr ⟨he, rfl, rfl, hid⟩⟩
  · next n ts he => exact ⟨n, ts, rfl, .inl he⟩

theorem SchedCore.setTicks (hc : SchedCore k) (n : Nat) : SchedCore { k with threadTicks := n } :=
  ⟨hc.readyNodup, hc.ready, hc.semaInit, hc.waitersNodup, hc.waiters, hc.idlePc, hc.idleOnly, hc.idleAlive,
    hc.creating, hc.creator, hc.unused, hc.dying, hc.exited, hc.freedNodup, hc.freed⟩

/-- **One thread changes its status**, and joins or leaves the lists accordingly; every
other thread stays where it is. -/
theorem SchedCore.move (hc : SchedCore k) {b : Status} (hthread : k.status t ≠ none)
    (hlive : k.status t ≠ some .dying) (hfresh : ∀ u, k.creating u ≠ some t)
    (hstatus : k'.status = Function.update k.status t (some b))
    (hcont : ∀ u, u ≠ t → k'.cont u = k.cont u)
    (hready : k'.readyList.Nodup ∧ ∀ u, u ∈ k'.readyList ↔
      if u = t then b = .ready ∧ k.idleThread ≠ some t else u ∈ k.readyList)
    (hsema : ∀ x, ∃ ws, (k'.sema x).waiters = some ws ∧ ws.Nodup ∧ ∀ u, u ∈ ws ↔
      if u = t then b = .blocked ∧ k'.cont t = .down x else u ∈ k.waitersOf x)
    (hidle : t = idleTid → b ≠ .dying ∧ ∃ p, k'.cont t = .idle p ∧
      k.idleThread = (if p = .begin then none else some idleTid) ∧ (p = .begin → b ≠ .blocked))
    (honly : ∀ p, k'.cont t = .idle p → t = idleTid)
    (hexit : ∀ u, u ∈ k'.exited ↔ u ∈ k.exited ∨ u = t ∧ b = .dying)
    (hit : k'.idleThread = k.idleThread) (hcr : k'.creating = k.creating)
    (hnext : k'.nextTid = k.nextTid) (hfreed : k'.freed = k.freed) : SchedCore k' := by
  have hne : ∀ u, u ≠ t → k'.status u = k.status u := fun u hu => by
    rw [hstatus, Function.update_of_ne hu]
  have heq : k'.status t = some b := by rw [hstatus, Function.update_self]
  have hws : ∀ x, (k'.sema x).waiters = some (k'.waitersOf x) ∧ (k'.waitersOf x).Nodup ∧
      ∀ u, u ∈ k'.waitersOf x ↔
        if u = t then b = .blocked ∧ k'.cont t = .down x else u ∈ k.waitersOf x := by
    intro x
    obtain ⟨ws, hws, hrest⟩ := hsema x
    have : k'.waitersOf x = ws := by simp [Kernel.waitersOf, hws]
    rw [this]
    exact ⟨hws, hrest⟩
  refine ⟨hready.1, fun u => ?_, fun x => (hws x).1, fun x => (hws x).2.1, fun x u => ?_, ?_,
    fun u p hu => ?_, ?_, fun u c hu => ?_, ?_, fun u hu => ?_, fun u hu => ?_, fun u hu => ?_, ?_, fun u r hur => ?_⟩
  · rw [hready.2, hit]
    by_cases hu : u = t
    · rw [if_pos hu, hu, heq]
      simp
    · rw [if_neg hu, hne u hu, hc.ready]
  · rw [(hws x).2.2]
    by_cases hu : u = t
    · rw [if_pos hu, hu, heq]
      simp
    · rw [if_neg hu, hne u hu, hcont u hu, hc.waiters]
  · rw [hit]
    by_cases hu : idleTid = t
    · obtain ⟨-, p, hp, hth, hb⟩ := hidle hu.symm
      exact ⟨p, hu ▸ hp, hth, fun h => by simpa [hu, heq] using hb h⟩
    · rw [hcont _ hu, hne _ hu]
      exact hc.idlePc
  · by_cases hut : u = t
    · exact hut ▸ honly p (hut ▸ hu)
    · rw [hcont u hut] at hu
      exact hc.idleOnly u p hu
  · by_cases hu : idleTid = t
    · rw [hu, heq]
      exact ⟨by simp, by simpa using (hidle hu.symm).1⟩
    · rw [hne _ hu]
      exact hc.idleAlive
  · rw [hcr] at hu
    have hct : c ≠ t := fun h => hfresh u (h ▸ hu)
    rw [hne c hct, hcont c hct]
    exact hc.creating u c hu
  · rw [hcr]
    exact hc.creator
  · rw [hnext] at hu
    obtain ⟨hs, hx⟩ := hc.unused u hu
    have hut : u ≠ t := fun h => hthread (h ▸ hs)
    rw [hne u hut, hexit]
    exact ⟨hs, by simp [hx, hut]⟩
  · rw [hexit]
    by_cases hut : u = t
    · subst hut
      rw [heq] at hu
      exact .inr ⟨rfl, Option.some.inj hu⟩
    · rw [hne u hut] at hu
      exact .inl (hc.dying u hu)
  · rw [hfreed]
    by_cases hut : u = t
    · subst hut
      rcases (hexit u).mp hu with hold | hnew
      · rcases hc.exited u hold with h | h
        · exact absurd h hlive
        · exact absurd h.1 hthread
      · rw [heq, hnew.2]
        exact .inl rfl
    · rw [hne u hut]
      refine hc.exited u (((hexit u).mp hu).resolve_right ?_)
      exact fun h => hut h.1
  · rw [hfreed]
    exact hc.freedNodup
  · rw [hfreed] at hur
    obtain ⟨h1, h2, h3, h4⟩ := hc.freed u r hur
    have hut : u ≠ t := fun h => hthread (h ▸ h4)
    rw [hne u hut]
    exact ⟨h1, h2, (hexit u).mpr (.inl h3), h4⟩

/-- A move that leaves the semaphores alone. -/
theorem SchedCore.sema_stay (hc : SchedCore k) (hout : ∀ x, t ∉ k.waitersOf x) {b : Status}
    {c : Cont} (hb : ∀ x, ¬ (b = .blocked ∧ c = .down x)) (x : SemaId) :
    ∃ ws, (k.sema x).waiters = some ws ∧ ws.Nodup ∧ ∀ u, u ∈ ws ↔
      if u = t then b = .blocked ∧ c = .down x else u ∈ k.waitersOf x := by
  refine ⟨k.waitersOf x, hc.semaInit x, hc.waitersNodup x, fun u => ?_⟩
  by_cases hu : u = t
  · rw [if_pos hu, hu]
    exact iff_of_false (hout x) (hb x)
  · rw [if_neg hu]

/-- A thread that is not blocked waits for no semaphore. -/
theorem SchedCore.not_waiting (hc : SchedCore k) (h : k.status t ≠ some .blocked) (x : SemaId) :
    t ∉ k.waitersOf x := fun hmem => h ((hc.waiters x t).mp hmem).1

/-- The next thread leaves the ready list and runs. -/
theorem SchedCore.pick (hc : SchedCore k) {n : Tid} {ready : List Tid}
    (h : k.readyList = n :: ready ∨
      (k.readyList = [] ∧ ready = [] ∧ n = idleTid ∧ k.idleThread = some idleTid)) :
    SchedCore ({ k with readyList := ready, cur := n }.setStatus n .running) := by
  have hn : k.status n = some .ready ∨ n = idleTid ∧ k.idleThread = some idleTid := by
    rcases h with h | h
    · exact .inl ((hc.ready n).mp (by simp [h])).1
    · exact .inr h.2.2
  have hidle := hc.idleAlive
  obtain ⟨p, hp, hid, hb⟩ := hc.idlePc
  have hdown : ∀ x, n ∉ k.waitersOf x := by
    intro x hmem
    have := (hc.waiters x n).mp hmem
    grind
  refine hc.move (t := n) (b := .running) ?_ ?_ (fun u hu => ?_) rfl (fun _ _ => rfl) ⟨?_, fun u => ?_⟩
    (hc.sema_stay hdown (by simp)) (fun he => ⟨by decide, p, he ▸ hp, hid, by simp⟩)
    (hc.idleOnly n) (by simp) rfl rfl rfl rfl
  · grind
  · grind
  · have := hc.creating u n hu
    grind
  · have := hc.readyNodup
    show ready.Nodup
    grind
  · have := hc.readyNodup
    show u ∈ ready ↔ _
    grind

/-- `schedule_tail` frees the thread that died. -/
theorem SchedCore.free (hc : SchedCore k) (ht : k.status t = some .dying) (hi : t ≠ initialThread)
    (hne : t ≠ k.cur) :
    SchedCore { k with
      status := Function.update k.status t none, freed := k.freed ++ [(t, k.cur)] } := by
  have hidle := hc.idleAlive
  obtain ⟨p, hp, hid, hb⟩ := hc.idlePc
  refine ⟨hc.readyNodup, fun u => ?_, hc.semaInit, hc.waitersNodup, fun x u => ?_,
    ⟨p, hp, hid, fun hb' => ?_⟩, hc.idleOnly, ?_, fun u c hu => ?_, hc.creator, fun u hu => ?_,
    fun u hu => ?_, fun u hu => ?_, ?_, fun u r hur => ?_⟩ <;> simp only [Function.update_apply] at *
  · have := hc.ready u
    grind
  · have := hc.waiters x u
    show u ∈ k.waitersOf x ↔ _
    grind
  · grind
  · grind
  · have := hc.creating u c hu
    grind
  · have := hc.unused u hu
    grind
  · have := hc.dying u
    grind
  · have := hc.exited u hu
    grind
  · rw [List.map_append, List.nodup_append]
    refine ⟨hc.freedNodup, by simp, fun a ha b hb => ?_⟩
    have := hc.freed
    grind
  · have := hc.freed u r
    have := hc.dying t ht
    grind

/-- **`schedule`** finds a thread, and its switch restores the invariant. -/
theorem SchedCore.schedule (hc : SchedCore k) (hr : ∀ t, k.status t ≠ some .running)
    (hd : ∀ t, k.status t = some .dying → t = initialThread ∨ t = k.cur) :
    ∃ k', k.schedule = some k' ∧ SchedInv k' := by
  obtain ⟨n, ready, hnext, hcase⟩ := hc.next hr
  have hn : k.status n ≠ none ∧ k.status n ≠ some .dying := by
    rcases hcase with h | h
    · rw [((hc.ready n).mp (by simp [h])).1]
      exact ⟨by decide, by decide⟩
    · rw [h.2.2.1]
      exact hc.idleAlive
  have hcore := (hc.pick hcase).setTicks 0
  have hrun : ∀ t, Function.update k.status n (some .running) t = some .running ↔ t = n := by
    intro t
    rw [Function.update_apply]
    have := hr t
    grind
  have hif : ¬ (k.status k.cur = some .running ∨ k.status n = none) :=
    not_or.mpr ⟨hr _, hn.1⟩
  simp only [Kernel.schedule, hnext, if_neg hif]
  by_cases hsame : k.cur = n
  · rw [if_pos hsame]
    refine ⟨_, rfl, hcore, hrun, fun t ht => ?_⟩
    simp only [Kernel.setStatus, Function.update_apply] at ht
    have := hd t
    grind
  rw [if_neg hsame]
  simp only [Kernel.scheduleTail]
  split
  · next hdy =>
    simp only [Kernel.setStatus_cur, if_neg hsame]
    refine ⟨_, rfl, hcore.free hdy.1 hdy.2 hsame, fun t => ?_, fun t ht => ?_⟩
    · have := hrun t
      simp only [Kernel.setStatus_status, Function.update_apply] at this ⊢
      grind
    · simp only [Kernel.setStatus_status, Function.update_apply] at ht
      have := hd t
      grind
  · next hdy =>
    refine ⟨_, rfl, hcore, hrun, fun t ht => ?_⟩
    simp only [Kernel.setStatus, Function.update_apply] at ht hdy
    have := hd t
    grind

/-! ## The operations -/

theorem SchedInv.cur_running (hi : SchedInv k) : k.status k.cur = some .running :=
  (hi.running k.cur).mpr rfl

theorem SchedInv.cur_not_created (hi : SchedInv k) (u : Tid) : k.creating u ≠ some k.cur := by
  intro hu
  have := (hi.creating u k.cur hu).1
  rw [hi.cur_running] at this
  cases this

theorem SchedInv.cur_not_idle (hi : SchedInv k) (h : ∀ p, k.cont k.cur ≠ .idle p) :
    k.cur ≠ idleTid := by
  intro he
  obtain ⟨p, hp, -⟩ := hi.idlePc
  exact h p (he ▸ hp)

/-- A current thread that has stopped running gives way to another. -/
theorem SchedInv.switch (hi : SchedInv k) {b : Status} (hc : SchedCore k') (hb : b ≠ .running)
    (hs : k'.status = Function.update k.status k.cur (some b)) (hcur : k'.cur = k.cur) :
    ∃ k'', k'.schedule = some k'' ∧ SchedInv k'' := by
  refine hc.schedule (fun t ht => ?_) fun t ht => ?_
  · rw [hs, Function.update_apply] at ht
    split at ht
    · exact hb (Option.some.inj ht)
    · next hne => exact hne ((hi.running t).mp ht)
  · rw [hs, Function.update_apply] at ht
    split at ht
    · next he => exact .inr (he.trans hcur.symm)
    · exact .inl (hi.dead t ht)

/-- The current thread changes its status and stays off the semaphores. -/
theorem SchedInv.cur_move (hi : SchedInv k) {b : Status} (hb : b ≠ .blocked ∨ ∀ x, k.cont k.cur ≠ .down x)
    {ready : List Tid} {exited : List Tid}
    (hready : ready.Nodup ∧ ∀ u, u ∈ ready ↔
      if u = k.cur then b = .ready ∧ k.idleThread ≠ some k.cur else u ∈ k.readyList)
    (hidle : k.cur = idleTid → b ≠ .dying ∧ (b = .blocked → k.cont k.cur ≠ .idle .begin))
    (hexit : ∀ u, u ∈ exited ↔ u ∈ k.exited ∨ u = k.cur ∧ b = .dying) :
    SchedCore ({ k with readyList := ready, exited := exited }.setStatus k.cur b) := by
  have hc := hi.toSchedCore
  have hrun := hi.cur_running
  refine hc.move (t := k.cur) (b := b) (by simp [hrun]) (by simp [hrun]) hi.cur_not_created rfl
    (fun _ _ => rfl) hready (hc.sema_stay (hc.not_waiting (by simp [hrun])) fun x => ?_)
    (fun he => ?_) (hc.idleOnly k.cur) hexit rfl rfl rfl rfl
  · rintro ⟨h1, h2⟩
    rcases hb with hb | hb
    · exact hb h1
    · exact hb x h2
  · obtain ⟨p, hp, hth, -⟩ := hc.idlePc
    obtain ⟨hd, hbl⟩ := hidle he
    refine ⟨hd, p, he ▸ hp, hth, fun h1 h2 => hbl h2 ?_⟩
    rw [he, hp, h1]

/-- A running thread is not on the ready list. -/
theorem SchedInv.ready_stay (hi : SchedInv k) {b : Status} (hb : b ≠ .ready) :
    k.readyList.Nodup ∧ ∀ u, u ∈ k.readyList ↔
      if u = k.cur then b = .ready ∧ k.idleThread ≠ some k.cur else u ∈ k.readyList := by
  refine ⟨hi.readyNodup, fun u => ?_⟩
  split
  · next he =>
    refine iff_of_false (fun hmem => ?_) fun h => hb h.1
    have := ((hi.ready u).mp hmem).1
    rw [he, hi.cur_running] at this
    cases this
  · exact Iff.rfl

theorem SchedInv.threadBlock (hi : SchedInv k) (hcont : ∀ x, k.cont k.cur ≠ .down x)
    (hb : k.cont k.cur ≠ .idle .begin) : ∃ k', k.threadBlock = some k' ∧ SchedInv k' :=
  hi.switch (b := .blocked) (hi.cur_move (.inr hcont) (hi.ready_stay (by decide))
    (fun _ => ⟨by decide, fun _ => hb⟩) (by simp)) (by decide) rfl rfl

theorem SchedInv.threadExit (hi : SchedInv k) (h : k.cont k.cur = .run) :
    ∃ k', k.threadExit = some k' ∧ SchedInv k' := by
  refine hi.switch (b := .dying) (hi.cur_move (.inl (by decide)) (hi.ready_stay (by decide))
    (fun he => ?_) (by simp)) (by decide) rfl rfl
  exact absurd he (hi.cur_not_idle (by simp [h]))

theorem SchedInv.threadYield (hi : SchedInv k) : ∃ k', k.threadYield = some k' ∧ SchedInv k' := by
  unfold Kernel.threadYield
  have hout := (hi.ready_stay (b := .running) (by decide)).2 k.cur
  by_cases he : k.idleThread = some k.cur
  · simp only [if_pos he]
    refine hi.switch (b := .ready) (hi.cur_move (.inl (by decide)) ⟨hi.readyNodup, fun u => ?_⟩
      (fun _ => ⟨by decide, by simp⟩) (by simp)) (by decide) rfl rfl
    split
    · next hu =>
      subst hu
      simpa [he] using hout
    · exact Iff.rfl
  · simp only [if_neg he]
    refine hi.switch (b := .ready) (hi.cur_move (.inl (by decide)) ⟨?_, fun u => ?_⟩
      (fun _ => ⟨by decide, by simp⟩) (by simp)) (by decide) rfl rfl
    · rw [List.nodup_append]
      have := hi.readyNodup
      grind
    · grind

/-- A blocked thread that waits for no semaphore, after the change of `sema`, is unblocked. -/
theorem SchedInv.unblock (hi : SchedInv k) (ht : k.status t = some .blocked)
    (hfresh : ∀ u, k.creating u ≠ some t) (hidle : t ≠ idleTid)
    {sema : SemaId → Semaphore} {cont : Tid → Cont} (hcont : ∀ u, u ≠ t → cont u = k.cont u)
    (honly : ∀ p, cont t ≠ .idle p)
    (hsema : ∀ x, ∃ ws, (sema x).waiters = some ws ∧ ws.Nodup ∧ ∀ u, u ∈ ws ↔
      u ≠ t ∧ u ∈ k.waitersOf x) :
    ∃ k', { k with sema := sema, cont := cont }.threadUnblock t = some k' ∧ SchedInv k' := by
  have hc := hi.toSchedCore
  unfold Kernel.threadUnblock
  refine ⟨_, if_pos ht, ?_, fun u => ?_, fun u hu => hi.dead u ?_⟩
  · have hnot : t ∉ k.readyList := by
      rw [hc.ready, ht]
      simp
    have hth : k.idleThread ≠ some t := by
      obtain ⟨p, -, hid, -⟩ := hc.idlePc
      rw [hid]
      split
      · simp
      · simpa using hidle.symm
    refine hc.move (t := t) (b := .ready) (by simp [ht]) (by simp [ht]) hfresh rfl hcont ⟨?_, fun u => ?_⟩
      (fun x => ?_) (fun he => absurd he hidle) (fun p h => absurd h (honly p)) (by simp)
      rfl rfl rfl rfl
    · show (k.readyList ++ [t]).Nodup
      rw [List.nodup_append]
      have := hc.readyNodup
      grind
    · show u ∈ k.readyList ++ [t] ↔ _
      grind
    · obtain ⟨ws, hws, hnd, hmem⟩ := hsema x
      refine ⟨ws, hws, hnd, fun u => ?_⟩
      rw [hmem]
      grind
  · show Function.update k.status t (some .ready) u = some .running ↔ u = k.cur
    have := hi.running u
    rw [Function.update_apply]
    grind
  · change Function.update k.status t (some .ready) u = some .dying at hu
    rw [Function.update_apply] at hu
    split at hu
    · cases hu
    · exact hu

/-- `thread_unblock` of a thread that blocked itself by `thread_block`. -/
theorem SchedInv.threadUnblock (hi : SchedInv k) (hrun : k.cont t = .run)
    (h : k.threadUnblock t = some k') : SchedInv k' := by
  have ht : k.status t = some .blocked := by
    unfold Kernel.threadUnblock at h
    split at h
    · assumption
    · cases h
  have hfresh : ∀ u, k.creating u ≠ some t := by
    intro u hu
    have := (hi.creating u t hu).2
    rw [hrun] at this
    cases this
  have hidle : t ≠ idleTid := by
    obtain ⟨p, hp, -⟩ := hi.idlePc
    rintro rfl
    rw [hrun] at hp
    cases hp
  have hsema : ∀ x, ∃ ws, (k.sema x).waiters = some ws ∧ ws.Nodup ∧
      ∀ u, u ∈ ws ↔ u ≠ t ∧ u ∈ k.waitersOf x := by
    intro x
    refine ⟨k.waitersOf x, hi.semaInit x, hi.waitersNodup x, fun u => ⟨fun hu => ⟨?_, hu⟩, And.right⟩⟩
    rintro rfl
    have := ((hi.waiters x u).mp hu).2
    rw [hrun] at this
    cases this
  obtain ⟨k'', he, hi'⟩ := hi.unblock ht hfresh hidle (fun _ _ => rfl) (by simp [hrun]) hsema
  rw [h] at he
  cases he
  exact hi'

/-- A semaphore whose waiters stay. -/
theorem SchedInv.setValue (hi : SchedInv k) (x : SemaId) (v : Nat) :
    SchedInv (k.setSema x { k.sema x with value := v }) := by
  have hw : ∀ y, (Function.update k.sema x { k.sema x with value := v } y).waiters =
      (k.sema y).waiters := by
    intro y
    by_cases hy : y = x
    · subst hy
      rw [Function.update_self]
    · rw [Function.update_of_ne hy]
  have hof : ∀ y, (k.setSema x { k.sema x with value := v }).waitersOf y = k.waitersOf y := by
    intro y
    simp only [Kernel.waitersOf, Kernel.setSema_sema, hw]
  refine ⟨⟨hi.readyNodup, hi.ready, fun y => ?_, fun y => ?_, fun y => ?_, hi.idlePc, hi.idleOnly, hi.idleAlive,
    hi.creating, hi.creator, hi.unused, hi.dying, hi.exited, hi.freedNodup, hi.freed⟩,
    hi.running, hi.dead⟩
  · rw [hof, Kernel.setSema_sema, hw, hi.semaInit]
  · rw [hof]
    exact hi.waitersNodup y
  · rw [hof]
    exact hi.waiters y

theorem SchedInv.semaUp (hi : SchedInv k) (x : SemaId) :
    ∃ k', k.semaUp x = some k' ∧ SchedInv k' := by
  have hinit := hi.semaInit x
  have hnd := hi.waitersNodup x
  have hother : ∀ s : Semaphore, ∀ y, y ≠ x → Function.update k.sema x s y = k.sema y :=
    fun s y hy => Function.update_of_ne hy ..
  unfold Kernel.semaUp
  cases hw : k.waitersOf x with
  | nil =>
    rw [hw] at hinit
    simp only [Threads.semaUp, hinit]
    have hup := hi.setValue x (((k.sema x).value + 1) % 2 ^ 32)
    simp only [hinit] at hup
    exact ⟨_, rfl, hup⟩
  | cons t ts =>
    rw [hw] at hinit hnd
    have hmem : t ∈ k.waitersOf x := by simp [hw]
    obtain ⟨hbl, hdown⟩ := (hi.waiters x t).mp hmem
    simp only [Threads.semaUp, hinit]
    refine hi.unblock hbl (fun u hu => ?_) ?_ (fun _ _ => rfl) (by simp [hdown]) fun y => ?_
    · have := (hi.creating u t hu).2
      rw [hdown] at this
      cases this
    · obtain ⟨p, hp, -⟩ := hi.idlePc
      rintro rfl
      rw [hdown] at hp
      cases hp
    · by_cases hy : y = x
      · subst hy
        refine ⟨ts, by simp, (List.nodup_cons.mp hnd).2, fun u => ?_⟩
        rw [hw]
        grind
      · refine ⟨k.waitersOf y, by rw [hother _ y hy]; exact hi.semaInit y, hi.waitersNodup y, fun u => ?_⟩
        refine ⟨fun hu => ⟨?_, hu⟩, fun hu => hu.2⟩
        rintro rfl
        have := ((hi.waiters y u).mp hu).2
        rw [hdown] at this
        exact hy (Cont.down.inj this).symm

/-- The running thread's place changes, to one where nothing is promised of it. -/
theorem SchedInv.setCont (hi : SchedInv k) {c : Cont} (hidle : k.cur ≠ idleTid)
    (honly : ∀ p, c ≠ .idle p) : SchedInv (k.setCont k.cur c) := by
  have hne : ∀ u, k.status u ≠ some .running → (k.setCont k.cur c).cont u = k.cont u := by
    intro u hu
    refine Function.update_of_ne ?_ ..
    rintro rfl
    exact hu hi.cur_running
  refine ⟨⟨hi.readyNodup, hi.ready, hi.semaInit, hi.waitersNodup, fun x t => ?_, ?_, fun u p hu => ?_,
    hi.idleAlive, fun u v huv => ?_, hi.creator, hi.unused, hi.dying, hi.exited, hi.freedNodup, hi.freed⟩,
    hi.running, hi.dead⟩
  · show t ∈ k.waitersOf x ↔ _
    rw [hi.waiters]
    refine and_congr_right fun (hb : k.status t = _) => ?_
    rw [hne t (by simp [hb])]
  · rw [Kernel.setCont_cont, Function.update_of_ne hidle.symm]
    exact hi.idlePc
  · rw [Kernel.setCont_cont, Function.update_apply] at hu
    split at hu
    · exact absurd hu (honly p)
    · exact hi.idleOnly u p hu
  · obtain ⟨hb, hf⟩ := hi.creating u v huv
    exact ⟨hb, by rw [hne v (by simp [hb]), hf]⟩

/-- The running thread joins the waiters of a semaphore and blocks. -/
theorem SchedInv.sleep (hi : SchedInv k) (hidle : k.cur ≠ idleTid) (x : SemaId) :
    ∃ k', ((k.setSema x { k.sema x with waiters := some (k.waitersOf x ++ [k.cur]) }).setCont k.cur
      (.down x)).threadBlock = some k' ∧ SchedInv k' := by
  have hc := hi.toSchedCore
  have hrun := hi.cur_running
  have hout : ∀ y, k.cur ∉ k.waitersOf y := hc.not_waiting (by simp [hrun])
  refine hi.switch (b := .blocked) ?_ (by decide) rfl rfl
  refine hc.move (t := k.cur) (b := .blocked) (by simp [hrun]) (by simp [hrun]) hi.cur_not_created rfl
    (fun u hu => Function.update_of_ne hu ..) (hi.ready_stay (by decide)) (fun y => ?_)
    (fun he => absurd he hidle) (by simp) (by simp) rfl rfl rfl rfl
  by_cases hy : y = x
  · subst hy
    refine ⟨k.waitersOf y ++ [k.cur], by simp, ?_, fun u => ?_⟩
    · rw [List.nodup_append]
      have := hi.waitersNodup y
      have := hout y
      grind
    · have := hout y
      simp only [Kernel.setStatus_cont, Kernel.setCont_cont, Function.update_self]
      grind
  · refine ⟨k.waitersOf y, ?_, hi.waitersNodup y, fun u => ?_⟩
    · simp only [Kernel.setStatus_sema, Kernel.setCont_sema, Kernel.setSema_sema,
        Function.update_of_ne hy]
      exact hi.semaInit y
    · have := hout y
      simp only [Kernel.setStatus_cont, Kernel.setCont_cont, Function.update_self]
      grind

/-- One pass of `sema_down`. -/
theorem SchedInv.semaTest (hi : SchedInv k) (hidle : k.cur ≠ idleTid) (x : SemaId) :
    ∃ k', k.semaTest x = some k' ∧ SchedInv k' := by
  unfold Kernel.semaTest
  split
  · next s hs =>
    obtain ⟨-, rfl⟩ := semaDown_pass hs
    exact ⟨_, rfl, (hi.setValue x _).setCont hidle (by simp)⟩
  · next s hs =>
    obtain ⟨-, ws, hws, rfl⟩ := semaDown_block hs
    have : ws = k.waitersOf x := by simp [Kernel.waitersOf, hws]
    rw [this]
    exact hi.sleep hidle x
  · next hs =>
    have := (semaDown_fault hs).2
    rw [hi.semaInit] at this
    cases this

/-- The first part of `thread_create`: the new thread is in no list. -/
theorem SchedInv.threadCreate (hi : SchedInv k) : SchedInv k.threadCreate := by
  have hc := hi.toSchedCore
  have hnew : k.status k.nextTid = none ∧ k.nextTid ∉ k.exited := hc.unused _ le_rfl
  have hcur := hi.cur_running
  have halive := hc.idleAlive
  obtain ⟨p, hp, hid, hb⟩ := hc.idlePc
  have hni : k.nextTid ≠ idleTid := by
    intro h
    exact halive.1 (h ▸ hnew.1)
  refine ⟨⟨hc.readyNodup, fun u => ?_, hc.semaInit, hc.waitersNodup, fun x u => ?_, ?_,
    fun u p hu => ?_, ?_, fun u c hu => ?_, fun u v c hu hv => ?_, fun u hu => ?_, fun u hu => ?_, fun u hu => ?_,
    hc.freedNodup, fun u r hur => ?_⟩, fun u => ?_, fun u hu => ?_⟩ <;>
    simp only [Kernel.threadCreate, Function.update_apply] at *
  · have := hc.ready u
    grind
  · have := hc.waiters x u
    show u ∈ k.waitersOf x ↔ _
    grind
  · grind
  · have := hc.idleOnly u p
    grind
  · grind
  · have := hc.creating u c
    grind
  · have := hc.creator u v c
    have := hc.creating u c
    have := hc.creating v c
    grind
  · have := hc.unused u
    grind
  · have := hc.dying u
    grind
  · have := hc.exited u hu
    grind
  · have := hc.freed u r hur
    grind
  · have := hi.running u
    grind
  · have := hi.dead u
    grind

/-- The end of `thread_create` makes the new thread ready. -/
theorem SchedInv.threadCreateEnd (hi : SchedInv k) (ht : k.creating k.cur = some t) :
    ∃ k', k.threadCreateEnd t = some k' ∧ SchedInv k' := by
  have hc := hi.toSchedCore
  obtain ⟨hbl, hfr⟩ := hc.creating _ _ ht
  have hclear : SchedInv { k with creating := Function.update k.creating k.cur none } := by
    refine ⟨⟨hc.readyNodup, hc.ready, hc.semaInit, hc.waitersNodup, hc.waiters, hc.idlePc,
      hc.idleOnly, hc.idleAlive, fun u c hu => hc.creating u c ?_, fun u v c hu hv => ?_, hc.unused,
      hc.dying, hc.exited, hc.freedNodup, hc.freed⟩, hi.running, hi.dead⟩
    · simp only [Function.update_apply] at hu
      grind
    · have := hc.creator u v c
      simp only [Function.update_apply] at hu hv
      grind
  refine @SchedInv.unblock _ _ hclear hbl (fun u hu => ?_) ?_ k.sema _
    (fun u hu => Function.update_of_ne hu ..) (by simp) fun x => ?_
  · simp only [Function.update_apply] at hu
    have := hc.creator u k.cur t
    grind
  · obtain ⟨p, hp, -⟩ := hc.idlePc
    rintro rfl
    rw [hfr] at hp
    cases hp
  · refine ⟨k.waitersOf x, hc.semaInit x, hc.waitersNodup x, fun u => ⟨fun hu => ⟨?_, hu⟩, And.right⟩⟩
    rintro rfl
    have := ((hc.waiters x u).mp hu).2
    rw [hfr] at this
    cases this

/-- `idle` moves on after its first statement. -/
theorem SchedInv.setIdlePc (hi : SchedInv k) {p q : IdlePc} (hp : k.cont k.cur = .idle p)
    (hpb : p ≠ .begin) (hqb : q ≠ .begin) : SchedInv (k.setCont k.cur (.idle q)) := by
  have hc := hi.toSchedCore
  have hcur : k.cur = idleTid := hc.idleOnly _ _ hp
  have hrun := hi.cur_running
  refine ⟨⟨hc.readyNodup, hc.ready, hc.semaInit, hc.waitersNodup, fun x u => ?_, ?_, fun u r hu => ?_,
    hc.idleAlive, fun u c hu => ?_, hc.creator, hc.unused, hc.dying, hc.exited, hc.freedNodup,
    hc.freed⟩, hi.running, hi.dead⟩
  · show u ∈ k.waitersOf x ↔ _
    have := hc.waiters x u
    simp only [Kernel.setCont_cont, Kernel.setCont_status, Function.update_apply]
    grind
  · obtain ⟨p', hp', hid, -⟩ := hc.idlePc
    rw [← hcur, hp] at hp'
    cases hp'
    refine ⟨q, by simp [hcur], ?_, fun h => absurd h hqb⟩
    rw [if_neg hqb]
    rwa [if_neg hpb] at hid
  · have := hc.idleOnly u r
    simp only [Kernel.setCont_cont, Function.update_apply] at hu
    grind
  · have := hc.creating u c hu
    simp only [Kernel.setCont_cont, Kernel.setCont_status, Function.update_apply]
    grind

/-- `idle` stores `idle_thread`, while it runs and so is on no list. -/
theorem SchedInv.storeIdle (hi : SchedInv k) (hp : k.cont k.cur = .idle .begin) :
    SchedInv ({ k with idleThread := some k.cur }.setCont k.cur (.idle .assigned)) := by
  have hc := hi.toSchedCore
  have hcur : k.cur = idleTid := hc.idleOnly _ _ hp
  have hrun := hi.cur_running
  have hnone : k.idleThread = none := by
    obtain ⟨p, hp', hid, -⟩ := hc.idlePc
    rw [← hcur, hp] at hp'
    cases hp'
    exact hid
  refine ⟨⟨hc.readyNodup, fun u => ?_, hc.semaInit, hc.waitersNodup, fun x u => ?_, ?_,
    fun u r hu => ?_, hc.idleAlive, fun u c hu => ?_, hc.creator, hc.unused, hc.dying, hc.exited,
    hc.freedNodup, hc.freed⟩, hi.running, hi.dead⟩
  · have := hc.ready u
    simp only [Kernel.setCont_readyList, Kernel.setCont_status, Kernel.setCont_idleThread]
    grind
  · show u ∈ k.waitersOf x ↔ _
    have := hc.waiters x u
    simp only [Kernel.setCont_cont, Kernel.setCont_status, Function.update_apply]
    grind
  · exact ⟨.assigned, by simp [hcur], by simp [hcur], by simp⟩
  · have := hc.idleOnly u r
    simp only [Kernel.setCont_cont, Function.update_apply] at hu
    grind
  · have := hc.creating u c hu
    simp only [Kernel.setCont_cont, Kernel.setCont_status, Function.update_apply]
    grind

/-- The statements of the kernel's own functions. -/
theorem SchedInv.advance (hi : SchedInv k) (h : k.advance (k.cont k.cur) = some k') :
    SchedInv k' := by
  cases hcont : k.cont k.cur with
  | run | fresh =>
    rw [hcont] at h
    cases h
  | down x =>
    obtain ⟨k1, h1, hi1⟩ := hi.semaTest (hi.cur_not_idle (by simp [hcont])) x
    rw [hcont, Kernel.advance, h1] at h
    exact Option.some.inj h ▸ hi1
  | start =>
    obtain ⟨k1, h1, hi1⟩ := hi.semaTest (hi.cur_not_idle (by simp [hcont])) idleStarted
    rw [hcont, Kernel.advance, h1] at h
    exact Option.some.inj h ▸ hi1
  | idle p =>
    rw [hcont] at h
    cases p with
    | begin =>
      cases h
      exact hi.storeIdle hcont
    | assigned =>
      obtain ⟨k1, h1, hi1⟩ := (hi.setIdlePc (q := .loop) hcont (by decide)
        (by decide)).semaUp idleStarted
      rw [Kernel.advance, h1] at h
      exact Option.some.inj h ▸ hi1
    | loop =>
      obtain ⟨k1, h1, hi1⟩ := (hi.setIdlePc (q := .halt) hcont (by decide) (by decide)).threadBlock
        (by simp) (by simp)
      rw [Kernel.advance, h1] at h
      exact Option.some.inj h ▸ hi1
    | halt =>
      cases h
      exact hi.setIdlePc hcont (by decide) (by decide)

theorem SchedInv.setTicks (hi : SchedInv k) (n : Nat) : SchedInv { k with threadTicks := n } :=
  ⟨hi.toSchedCore.setTicks n, hi.running, hi.dead⟩

theorem SchedInv.threadTick (hi : SchedInv k) : ∃ k', k.threadTick = some k' ∧ SchedInv k' := by
  have hi' := hi.setTicks (k.threadTicks + 1)
  simp only [Kernel.threadTick]
  split
  · exact hi'.threadYield
  · exact ⟨_, rfl, hi'⟩

/-- An operation that returns, and whose result keeps the invariant. -/
theorem inv_of_exists {o : Option Kernel} (he : ∃ k', o = some k' ∧ SchedInv k')
    (h : o = some k') : SchedInv k' := by
  obtain ⟨k1, h1, hi1⟩ := he
  rw [h] at h1
  exact Option.some.inj h1 ▸ hi1

theorem schedStep_inv {a : SchedOp} (hi : SchedInv k) (hp : Proper k a)
    (h : schedStep k a = some k') : SchedInv k' := by
  unfold schedStep at h
  cases a with
  | tick =>
    simp only [Option.ite_none_right_eq_some] at h
    exact inv_of_exists hi.threadTick h.2
  | unblock t =>
    simp only [Option.ite_none_right_eq_some] at h
    exact hi.threadUnblock hp h.2
  | up x =>
    simp only [Option.ite_none_right_eq_some] at h
    exact inv_of_exists (hi.semaUp x) h.2
  | yield =>
    simp only [Option.ite_none_right_eq_some] at h
    exact inv_of_exists hi.threadYield h.2
  | block =>
    simp only [Option.ite_none_right_eq_some] at h
    exact inv_of_exists (hi.threadBlock (by simp [h.1.1]) (by simp [h.1.1])) h.2
  | exit =>
    simp only [Option.ite_none_right_eq_some] at h
    exact inv_of_exists (hi.threadExit h.1.1) h.2
  | create page =>
    simp only [Option.ite_none_right_eq_some, Option.some.injEq] at h
    rw [← h.2]
    split
    · exact hi.threadCreate
    · exact hi
  | createEnd =>
    simp only [Option.ite_none_right_eq_some] at h
    split at h
    · next t ht => exact inv_of_exists (hi.threadCreateEnd ht) h.2
    · cases h.2
  | down x =>
    simp only [Option.ite_none_right_eq_some] at h
    exact inv_of_exists (hi.semaTest (hi.cur_not_idle (by simp [h.1])) x) h.2
  | advance => exact hi.advance h

theorem SchedInv.reach (hi : SchedInv k) (h : Reach schedStep Proper k k') : SchedInv k' :=
  h.invariant hi fun _ _ _ hi hp hs => schedStep_inv hi hp hs

end

/-- **The scheduler's invariant.** Between operations one thread runs; the ready list
holds each ready thread but `idle_thread` once, the waiters of a semaphore each thread
once, and no thread is in two lists; a dying thread is in none; and the page of every
thread that has exited has been freed once, on another thread, except that of the
initial thread. -/
theorem scheduler_invariant {v : SemaId → Nat} {k : Kernel}
    (h : Reach schedStep Proper (bootKernel v) k) :
    (∃! t, k.status t = some .running) ∧
    k.readyList.Nodup ∧
    (∀ t, t ∈ k.readyList ↔ k.status t = some .ready ∧ k.idleThread ≠ some t) ∧
    (∀ t, k.idleThread = some t → t ∉ k.readyList) ∧
    (∀ x, (k.waitersOf x).Nodup) ∧
    (∀ t x, t ∈ k.waitersOf x → t ∉ k.readyList ∧ ∀ y, t ∈ k.waitersOf y → y = x) ∧
    (∀ t, k.status t = some .dying → t ∉ k.readyList ∧ ∀ x, t ∉ k.waitersOf x) ∧
    (∀ t ∈ k.exited, t ≠ initialThread → (k.freed.map Prod.fst).count t = 1) ∧
    (∀ t r, (t, r) ∈ k.freed → t ∈ k.exited ∧ t ≠ initialThread ∧ r ≠ t) := by
  have hi := (bootKernel_inv v).reach h
  have hready : ∀ t, k.status t ≠ some .ready → t ∉ k.readyList :=
    fun t hne hmem => hne ((hi.ready t).mp hmem).1
  refine ⟨⟨k.cur, hi.cur_running, fun t ht => (hi.running t).mp ht⟩, hi.readyNodup, hi.ready,
    fun t ht hmem => ((hi.ready t).mp hmem).2 ht, hi.waitersNodup, fun t x hx => ?_, fun t ht => ?_,
    fun t ht hne => ?_, fun t r htr => ?_⟩
  · obtain ⟨hb, hd⟩ := (hi.waiters x t).mp hx
    refine ⟨hready t (by simp [hb]), fun y hy => ?_⟩
    have := ((hi.waiters y t).mp hy).2
    rw [hd] at this
    exact (Cont.down.inj this).symm
  · exact ⟨hready t (by simp [ht]), hi.not_waiting (by simp [ht])⟩
  · rcases hi.exited t ht with hd | ⟨-, r, hr⟩
    · exact absurd (hi.dead t hd) hne
    · exact List.count_eq_one_of_mem hi.freedNodup (List.mem_map.mpr ⟨(t, r), hr, rfl⟩)
  · obtain ⟨h1, h2, h3, -⟩ := hi.freed t r htr
    exact ⟨h3, h2, h1.symm⟩

/-- `thread_start` up to its return on the initial thread. -/
def startUp : List SchedOp := [.advance, .advance, .advance, .advance, .advance]

/-- A thread is created, the initial thread blocks, the new thread exits, and its page is
freed by `schedule_tail` on the idle thread. -/
theorem page_freed_on_idle :
    ∃ k, runFrom (guarded schedStep Proper) (bootKernel fun _ => 0)
        (startUp ++ [.create true, .createEnd, .block, .exit]) = some k ∧
      k.cur = idleTid ∧ k.exited = [3] ∧ (k.freed.map Prod.fst).count 3 = 1 := by
  refine ⟨_, rfl, rfl, rfl, ?_⟩
  exact (scheduler_invariant (v := fun _ => 0) (reach_of_guarded
    (startUp ++ [.create true, .createEnd, .block, .exit]) rfl)).2.2.2.2.2.2.2.1 3
      List.mem_cons_self (by decide)

/-- Three runs after `thread_start`. The initial thread exits, and no later step frees its
page, which is not from the page allocator. A thread that waits for a semaphore, and the
idle thread, are passed to `thread_unblock`: the one is in two lists, the other on the
ready list. -/
theorem initial_thread_never_freed :
    (∃ k, runFrom schedStep (bootKernel fun _ => 0) (startUp ++ [.exit]) = some k ∧
      k.status initialThread = some .dying ∧ k.cur = idleTid ∧
      ∀ k', Reach schedStep Proper k k' → ∀ r, (initialThread, r) ∉ k'.freed) ∧
    (∃ k, runFrom schedStep (bootKernel fun _ => 0)
        (startUp ++ [.create true, .createEnd, .down 1, .unblock initialThread]) = some k ∧
      initialThread ∈ k.readyList ∧ initialThread ∈ k.waitersOf 1) ∧
    (∃ k, runFrom schedStep (bootKernel fun _ => 0) (startUp ++ [.unblock idleTid]) = some k ∧
      k.idleThread = some idleTid ∧ idleTid ∈ k.readyList) := by
  refine ⟨⟨_, rfl, rfl, rfl, fun k' h r hr => ?_⟩, ⟨_, rfl, by decide, by decide⟩,
    ⟨_, rfl, rfl, by decide⟩⟩
  have hstart := (bootKernel_inv fun _ => 0).reach (reach_of_guarded (startUp ++ [.exit]) rfl)
  exact ((hstart.reach h).freed initialThread r hr).2.1 rfl

end Pintos.Threads
