import Mathlib.Logic.Function.Basic
import Pintos.Base.Reach
import Pintos.Threads.Synch

/-!
# Processes and their `child_status` records (userprog/process.c)

Any number of processes, each at one statement of `start_process`,
`process_execute`, `process_wait` or `process_exit`. A label runs one statement of
one thread, so a preemption may fall between any two of them. `process_execute` up
to `thread_create` works on memory no other thread can reach and is one step.

A `child_status` is a block of memory with a number that is never given out again.
Every statement says which blocks it touches: touching a freed one ends the run
with `useAfterFree`, a failed ASSERT or a wild pointer ends it with `panic`.
-/

namespace Pintos.Userprog

open Pintos.Base Pintos.Threads

abbrev RecId := Nat

/-- `TID_ERROR` -/
def tidError : Int := -1

/-- `struct child_status`. The last three fields are not in the struct: how often the
block was freed, who allocated it and which thread was created for it. -/
structure Rec where
  pid : Int
  exitStatus : Int
  refCnt : Int
  /-- `cs_lock.holder` -/
  holder : Option Tid
  /-- `cs_lock.semaphore` -/
  lockSema : Semaphore
  semaExec : Semaphore
  freed : Nat
  owner : Tid
  child : Option Tid
  deriving DecidableEq, Repr

/-- What `malloc` leaves in a new block. A list is either unusable or happens to be
a linked empty one. -/
structure Garbage where
  pid : Int
  exitStatus : Int
  holder : Option Tid
  lockValue : Nat
  lockList : Bool
  semaValue : Nat
  semaList : Bool

/-- The block after `ref_cnt = 2`. -/
def Garbage.toRec (g : Garbage) (owner : Tid) (child : Option Tid) : Rec where
  pid := g.pid
  exitStatus := g.exitStatus
  refCnt := 2
  holder := g.holder
  lockSema := ⟨g.lockValue, if g.lockList then some [] else none⟩
  semaExec := ⟨g.semaValue, if g.semaList then some [] else none⟩
  freed := 0
  owner := owner
  child := child

/-- The three places that take `cs_lock`. -/
inductive Site where
  /-- `process_wait (x)`; `found` says whether the loop broke, so that `el` is the
  element of the record and not the end of the list. -/
  | wait (x : Int) (found : Bool)
  /-- The part of `process_exit` on `cs_parent`. -/
  | child
  /-- The loop of `process_exit`: records after this one, `children_to_delete`. -/
  | loop (rest del : List RecId)
  deriving DecidableEq, Repr

/-- The stores of `process_execute` after `thread_create`. -/
inductive Init where
  | semaValue | semaList | lockHolder | lockValue | lockList | push | storePid
  deriving DecidableEq, Repr

inductive Pc where
  | absent
  -- start_process
  | load (c : RecId)
  | storeErr (c : RecId)
  | ack (c : RecId)
  | user
  -- process_execute
  | init (i : Init) (c : RecId) (tid : Int)
  | execDown (c : RecId)
  | readPid (c : RecId)
  | execRemove (c : RecId)
  | execFree (c : RecId)
  | execReturn (c : Option RecId) (v : Int)
  -- process_wait
  | scan (x : Int) (cs : Option RecId) (rest : List RecId)
  | scanNext (x : Int) (c : RecId) (rest : List RecId)
  | waitDown (x : Int) (found : Bool) (c : RecId)
  | waitRead (x : Int) (found : Bool) (c : RecId)
  | waitRemove (x : Int) (found : Bool) (c : RecId) (v : Int)
  | waitFree (x : Int) (c : RecId) (v : Int)
  | waitReturn (x : Int) (c : Option RecId) (v : Int)
  -- cs_lock and what it protects
  | acquire (k : Site) (c : RecId)
  | hold (k : Site) (c : RecId)
  | dec (k : Site) (c : RecId)
  | test (k : Site) (c : RecId)
  | release (k : Site) (c : RecId) (b : Bool)
  | releaseUp (k : Site) (c : RecId) (b : Bool)
  -- process_exit
  | exitBegin
  | exitUp (c : RecId)
  | exitFree (c : RecId)
  | loop (rest del : List RecId)
  | enlist (c : RecId) (rest del : List RecId)
  | loopNext (c : RecId) (rest del : List RecId)
  | delete (del : List RecId)
  | delFree (c : RecId) (del : List RecId)
  | dead
  deriving DecidableEq, Repr

/-- How a process came to `thread_exit`. -/
inductive Fate where
  /-- `exit (status)` -/
  | exit (status : Int)
  /-- `kill`, or an unknown system call -/
  | killed
  /-- `load` failed -/
  | unloaded
  deriving DecidableEq, Repr

structure Thread where
  pc : Pc
  blocked : Bool
  csList : List RecId
  csParent : Option RecId
  /-- `success` in `start_process`, once `load` has returned -/
  success : Option Bool
  /-- History: set on the way to `thread_exit`. -/
  fate : Option Fate
  deriving DecidableEq, Repr

def Thread.absent : Thread := ⟨.absent, false, [], none, none, none⟩

inductive Fault where
  | useAfterFree
  | panic
  deriving DecidableEq, Repr

structure State where
  thread : Tid → Thread
  recs : RecId → Rec
  nextTid : Tid
  nextRec : RecId
  fault : Option Fault

/-- The outcomes of the allocations of `process_execute`. -/
structure ExecEnv where
  /-- `fn_copy` and `fn_copy2` -/
  page : Bool
  page2 : Bool
  /-- the command line has a first word -/
  name : Bool
  /-- `malloc` of the record -/
  block : Option Garbage
  /-- the page and the bitmap of the new thread -/
  thread : Bool
  bitmap : Bool

inductive Choice where
  | go
  | exec (m : ExecEnv)
  | wait (x : Int)
  | exit (v : Int)
  | kill
  | load (ok : Bool)
  | malloc (ok : Bool)

/-- One statement of a thread: the records it touches and, unless it panics, the
thread afterwards, a record it writes and a thread it unblocks. -/
structure Act where
  th : Thread
  write : Option (RecId × Rec)
  wake : Option Tid

structure Move where
  touched : List RecId
  act : Option Act

section

variable (t : Tid) (th : Thread) (recs : RecId → Rec)

/-- A statement that touches `cs` and goes on at `pc`. -/
def goto (cs : List RecId) (pc : Pc) : Move := ⟨cs, some ⟨{ th with pc }, none, none⟩⟩

/-- A store to the record `c`. -/
def store (c : RecId) (r : Rec) (pc : Pc) : Move := ⟨[c], some ⟨{ th with pc }, some (c, r), none⟩⟩

def panicked (cs : List RecId) : Move := ⟨cs, none⟩

/-- `sema_down` on a semaphore of the record `c`. -/
def down (c : RecId) (sema : Semaphore) (put : Semaphore → Rec) (pc : Pc) : Move :=
  match semaDown sema t with
  | .pass sema' => store th c (put sema') pc
  | .block sema' => ⟨[c], some ⟨{ th with blocked := true }, some (c, put sema'), none⟩⟩
  | .fault => panicked [c]

/-- `sema_up` on a semaphore of the record `c`. -/
def up (th : Thread) (c : RecId) (sema : Semaphore) (put : Semaphore → Rec) : Move :=
  match semaUp sema with
  | none => panicked [c]
  | some (sema', w) => ⟨[c], some ⟨th, some (c, put sema'), w⟩⟩

/-- `free (c)` -/
def freeRec (c : RecId) (pc : Pc) : Move :=
  store th c { recs c with freed := (recs c).freed + 1 } pc

/-- The elements next to `c`: what `list_remove` writes besides the list itself. -/
def neighbours (c : RecId) : List RecId → List RecId
  | a :: b :: l =>
    if a = c then [b] else if b = c then a :: l.head?.toList else neighbours c (b :: l)
  | _ => []

/-- `list_remove` of the record `c` from `cs_list`. -/
def listRemove (c : RecId) (pc : Pc) : Move :=
  ⟨c :: neighbours c th.csList, some ⟨{ th with pc, csList := th.csList.erase c }, none, none⟩⟩

/-- The stores of `process_execute` after `thread_create`. -/
def initMove (c : RecId) (tid : Int) : Init → Move
  | .semaValue =>
    store th c { recs c with semaExec := { (recs c).semaExec with value := 0 } }
      (.init .semaList c tid)
  | .semaList =>
    store th c { recs c with semaExec := { (recs c).semaExec with waiters := some [] } }
      (.init .lockHolder c tid)
  | .lockHolder => store th c { recs c with holder := none } (.init .lockValue c tid)
  | .lockValue =>
    store th c { recs c with lockSema := { (recs c).lockSema with value := 1 } }
      (.init .lockList c tid)
  | .lockList =>
    store th c { recs c with lockSema := { (recs c).lockSema with waiters := some [] } }
      (.init .push c tid)
  | .push =>
    ⟨c :: th.csList.head?.toList,
      some ⟨{ th with pc := .init .storePid c tid, csList := c :: th.csList }, none, none⟩⟩
  | .storePid => store th c { recs c with pid := tid } (.execDown c)

/-- Where the critical section starts. -/
def Site.body (k : Site) (c : RecId) : Pc :=
  match k with
  | .wait .. => .test k c
  | .child | .loop .. => .dec k c

/-- The test of `ref_cnt`. -/
def Site.tested (k : Site) (c : RecId) (refCnt : Int) : Pc :=
  match k with
  | .wait .. => .release k c (refCnt = 2)
  | .child => .release k c (refCnt = 0)
  | .loop rest del => if refCnt = 0 then .enlist c rest del else .release k c false

/-- What follows `lock_release`. -/
def Site.after (k : Site) (c : RecId) (b : Bool) : Pc :=
  match k with
  | .wait x found => if b then .waitDown x found c else .waitRead x found c
  | .child => if b then .exitFree c else .exitUp c
  | .loop rest del => .loopNext c rest del

/-- The next statement of thread `t`. `none`: the thread does not exist, or the
choice does not belong to the statement. -/
def move : Pc → Choice → Option Move
  | .load c, .load ok =>
    some ⟨[c], some ⟨{ th with pc := if ok then .ack c else .storeErr c, success := some ok },
      none, none⟩⟩
  | .storeErr c, .go => some (store th c { recs c with pid := tidError } (.ack c))
  | .ack c, .go =>
    let th' : Thread :=
      if th.success = some true then { th with pc := .user }
      else { th with pc := .exitBegin, fate := some .unloaded }
    some (up th' c (recs c).semaExec fun sema => { recs c with semaExec := sema })
  | .user, .wait x => some (goto th [] (.scan x none th.csList))
  | .user, .exit v =>
    match th.csParent with
    | none => some (panicked [])
    | some c =>
      some ⟨[c], some ⟨{ th with pc := .exitBegin, fate := some (.exit v) },
        some (c, { recs c with exitStatus := v }), none⟩⟩
  | .user, .kill =>
    some ⟨[], some ⟨{ th with pc := .exitBegin, fate := some .killed }, none, none⟩⟩
  | .init i c tid, .go => some (initMove th recs c tid i)
  | .execDown c, .go =>
    some (down t th c (recs c).semaExec (fun sema => { recs c with semaExec := sema })
      (.readPid c))
  | .readPid c, .go =>
    some (goto th [c] (if (recs c).pid = tidError then .execRemove c
      else .execReturn (some c) (recs c).pid))
  | .execRemove c, .go => some (listRemove th c (.execFree c))
  | .execFree c, .go => some (freeRec th recs c (.execReturn (some c) tidError))
  | .execReturn _ _, .go => some (goto th [] .user)
  | .scan x none [], .go => some (goto th [] (.waitReturn x none (-1)))
  | .scan x (some c) [], .go => some (goto th [] (.acquire (.wait x false) c))
  | .scan x _ (c :: rest), .go =>
    some (goto th [c] (if (recs c).pid = x then .acquire (.wait x true) c
      else .scanNext x c rest))
  | .scanNext x c rest, .go => some (goto th [c] (.scan x (some c) rest))
  | .acquire k c, .go =>
    if (recs c).holder = some t then some (panicked [c])
    else some (down t th c (recs c).lockSema (fun sema => { recs c with lockSema := sema })
      (.hold k c))
  | .hold k c, .go => some (store th c { recs c with holder := some t } (k.body c))
  | .dec k c, .go =>
    some (store th c { recs c with refCnt := (recs c).refCnt - 1 } (.test k c))
  | .test k c, .go => some (goto th [c] (k.tested c (recs c).refCnt))
  | .release k c b, .go =>
    if (recs c).holder = some t then
      some (store th c { recs c with holder := none } (.releaseUp k c b))
    else some (panicked [c])
  | .releaseUp k c b, .go =>
    some (up { th with pc := k.after c b } c (recs c).lockSema
      fun sema => { recs c with lockSema := sema })
  | .waitDown x found c, .go =>
    some (down t th c (recs c).semaExec (fun sema => { recs c with semaExec := sema })
      (.waitRead x found c))
  | .waitRead x found c, .go => some (goto th [c] (.waitRemove x found c (recs c).exitStatus))
  | .waitRemove x true c v, .go => some (listRemove th c (.waitFree x c v))
  -- `el` is the end of the list, which is not interior.
  | .waitRemove _ false _ _, .go => some (panicked [])
  | .waitFree x c v, .go => some (freeRec th recs c (.waitReturn x (some c) v))
  | .waitReturn _ _ _, .go => some (goto th [] .user)
  | .exitBegin, .go =>
    match th.csParent with
    | none => some (goto th [] (.loop th.csList []))
    | some c => some (goto th [] (.acquire .child c))
  | .exitUp c, .go =>
    some (up { th with pc := .loop th.csList [] } c (recs c).semaExec
      fun sema => { recs c with semaExec := sema })
  | .exitFree c, .go => some (freeRec th recs c (.loop th.csList []))
  | .loop [] del, .go => some (goto th [] (.delete del))
  | .loop (c :: rest) del, .go => some (goto th [] (.acquire (.loop rest del) c))
  | .enlist c rest del, .malloc ok =>
    if ok then some (goto th [] (.release (.loop rest (c :: del)) c true))
    else some (panicked [])
  | .loopNext c rest del, .go => some (goto th [c] (.loop rest del))
  | .delete [], .go => some (goto th [] .dead)
  | .delete (c :: del), .go => some (listRemove th c (.delFree c del))
  | .delFree c del, .go => some (freeRec th recs c (.delete del))
  | _, _ => none

end

/-- `thread_unblock` -/
def wakeThread (f : Tid → Thread) : Option Tid → Tid → Thread
  | none => f
  | some w => Function.update f w { f w with blocked := false }

def State.fail (s : State) (e : Fault) : State := { s with fault := some e }

/-- Carry out a statement of thread `t`. -/
def State.apply (s : State) (t : Tid) (m : Move) : State :=
  if m.touched.any (fun c => (s.recs c).freed ≠ 0) then s.fail .useAfterFree
  else
    match m.act with
    | none => s.fail .panic
    | some a =>
      { s with
        thread := wakeThread (Function.update s.thread t a.th) a.wake
        recs := match a.write with
          | none => s.recs
          | some (c, r) => Function.update s.recs c r }

/-- `process_execute` by thread `t` up to the return of `thread_create`. -/
def processExecute (s : State) (t : Tid) (m : ExecEnv) : State :=
  let th := s.thread t
  if !m.page then
    { s with thread := Function.update s.thread t { th with pc := .execReturn none tidError } }
  -- `strlcpy` to a null `fn_copy2`, a store through a null `cs`
  else if !m.page2 then s.fail .panic
  else
    match m.block with
    | none => s.fail .panic
    | some g =>
      let c := s.nextRec
      if !m.thread then
        { s with
          thread := Function.update s.thread t { th with pc := .init .semaValue c tidError }
          recs := Function.update s.recs c (g.toRec t none)
          nextRec := c + 1 }
      -- `ASSERT (name != NULL)`, "bitmap too big!!"
      else if !(m.name && m.bitmap) then s.fail .panic
      else
        let child : Thread := ⟨.load c, false, [], some c, none, none⟩
        { s with
          thread := Function.update (Function.update s.thread s.nextTid child) t
            { th with pc := .init .semaValue c s.nextTid }
          recs := Function.update s.recs c (g.toRec t (some s.nextTid))
          nextTid := s.nextTid + 1
          nextRec := c + 1 }

structure Label where
  t : Tid
  choice : Choice

def Choice.env? : Choice → Option ExecEnv
  | .exec m => some m
  | _ => none

/-- One statement of one thread that is not blocked. -/
def procStep (s : State) (a : Label) : Option State :=
  if s.fault ≠ none ∨ (s.thread a.t).blocked then none
  else
    match a.choice.env? with
    | some m => if (s.thread a.t).pc = .user then some (processExecute s a.t m) else none
    | none => (move a.t (s.thread a.t) s.recs (s.thread a.t).pc a.choice).map (s.apply a.t)

/-- The initial thread; the idle thread has taken tid 2. -/
def State.init : State where
  thread := Function.update (fun _ => Thread.absent) 1 { Thread.absent with pc := .user }
  recs := fun _ => ⟨0, 0, 0, none, ⟨0, none⟩, ⟨0, none⟩, 0, 0, none⟩
  nextTid := 3
  nextRec := 0
  fault := none

end Pintos.Userprog
