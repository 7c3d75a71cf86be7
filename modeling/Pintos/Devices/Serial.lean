import Pintos.Devices.Intq

/-!
# The serial port (devices/serial.c, devices/input.c)

Output bytes go to the transmit register by polling until `serial_init_queue`, and then
through an interrupt queue. What runs with interrupts off up to its end or to a sleep is one
step: a call of `serial_putc`, of `serial_flush` or of `input_getc`, and the interrupt handler,
for which the device answers with the bytes it has received and with how often it is ready
to transmit. `main` has printed before it calls `serial_init_queue`, so that nobody else is
in `init_poll` then.
-/

namespace Pintos.Devices

open Pintos.Base Pintos.Threads

/-! ## The bytes in a queue -/

/-- The bytes in the queue, oldest first. -/
def Intq.bytes (q : Intq) : List UInt8 :=
  (List.range ((q.head + intqBufsize - q.tail) % intqBufsize)).map fun i =>
    q.buf ((q.tail + i) % intqBufsize)

theorem bytes_eq_nil {q : Intq} (hh : q.head < intqBufsize) (ht : q.tail < intqBufsize) :
    q.bytes = [] ↔ intqEmpty q = true := by
  simp only [Intq.bytes, List.map_eq_nil_iff, List.range_eq_nil, intqEmpty, decide_eq_true_iff,
    intqBufsize] at *
  omega

theorem bytes_getc {q : Intq} (hh : q.head < intqBufsize) (ht : q.tail < intqBufsize)
    (hm : q.meets .notEmpty = true) : q.bytes = q.buf q.tail :: (IntqCall.getc.transfer q).bytes := by
  have hne : q.head ≠ q.tail := by simpa [Intq.meets, intqEmpty] using hm
  have hn : (q.head + intqBufsize - q.tail) % intqBufsize =
      (q.head + intqBufsize - next q.tail) % intqBufsize + 1 := by
    simp only [next, intqBufsize] at *
    omega
  have hself : q.tail % intqBufsize = q.tail := Nat.mod_eq_of_lt ht
  simp only [Intq.bytes, IntqCall.transfer]
  rw [hn, List.range_succ_eq_map, List.map_cons, List.map_map, Nat.add_zero, hself]
  refine congrArg _ (List.map_congr_left fun i _ => congrArg q.buf ?_)
  simp only [next, intqBufsize]
  omega

theorem bytes_putc {q : Intq} (hh : q.head < intqBufsize) (ht : q.tail < intqBufsize) (byte : UInt8)
    (hm : q.meets .notFull = true) : ((IntqCall.putc byte).transfer q).bytes = q.bytes ++ [byte] := by
  have hne : next q.head ≠ q.tail := by simpa [Intq.meets, intqFull] using hm
  have hn : (next q.head + intqBufsize - q.tail) % intqBufsize =
      (q.head + intqBufsize - q.tail) % intqBufsize + 1 := by
    simp only [next, intqBufsize] at *
    omega
  have hlast : (q.tail + (q.head + intqBufsize - q.tail) % intqBufsize) % intqBufsize = q.head := by
    simp only [intqBufsize] at *
    omega
  simp only [Intq.bytes, IntqCall.transfer]
  rw [hn, List.range_succ, List.map_append, List.map_singleton, hlast, Function.update_self]
  refine congrArg (· ++ _) (List.map_congr_left fun i hi => Function.update_of_ne ?_ ..)
  have hi := List.mem_range.mp hi
  simp only [intqBufsize] at *
  omega

/-- Two queues with the same bytes, apart from their threads. -/
structure SameBytes (q q' : Intq) : Prop where
  head : q'.head = q.head
  tail : q'.tail = q.tail
  buf : q'.buf = q.buf

theorem SameBytes.bytes {q q' : Intq} (h : SameBytes q q') : q'.bytes = q.bytes := by
  simp only [Intq.bytes, h.head, h.tail, h.buf]

theorem SameBytes.empty {q q' : Intq} (h : SameBytes q q') : intqEmpty q' = intqEmpty q := by
  simp only [intqEmpty, h.head, h.tail]

theorem SameBytes.full {q q' : Intq} (h : SameBytes q q') : intqFull q' = intqFull q := by
  simp only [intqFull, h.head, h.tail]

theorem SameBytes.meets {q q' : Intq} (h : SameBytes q q') (c : Cond) : q'.meets c = q.meets c := by
  cases c <;> simp only [Intq.meets, h.empty, h.full]

/-- The call that a thread is in. -/
def IntqPc.call : IntqPc → Option IntqCall
  | .out => none
  | .lockWait c | .lockWoken c | .condWait c | .condWoken c => some c

theorem call_eq_none {p : IntqPc} : p.call = none ↔ p = .out := by
  cases p <;> simp [IntqPc.call]

section

variable {s s' : IntqSys} {t : Tid} {c : IntqCall}

theorem unblock_some (h : s.unblock t = some s') : s'.q = s.q ∧ ∀ u, (s'.pc u).call = (s.pc u).call := by
  have hpc : ∀ {p : IntqPc}, p.call = (s.pc t).call →
      ∀ u, (Function.update s.pc t p u).call = (s.pc u).call := by
    intro p hp u
    by_cases hu : u = t
    · rw [hu, Function.update_self, hp]
    · rw [Function.update_of_ne hu]
  unfold IntqSys.unblock at h
  split at h
  · next c hc =>
    cases h
    exact ⟨rfl, hpc (by rw [hc]; rfl)⟩
  · next c hc =>
    cases h
    exact ⟨rfl, hpc (by rw [hc]; rfl)⟩
  · cases h

theorem signal_some {d : Cond} (h : s.signal d = some s') :
    SameBytes s.q s'.q ∧ ∀ u, (s'.pc u).call = (s.pc u).call := by
  unfold IntqSys.signal at h
  split at h
  · split at h
    · cases h
      exact ⟨⟨rfl, rfl, rfl⟩, fun _ => rfl⟩
    · next w hw =>
      obtain ⟨s1, h1, rfl⟩ := Option.map_eq_some_iff.mp h
      obtain ⟨hq, hcall⟩ := unblock_some h1
      exact ⟨by simp only [hq]; exact ⟨rfl, rfl, rfl⟩, hcall⟩
  · cases h

theorem finish_some (h : s.finish c = some s') :
    SameBytes (c.transfer s.q) s'.q ∧ ∀ u, (s'.pc u).call = (s.pc u).call := signal_some h

theorem acquire_some (h : s.acquire t c = some s') :
    SameBytes s.q s'.q ∧ (s'.pc t).call = some c ∧ ∀ u, u ≠ t → (s'.pc u).call = (s.pc u).call := by
  have hpc : ∀ {p : IntqPc}, p.call = some c →
      ((Function.update s.pc t p) t).call = some c ∧
        ∀ u, u ≠ t → (Function.update s.pc t p u).call = (s.pc u).call := by
    intro p hp
    refine ⟨by rwa [Function.update_self], fun u hu => ?_⟩
    rw [Function.update_of_ne hu]
  unfold IntqSys.acquire at h
  split at h
  · unfold IntqSys.wait at h
    split at h
    · cases h
    · cases h
      exact ⟨⟨rfl, rfl, rfl⟩, hpc rfl⟩
  · cases h
    exact ⟨⟨rfl, rfl, rfl⟩, hpc rfl⟩
  · cases h

theorem release_some (h : s.release t = some s') :
    SameBytes s.q s'.q ∧ ∀ u, u ≠ t → (s'.pc u).call = (s.pc u).call := by
  have hpc : ∀ u, u ≠ t → (Function.update s.pc t .out u).call = (s.pc u).call := fun u hu => by
    rw [Function.update_of_ne hu]
  unfold IntqSys.release at h
  split at h
  · split at h
    · split at h
      · cases h
        exact ⟨⟨rfl, rfl, rfl⟩, hpc⟩
      · obtain ⟨hq, hcall⟩ := unblock_some h
        rw [hq]
        exact ⟨⟨rfl, rfl, rfl⟩, fun u hu => (hcall u).trans (hpc u hu)⟩
    · cases h
  · cases h

/-- What a thread in a call comes to: the end of the call, with the queue changed, or a sleep. -/
structure Outcome (s s' : IntqSys) (t : Tid) (c : IntqCall) : Prop where
  own : s.q.meets c.awaits = true ∧ s'.pc t = .out ∧ SameBytes (c.transfer s.q) s'.q ∨
    (s'.pc t).call = some c ∧ SameBytes s.q s'.q
  others : ∀ u, u ≠ t → (s'.pc u).call = (s.pc u).call

theorem IntqInv.attempt_outcome (hi : IntqInv s) (ht : s.pc t = .out) :
    ∃ r, s.attempt t c = some r ∧ IntqInv r ∧ Outcome s r t c := by
  obtain ⟨r, hr, hI⟩ := hi.attempt (c := c) ht
  refine ⟨r, hr, hI, ?_⟩
  have hself : Function.update s.pc t .out = s.pc := by rw [← ht, Function.update_eq_self]
  unfold IntqSys.attempt at hr
  split at hr
  · next hm =>
    rw [hself] at hr
    obtain ⟨hb, hcall⟩ := finish_some hr
    refine ⟨.inl ⟨hm, call_eq_none.mp ?_, hb⟩, fun u _ => hcall u⟩
    rw [hcall, ht]
    rfl
  · split at hr
    · cases hr
    · obtain ⟨hb, hpc, hoth⟩ := acquire_some hr
      exact ⟨.inr ⟨hpc, hb⟩, hoth⟩

theorem Outcome.of_same {s1 : IntqSys} (hb : SameBytes s.q s1.q)
    (hoth : ∀ u, u ≠ t → (s1.pc u).call = (s.pc u).call) (h : Outcome s1 s' t c) :
    Outcome s s' t c := by
  refine ⟨?_, fun u hu => (h.others u hu).trans (hoth u hu)⟩
  rcases h.own with ⟨hm, hout, hs⟩ | ⟨hpc, hs⟩
  · refine .inl ⟨by rw [← hb.meets, hm], hout, ?_⟩
    cases c with
    | getc =>
      exact ⟨hs.head.trans hb.head, hs.tail.trans (congrArg next hb.tail), hs.buf.trans hb.buf⟩
    | putc byte =>
      refine ⟨hs.head.trans (congrArg next hb.head), hs.tail.trans hb.tail, hs.buf.trans ?_⟩
      simp only [IntqCall.transfer, hb.buf, hb.head]
  · exact .inr ⟨hpc, hs.head.trans hb.head, hs.tail.trans hb.tail, hs.buf.trans hb.buf⟩

/-- A thread that was unblocked runs, or the ASSERT in `wait` fails. -/
theorem IntqInv.resume_outcome (hi : IntqInv s) (ht : s.pc t = .lockWoken c ∨ s.pc t = .condWoken c) :
    s.resume t (s.pc t) = none ∨ ∃ r, s.resume t (s.pc t) = some r ∧ IntqInv r ∧ Outcome s r t c := by
  rcases ht with ht | ht
  · rw [ht, IntqSys.resume]
    by_cases hok : 0 < s.q.lock.semaphore.value → s.q.meets c.awaits = false
    · obtain ⟨r, hr, hI⟩ := hi.acquire (.inr ⟨c, ht⟩) hok
      obtain ⟨hb, hpc, hoth⟩ := acquire_some hr
      exact .inr ⟨r, hr, hI, .inr ⟨hpc, hb⟩, hoth⟩
    · simp only [Classical.not_imp, Bool.not_eq_false] at hok
      exact .inl (acquire_fails hok.1 hok.2)
  · rw [ht, IntqSys.resume]
    obtain ⟨s1, h1, hI1, hout⟩ := hi.release ht
    obtain ⟨hb, hoth⟩ := release_some h1
    obtain ⟨r, hr, hI, ho⟩ := hI1.attempt_outcome (c := c) hout
    exact .inr ⟨r, by rw [h1]; exact hr, hI, ho.of_same hb hoth⟩

theorem IntqInv.finish_outcome (hi : IntqInv s) (hm : s.q.meets c.awaits = true) :
    ∃ r, s.finish c = some r ∧ IntqInv r ∧ SameBytes (c.transfer s.q) r.q ∧
      ∀ u, (r.pc u).call = (s.pc u).call := by
  obtain ⟨r, hr, hI⟩ := hi.finish hm
  exact ⟨r, hr, hI, finish_some hr⟩

end

/-! ## The port -/

/-- The transmission mode. -/
inductive SerialMode where
  | uninit
  | poll
  | queue
  deriving DecidableEq, Repr

/-- The bits of the interrupt enable register. -/
structure Ier where
  xmit : Bool
  recv : Bool
  deriving DecidableEq, Repr

/-- How far `serial_init_queue` is. -/
inductive InitPc where
  | out
  /-- The mode is set, the interrupt enable register is not. -/
  | armed
  | returned
  deriving DecidableEq, Repr

/-- The port, the transmit queue and the input buffer with their threads. `ier` is what was
last written to the interrupt enable register, `thr` what was written to the transmit
register, and `put` the bytes put, each when it goes to the register or enters the queue. -/
structure Serial where
  mode : SerialMode
  init : InitPc
  txq : IntqSys
  buffer : IntqSys
  ier : Ier
  thr : List UInt8
  put : List UInt8
  panicked : Bool

def serialStart : Serial :=
  ⟨.uninit, .out, intqStart, intqStart, ⟨false, false⟩, [], [], false⟩

namespace Serial

/-- `init_poll` -/
def initPoll (s : Serial) : Serial :=
  { s with ier := ⟨false, false⟩, txq.q := intqInit, mode := .poll }

/-- `write_ier` -/
def writeIer (s : Serial) : Serial :=
  { s with ier := ⟨!intqEmpty s.txq.q, !intqFull s.buffer.q⟩ }

/-- `putc_poll`, when the device is ready. -/
def putcPoll (s : Serial) (byte : UInt8) : Serial := { s with thr := s.thr ++ [byte] }

/-- `putc_poll (intq_getc (&txq))` and the like, of a queue that is not empty. -/
def drain (s : Serial) : Option Serial :=
  (s.txq.finish .getc).map fun q => { s with txq := q }.putcPoll (s.txq.q.buf s.txq.q.tail)

/-- The byte has entered the queue; the end of `serial_putc`. -/
def queued (s : Serial) (byte : UInt8) (q : IntqSys) : Serial :=
  { s with txq := q, put := s.put ++ [byte] }.writeIer

/-- `serial_putc` before the queue is in use. -/
def putDirect (s : Serial) (byte : UInt8) : Serial := { s with put := s.put ++ [byte] }.putcPoll byte

/-- `serial_putc` with interrupts off: the first byte of a full queue is polled out. -/
def serialPutcOff (s : Serial) (byte : UInt8) : Option Serial :=
  match s.mode with
  | .uninit => some (s.initPoll.putDirect byte)
  | .poll => some (s.putDirect byte)
  | .queue => (if intqFull s.txq.q then s.drain else some s).bind fun s =>
      (s.txq.finish (.putc byte)).map (s.queued byte)

/-- `intq_putc` has returned, or put the thread to sleep. -/
def afterPutc (s : Serial) (t : Tid) (byte : UInt8) (q : IntqSys) : Serial :=
  if q.pc t = .out then s.queued byte q else { s with txq := q }

/-- `serial_putc` of a thread with interrupts on. -/
def serialPutc (s : Serial) (t : Tid) (byte : UInt8) : Option Serial :=
  match s.mode with
  | .uninit => some (s.initPoll.putDirect byte)
  | .poll => some (s.putDirect byte)
  | .queue => (s.txq.attempt t (.putc byte)).map (s.afterPutc t byte)

/-- The loop that empties the queue: at most `n` bytes go to the register. -/
def transmit : Nat → Serial → Option Serial
  | 0, s => some s
  | n + 1, s => if intqEmpty s.txq.q then some s else s.drain.bind (transmit n)

/-- `serial_flush`. The queue has fewer than `INTQ_BUFSIZE` bytes. -/
def serialFlush (s : Serial) : Option Serial := s.transmit intqBufsize

/-- `serial_notify` -/
def serialNotify (s : Serial) : Serial := if s.mode = .queue then s.writeIer else s

/-- `input_putc`, of a buffer that is not full. -/
def inputPutc (s : Serial) (key : UInt8) : Option Serial :=
  (s.buffer.finish (.putc key)).map fun q => { s with buffer := q }.serialNotify

/-- `intq_getc` in `input_getc` has returned, or put the thread to sleep. -/
def afterGetc (s : Serial) (t : Tid) (q : IntqSys) : Serial :=
  if q.pc t = .out then { s with buffer := q }.serialNotify else { s with buffer := q }

/-- `input_getc` -/
def inputGetc (s : Serial) (t : Tid) : Option Serial :=
  (s.buffer.attempt t .getc).map (s.afterGetc t)

/-- The first loop of `serial_interrupt`. -/
def receive : List UInt8 → Serial → Option Serial
  | [], s => some s
  | key :: rbr, s => if intqFull s.buffer.q then some s else (s.inputPutc key).bind (receive rbr)

/-- `serial_interrupt`, for a device with the bytes `rbr` that finds its transmitter ready
`ready` times. -/
def serialInterrupt (s : Serial) (rbr : List UInt8) (ready : Nat) : Option Serial :=
  ((s.receive rbr).bind (transmit ready)).map writeIer

/-- The statements of `serial_init_queue`: up to the change of the mode, and the rest. -/
def serialInitQueue (s : Serial) : InitPc → Option Serial
  | .armed => some { s.writeIer with init := .returned }
  | .out | .returned =>
    if s.mode = .queue then none
    else some { (if s.mode = .uninit then s.initPoll else s) with mode := .queue, init := .armed }

/-- A thread that was unblocked in `intq_putc` or `intq_getc` runs. -/
def resume (s : Serial) (t : Tid) : Option (Option Serial) :=
  match s.txq.pc t, s.buffer.pc t with
  | .lockWoken (.putc byte), _ | .condWoken (.putc byte), _ =>
    some ((s.txq.resume t (s.txq.pc t)).map (s.afterPutc t byte))
  | _, .lockWoken .getc | _, .condWoken .getc =>
    some ((s.buffer.resume t (s.buffer.pc t)).map (s.afterGetc t))
  | _, _ => none

end Serial

inductive SerialOp where
  | putc (t : Tid) (byte : UInt8)
  /-- `serial_putc` with interrupts off, also of a handler. -/
  | putcOff (byte : UInt8)
  | flush
  | getc (t : Tid)
  /-- `input_putc` of the keyboard handler. -/
  | key (key : UInt8)
  | interrupt (rbr : List UInt8) (ready : Nat)
  | resume (t : Tid)
  | initQueue
  deriving DecidableEq, Repr

/-- A failed ASSERT; what the call did to the lock of the queue is left out. -/
def Serial.settle (s : Serial) : Option Serial → Serial
  | some s' => s'
  | none => { s with panicked := true }

/-- The thread is in no call on the queues. -/
def Serial.Idle (s : Serial) (t : Tid) : Prop := s.txq.pc t = .out ∧ s.buffer.pc t = .out

instance (s : Serial) (t : Tid) : Decidable (s.Idle t) := inferInstanceAs (Decidable (_ ∧ _))

/-- One step. After a failed ASSERT the kernel prints and flushes with interrupts off, and
nothing else runs. -/
def serialStep (s : Serial) (a : SerialOp) : Option Serial :=
  match a with
  | .putcOff byte => some (s.settle (s.serialPutcOff byte))
  | .flush => some (s.settle s.serialFlush)
  | .putc t byte =>
    if s.panicked = false ∧ s.Idle t then some (s.settle (s.serialPutc t byte)) else none
  | .getc t => if s.panicked = false ∧ s.Idle t then some (s.settle (s.inputGetc t)) else none
  | .key key =>
    if s.panicked = false ∧ intqFull s.buffer.q = false then some (s.settle (s.inputPutc key)) else none
  | .interrupt rbr ready =>
    if s.panicked = false then some (s.settle (s.serialInterrupt rbr ready)) else none
  | .resume t => if s.panicked = false then (s.resume t).map s.settle else none
  | .initQueue =>
    if s.panicked = false then some (s.settle (s.serialInitQueue s.init)) else none

/-! ## The invariant -/

/-- The interrupts that the device may raise. -/
structure Serial.Armed (s : Serial) : Prop where
  mode : s.mode = .queue
  xmit : intqEmpty s.txq.q = false → s.ier.xmit = true
  recv : intqFull s.buffer.q = false → s.ier.recv = true

/-- **The invariant** of the port: what was put is what was sent and what is in the queue. -/
structure SerialInv (s : Serial) : Prop where
  txq : IntqInv s.txq
  buffer : IntqInv s.buffer
  fresh : s.mode ≠ .queue → s.txq = intqStart
  order : s.thr ++ s.txq.q.bytes = s.put
  armed : s.init = .returned → s.Armed
  started : s.init ≠ .out → s.mode = .queue

theorem SerialInv.start : SerialInv serialStart where
  txq := .start
  buffer := .start
  fresh _ := rfl
  order := rfl
  armed h := by cases h
  started h := absurd rfl h

/-- The byte of a thread that is blocked in `serial_putc`. -/
def Serial.blocked (s : Serial) (t : Tid) : Option UInt8 :=
  match (s.txq.pc t).call with
  | some (.putc byte) => some byte
  | _ => none

theorem blocked_congr {s s' : Serial} {t : Tid} (h : (s'.txq.pc t).call = (s.txq.pc t).call) :
    s'.blocked t = s.blocked t := by
  rw [Serial.blocked, Serial.blocked, h]

/-- Nothing is put, and the mode stays. -/
structure Unput (s s' : Serial) : Prop where
  put : s'.put = s.put
  mode : s'.mode = s.mode
  init : s'.init = s.init
  blocked : ∀ t, s'.blocked t = s.blocked t

theorem Unput.refl (s : Serial) : Unput s s := ⟨rfl, rfl, rfl, fun _ => rfl⟩

theorem Unput.trans {s s' s'' : Serial} (h : Unput s s') (h' : Unput s' s'') : Unput s s'' :=
  ⟨h'.put.trans h.put, h'.mode.trans h.mode, h'.init.trans h.init,
    fun t => (h'.blocked t).trans (h.blocked t)⟩

section

variable {s s' : Serial} {t : Tid} {byte : UInt8}

theorem SerialInv.write_ier (hi : SerialInv s) : SerialInv s.writeIer where
  txq := hi.txq
  buffer := hi.buffer
  fresh := hi.fresh
  order := hi.order
  armed h := by
    refine ⟨(hi.armed h).mode, fun he => ?_, fun he => ?_⟩
    · show (!intqEmpty s.txq.q) = true
      rw [show intqEmpty s.txq.q = false from he]
      rfl
    · show (!intqFull s.buffer.q) = true
      rw [show intqFull s.buffer.q = false from he]
      rfl
  started := hi.started

theorem SerialInv.bytes_nil (hi : SerialInv s) : s.txq.q.bytes = [] ↔ intqEmpty s.txq.q = true :=
  bytes_eq_nil hi.txq.head hi.txq.tail

theorem SerialInv.queue_of_bytes (hi : SerialInv s) (h : intqEmpty s.txq.q = false) : s.mode = .queue := by
  by_contra hm
  rw [hi.fresh hm] at h
  cases h

/-- **The oldest byte is sent.** -/
theorem SerialInv.drain (hi : SerialInv s) (hne : intqEmpty s.txq.q = false) :
    ∃ s', s.drain = some s' ∧ SerialInv s' ∧ Unput s s' ∧ intqFull s'.txq.q = false ∧
      s.txq.q.bytes.length = s'.txq.q.bytes.length + 1 := by
  have hm : s.txq.q.meets (IntqCall.awaits .getc) = true := by
    simp [IntqCall.awaits, Intq.meets, hne]
  obtain ⟨r, hr, hI, hb, hcall⟩ := hi.txq.finish_outcome hm
  have hbytes := bytes_getc hi.txq.head hi.txq.tail hm
  have hfull : intqFull r.q = false := by
    have := meets_transfer hi.txq.head hi.txq.tail hm
    rw [← hb.meets] at this
    simpa [IntqCall.signals, Intq.meets] using this
  refine ⟨{ s with txq := r }.putcPoll (s.txq.q.buf s.txq.q.tail), by rw [Serial.drain, hr]; rfl,
    ⟨hI, hi.buffer, fun h => absurd (hi.queue_of_bytes hne) h, ?_, fun h => ?_, hi.started⟩,
    ⟨rfl, rfl, rfl, fun u => blocked_congr (hcall u)⟩, hfull, ?_⟩
  · show s.thr ++ [s.txq.q.buf s.txq.q.tail] ++ r.q.bytes = s.put
    rw [hb.bytes, ← hi.order, hbytes]
    simp
  · have := hi.armed h
    exact ⟨this.mode, fun _ => this.xmit hne, this.recv⟩
  · show s.txq.q.bytes.length = r.q.bytes.length + 1
    rw [hb.bytes, hbytes, List.length_cons]

theorem SerialInv.transmit : ∀ (n : Nat) {s : Serial}, SerialInv s →
    ∃ s', s.transmit n = some s' ∧ SerialInv s' ∧ Unput s s' ∧
      (s.txq.q.bytes.length ≤ n → s'.txq.q.bytes = [])
  | 0, s, hi => ⟨s, rfl, hi, .refl s, fun h => List.eq_nil_of_length_eq_zero (by omega)⟩
  | n + 1, s, hi => by
    rw [Serial.transmit]
    cases he : intqEmpty s.txq.q with
    | true => exact ⟨s, rfl, hi, .refl s, fun _ => hi.bytes_nil.mpr he⟩
    | false =>
      obtain ⟨s1, h1, hi1, hu1, -, hlen⟩ := hi.drain he
      obtain ⟨s2, h2, hi2, hu2, hend⟩ := hi1.transmit n
      refine ⟨s2, ?_, hi2, hu1.trans hu2, fun h => hend (by omega)⟩
      simp only [Bool.false_eq_true, if_false, h1, Option.bind_some, h2]

theorem bytes_length_lt (q : Intq) : q.bytes.length < intqBufsize := by
  simp only [Intq.bytes, List.length_map, List.length_range]
  exact Nat.mod_lt _ (by decide)

/-- **`serial_flush` sends all that is in the queue.** -/
theorem SerialInv.serial_flush (hi : SerialInv s) :
    ∃ s', s.serialFlush = some s' ∧ SerialInv s' ∧ Unput s s' ∧ s'.thr = s'.put := by
  obtain ⟨s1, h1, hi1, hu, hend⟩ := hi.transmit intqBufsize
  refine ⟨s1, h1, hi1, hu, ?_⟩
  have := hi1.order
  rwa [hend (bytes_length_lt _).le, List.append_nil] at this

/-- A byte enters the queue. -/
theorem SerialInv.queued (hi : SerialInv s) (hmode : s.mode = .queue) {r : IntqSys} (hI : IntqInv r)
    (hm : s.txq.q.meets .notFull = true) (hb : SameBytes ((IntqCall.putc byte).transfer s.txq.q) r.q) :
    SerialInv (s.queued byte r) := by
  have hplain : s.thr ++ r.q.bytes = s.put ++ [byte] := by
    rw [hb.bytes, bytes_putc hi.txq.head hi.txq.tail byte hm, ← hi.order, List.append_assoc]
  refine ⟨hI, hi.buffer, fun h => absurd hmode h, hplain, fun _ => ⟨hmode, fun he => ?_, fun he => ?_⟩,
    fun _ => hmode⟩
  · show (!intqEmpty r.q) = true
    rw [show intqEmpty r.q = false from he]
    rfl
  · show (!intqFull s.buffer.q) = true
    rw [show intqFull s.buffer.q = false from he]
    rfl

/-- A byte is put while the queue is not in use. -/
theorem SerialInv.put_direct (hi : SerialInv s) (hmode : s.mode ≠ .queue) : SerialInv (s.putDirect byte) := by
  have hnil : s.txq.q.bytes = [] := by rw [hi.fresh hmode]; rfl
  refine ⟨hi.txq, hi.buffer, hi.fresh, ?_, fun h => absurd (hi.armed h).mode hmode, hi.started⟩
  have := hi.order
  rw [hnil, List.append_nil] at this
  show s.thr ++ [byte] ++ s.txq.q.bytes = s.put ++ [byte]
  rw [hnil, this, List.append_nil]

theorem SerialInv.init_poll (hi : SerialInv s) (hmode : s.mode = .uninit) : SerialInv s.initPoll := by
  have hfresh : s.txq = intqStart := hi.fresh (by rw [hmode]; decide)
  have hout : s.init = .out := by
    by_contra h
    have := hi.started h
    rw [hmode] at this
    cases this
  have htxq : s.initPoll.txq = intqStart := by
    rw [Serial.initPoll, hfresh]
    rfl
  refine ⟨by rw [htxq]; exact .start, hi.buffer, fun _ => htxq, ?_, fun h => ?_, fun h => absurd hout h⟩
  · rw [htxq]
    have := hi.order
    rwa [hfresh] at this
  · rw [show s.init = .returned from h] at hout
    cases hout

/-! ## Output -/

theorem SerialInv.putc_off (hi : SerialInv s) (byte : UInt8) :
    ∃ s', s.serialPutcOff byte = some s' ∧ SerialInv s' ∧ s'.put = s.put ++ [byte] ∧
      ∀ t, s'.blocked t = s.blocked t := by
  cases hm : s.mode with
  | uninit =>
    refine ⟨s.initPoll.putDirect byte, by rw [Serial.serialPutcOff, hm], ?_, rfl, fun _ => rfl⟩
    exact (hi.init_poll hm).put_direct (by simp [Serial.initPoll])
  | poll =>
    exact ⟨s.putDirect byte, by rw [Serial.serialPutcOff, hm], hi.put_direct (by simp [hm]), rfl,
      fun _ => rfl⟩
  | queue =>
    have hroom : ∃ s1, (if intqFull s.txq.q then s.drain else some s) = some s1 ∧ SerialInv s1 ∧
        Unput s s1 ∧ intqFull s1.txq.q = false := by
      cases hf : intqFull s.txq.q with
      | false => exact ⟨s, rfl, hi, .refl s, hf⟩
      | true =>
        have hne : intqEmpty s.txq.q = false := by
          have hnext : next s.txq.q.head = s.txq.q.tail := by simpa [intqFull] using hf
          have hlt := hi.txq.head
          rw [intqEmpty, decide_eq_false_iff_not, ← hnext]
          simp only [next, intqBufsize] at *
          omega
        obtain ⟨s1, h1, hi1, hu, hfull, -⟩ := hi.drain hne
        exact ⟨s1, h1, hi1, hu, hfull⟩
    obtain ⟨s1, h1, hi1, hu, hfull⟩ := hroom
    have hmeets : s1.txq.q.meets (IntqCall.putc byte).awaits = true := by
      simp [IntqCall.awaits, Intq.meets, hfull]
    obtain ⟨r, hr, hI, hb, hcall⟩ := hi1.txq.finish_outcome hmeets
    refine ⟨s1.queued byte r, ?_, hi1.queued (hu.mode.trans hm) hI hmeets hb,
      congrArg (· ++ [byte]) hu.put, fun t => (blocked_congr (hcall t)).trans (hu.blocked t)⟩
    rw [Serial.serialPutcOff, hm]
    simp only [h1, Option.bind_some, hr, Option.map_some]

/-- What becomes of a byte that is put: it enters the queue, or its thread is blocked with it. -/
structure Entered (s s' : Serial) (t : Tid) (byte : UInt8) : Prop where
  own : s'.put = s.put ++ [byte] ∧ s'.blocked t = none ∨ s'.put = s.put ∧ s'.blocked t = some byte
  others : ∀ u, u ≠ t → s'.blocked u = s.blocked u

theorem SerialInv.after_putc (hi : SerialInv s) (hm : s.mode = .queue) {r : IntqSys} (hI : IntqInv r)
    (ho : Outcome s.txq r t (.putc byte)) :
    SerialInv (s.afterPutc t byte r) ∧ Entered s (s.afterPutc t byte r) t byte := by
  rcases ho.own with ⟨hmeets, hout, hb⟩ | ⟨hcall, hb⟩
  · rw [Serial.afterPutc, if_pos hout]
    refine ⟨hi.queued hm hI hmeets hb, .inl ⟨rfl, ?_⟩, fun u hu => blocked_congr (ho.others u hu)⟩
    show (match (r.pc t).call with | some (.putc byte) => some byte | _ => none) = none
    rw [hout]
    rfl
  · have hout : r.pc t ≠ .out := fun h => by
      rw [h] at hcall
      cases hcall
    rw [Serial.afterPutc, if_neg hout]
    refine ⟨⟨hI, hi.buffer, fun h => absurd hm h, ?_, fun h => ?_, hi.started⟩, .inr ⟨rfl, ?_⟩,
      fun u hu => blocked_congr (ho.others u hu)⟩
    · show s.thr ++ r.q.bytes = s.put
      rw [hb.bytes, hi.order]
    · have := hi.armed h
      exact ⟨this.mode, fun he => this.xmit (by rw [← hb.empty]; exact he), this.recv⟩
    · show (match (r.pc t).call with | some (.putc byte) => some byte | _ => none) = some byte
      rw [hcall]

theorem SerialInv.serial_putc (hi : SerialInv s) (ht : s.txq.pc t = .out) (byte : UInt8) :
    ∃ s', s.serialPutc t byte = some s' ∧ SerialInv s' ∧ Entered s s' t byte := by
  have hnone : s.blocked t = none := by
    rw [Serial.blocked, ht]
    rfl
  cases hm : s.mode with
  | uninit =>
    refine ⟨s.initPoll.putDirect byte, by rw [Serial.serialPutc, hm], ?_, .inl ⟨rfl, hnone⟩, fun _ _ => rfl⟩
    exact (hi.init_poll hm).put_direct (by simp [Serial.initPoll])
  | poll =>
    exact ⟨s.putDirect byte, by rw [Serial.serialPutc, hm], hi.put_direct (by simp [hm]),
      .inl ⟨rfl, hnone⟩, fun _ _ => rfl⟩
  | queue =>
    obtain ⟨r, hr, hI, ho⟩ := hi.txq.attempt_outcome (c := .putc byte) ht
    refine ⟨s.afterPutc t byte r, ?_, hi.after_putc hm hI ho⟩
    rw [Serial.serialPutc, hm]
    simp only [hr, Option.map_some]

/-! ## Input -/

theorem SerialInv.notify (hi : SerialInv s) {r : IntqSys} (hI : IntqInv r) :
    SerialInv { s with buffer := r }.serialNotify := by
  unfold Serial.serialNotify
  split
  · next hm =>
    refine ⟨hi.txq, hI, hi.fresh, hi.order, fun _ => ⟨hm, fun he => ?_, fun he => ?_⟩, hi.started⟩
    · show (!intqEmpty s.txq.q) = true
      rw [show intqEmpty s.txq.q = false from he]
      rfl
    · show (!intqFull r.q) = true
      rw [show intqFull r.q = false from he]
      rfl
  · next hm =>
    exact ⟨hi.txq, hI, hi.fresh, hi.order, fun h => absurd (hi.armed h).mode hm, hi.started⟩

theorem unput_notify (s : Serial) (r : IntqSys) : Unput s { s with buffer := r }.serialNotify := by
  unfold Serial.serialNotify
  split <;> exact ⟨rfl, rfl, rfl, fun _ => rfl⟩

theorem SerialInv.input_putc (hi : SerialInv s) (hf : intqFull s.buffer.q = false) (key : UInt8) :
    ∃ s', s.inputPutc key = some s' ∧ SerialInv s' ∧ Unput s s' := by
  have hm : s.buffer.q.meets (IntqCall.putc key).awaits = true := by
    simp [IntqCall.awaits, Intq.meets, hf]
  obtain ⟨r, hr, hI, -⟩ := hi.buffer.finish_outcome hm
  exact ⟨_, by rw [Serial.inputPutc, hr]; rfl, hi.notify hI, unput_notify s r⟩

theorem SerialInv.after_getc (hi : SerialInv s) {r : IntqSys} (hI : IntqInv r)
    (ho : Outcome s.buffer r t .getc) : SerialInv (s.afterGetc t r) ∧ Unput s (s.afterGetc t r) := by
  rcases ho.own with ⟨-, hout, -⟩ | ⟨hcall, hb⟩
  · rw [Serial.afterGetc, if_pos hout]
    exact ⟨hi.notify hI, unput_notify s r⟩
  · have hout : r.pc t ≠ .out := fun h => by
      rw [h] at hcall
      cases hcall
    rw [Serial.afterGetc, if_neg hout]
    refine ⟨⟨hi.txq, hI, hi.fresh, hi.order, fun h => ?_, hi.started⟩, rfl, rfl, rfl, fun _ => rfl⟩
    have := hi.armed h
    exact ⟨this.mode, this.xmit, fun he => this.recv (by rw [← hb.full]; exact he)⟩

theorem SerialInv.receive : ∀ (rbr : List UInt8) {s : Serial}, SerialInv s →
    ∃ s', s.receive rbr = some s' ∧ SerialInv s' ∧ Unput s s'
  | [], s, hi => ⟨s, rfl, hi, .refl s⟩
  | key :: rbr, s, hi => by
    rw [Serial.receive]
    cases hf : intqFull s.buffer.q with
    | true => exact ⟨s, rfl, hi, .refl s⟩
    | false =>
      obtain ⟨s1, h1, hi1, hu1⟩ := hi.input_putc hf key
      obtain ⟨s2, h2, hi2, hu2⟩ := hi1.receive rbr
      refine ⟨s2, ?_, hi2, hu1.trans hu2⟩
      simp only [Bool.false_eq_true, if_false, h1, Option.bind_some, h2]

theorem SerialInv.serial_interrupt (hi : SerialInv s) (rbr : List UInt8) (ready : Nat) :
    ∃ s', s.serialInterrupt rbr ready = some s' ∧ SerialInv s' ∧ Unput s s' := by
  obtain ⟨s1, h1, hi1, hu1⟩ := hi.receive rbr
  obtain ⟨s2, h2, hi2, hu2, -⟩ := hi1.transmit ready
  refine ⟨s2.writeIer, ?_, hi2.write_ier, hu1.trans (hu2.trans ⟨rfl, rfl, rfl, fun _ => rfl⟩)⟩
  rw [Serial.serialInterrupt, h1, Option.bind_some, h2, Option.map_some]

/-- Both halves of `serial_init_queue`. -/
theorem SerialInv.init_queue (hi : SerialInv s) {s' : Serial} (h : s.serialInitQueue s.init = some s') :
    SerialInv s' ∧ s'.put = s.put ∧ ∀ t, s'.blocked t = s.blocked t := by
  have hfirst : ∀ s1 : Serial, SerialInv s1 → SerialInv { s1 with mode := .queue, init := .armed } :=
    fun s1 hi1 => ⟨hi1.txq, hi1.buffer, fun h => absurd rfl h, hi1.order, fun h => (by cases h),
      fun _ => rfl⟩
  have hstart : s.serialInitQueue .out = some s' →
      SerialInv s' ∧ s'.put = s.put ∧ ∀ t, s'.blocked t = s.blocked t := by
    intro h
    rw [Serial.serialInitQueue] at h
    split at h
    · cases h
    · cases h
      split
      · next hu => exact ⟨hfirst _ (hi.init_poll hu), rfl, fun _ => rfl⟩
      · exact ⟨hfirst _ hi, rfl, fun _ => rfl⟩
  cases hinit : s.init with
  | out =>
    rw [hinit] at h
    exact hstart h
  | returned =>
    rw [hinit] at h
    exact hstart h
  | armed =>
    rw [hinit] at h
    cases h
    have hm := hi.started (by rw [hinit]; decide)
    refine ⟨⟨hi.txq, hi.buffer, hi.fresh, hi.order, fun _ => ⟨hm, fun he => ?_, fun he => ?_⟩,
      fun _ => hm⟩, rfl, fun _ => rfl⟩
    · show (!intqEmpty s.txq.q) = true
      rw [show intqEmpty s.txq.q = false from he]
      rfl
    · show (!intqFull s.buffer.q) = true
      rw [show intqFull s.buffer.q = false from he]
      rfl

/-! ## Runs -/

theorem SerialInv.panic (hi : SerialInv s) : SerialInv { s with panicked := true } :=
  ⟨hi.txq, hi.buffer, hi.fresh, hi.order, fun h => ⟨(hi.armed h).mode, (hi.armed h).xmit,
    (hi.armed h).recv⟩, hi.started⟩

/-- What a thread does that was unblocked: nothing is put, or the byte that it was blocked with. -/
structure Resumed (s s' : Serial) (t : Tid) : Prop where
  own : s'.put = s.put ∧ s'.blocked t = s.blocked t ∨
    ∃ byte, s.blocked t = some byte ∧ s'.put = s.put ++ [byte] ∧ s'.blocked t = none
  others : ∀ u, u ≠ t → s'.blocked u = s.blocked u

/-- An unblocked thread runs: its byte enters the queue or it sleeps again, unless an ASSERT
fails. -/
theorem SerialInv.resume (hi : SerialInv s) {o : Option Serial} (h : s.resume t = some o) :
    SerialInv (s.settle o) ∧ Resumed s (s.settle o) t := by
  have hput : ∀ byte, s.txq.pc t = .lockWoken (.putc byte) ∨ s.txq.pc t = .condWoken (.putc byte) →
      o = (s.txq.resume t (s.txq.pc t)).map (s.afterPutc t byte) →
      SerialInv (s.settle o) ∧ Resumed s (s.settle o) t := by
    intro byte ht ho
    have hb : s.blocked t = some byte := by
      rcases ht with ht | ht <;> rw [Serial.blocked, ht] <;> rfl
    have hm : s.mode = .queue := by
      by_contra hm
      have := hi.fresh hm
      rw [this] at ht
      rcases ht with ht | ht <;> cases ht
    rcases hi.txq.resume_outcome ht with hn | ⟨r, hr, hI, hout⟩
    · rw [ho, hn]
      exact ⟨hi.panic, .inl ⟨rfl, rfl⟩, fun _ _ => rfl⟩
    · obtain ⟨hI', hent⟩ := hi.after_putc hm hI hout
      rw [ho, hr]
      refine ⟨hI', ?_, hent.others⟩
      rcases hent.own with ⟨hp, hbl⟩ | ⟨hp, hbl⟩
      · exact .inr ⟨byte, hb, hp, hbl⟩
      · exact .inl ⟨hp, hbl.trans hb.symm⟩
  have hget : s.buffer.pc t = .lockWoken .getc ∨ s.buffer.pc t = .condWoken .getc →
      o = (s.buffer.resume t (s.buffer.pc t)).map (s.afterGetc t) →
      SerialInv (s.settle o) ∧ Resumed s (s.settle o) t := by
    intro ht ho
    rcases hi.buffer.resume_outcome ht with hn | ⟨r, hr, hI, hout⟩
    · rw [ho, hn]
      exact ⟨hi.panic, .inl ⟨rfl, rfl⟩, fun _ _ => rfl⟩
    · obtain ⟨hI', hu⟩ := hi.after_getc hI hout
      rw [ho, hr]
      exact ⟨hI', .inl ⟨hu.put, hu.blocked t⟩, fun u _ => hu.blocked u⟩
  unfold Serial.resume at h
  split at h
  · next _ _ byte ht => exact hput byte (.inl ht) (Option.some.inj h).symm
  · next _ _ byte ht => exact hput byte (.inr ht) (Option.some.inj h).symm
  · next _ _ ht _ _ => exact hget (.inl ht) (Option.some.inj h).symm
  · next _ _ ht _ _ => exact hget (.inr ht) (Option.some.inj h).symm
  · cases h

/-- What a step puts: a byte goes to the register or enters the queue at once, or its thread is
blocked with it until it does. -/
def Puts (s s' : Serial) : SerialOp → Prop
  | .putc t byte => Entered s s' t byte
  | .putcOff byte => s'.put = s.put ++ [byte] ∧ ∀ t, s'.blocked t = s.blocked t
  | .resume t => Resumed s s' t
  | .flush | .getc _ | .key _ | .interrupt _ _ | .initQueue =>
    s'.put = s.put ∧ ∀ t, s'.blocked t = s.blocked t

/-- **One step.** -/
theorem SerialInv.step (hi : SerialInv s) {a : SerialOp} (h : serialStep s a = some s') :
    SerialInv s' ∧ Puts s s' a := by
  cases a with
  | putcOff byte =>
    obtain ⟨s1, h1, hi1, hp⟩ := hi.putc_off byte
    simp only [serialStep, h1, Serial.settle, Option.some.injEq] at h
    exact h ▸ ⟨hi1, hp⟩
  | flush =>
    obtain ⟨s1, h1, hi1, hu, -⟩ := hi.serial_flush
    simp only [serialStep, h1, Serial.settle, Option.some.injEq] at h
    exact h ▸ ⟨hi1, hu.put, hu.blocked⟩
  | putc t byte =>
    simp only [serialStep, Option.ite_none_right_eq_some] at h
    obtain ⟨⟨-, hidle⟩, h⟩ := h
    obtain ⟨s1, h1, hi1, he⟩ := hi.serial_putc hidle.1 byte
    simp only [h1, Serial.settle, Option.some.injEq] at h
    exact h ▸ ⟨hi1, he⟩
  | getc t =>
    simp only [serialStep, Option.ite_none_right_eq_some] at h
    obtain ⟨⟨-, hidle⟩, h⟩ := h
    obtain ⟨r, hr, hI, ho⟩ := hi.buffer.attempt_outcome (c := .getc) hidle.2
    obtain ⟨hi1, hu⟩ := hi.after_getc hI ho
    simp only [Serial.inputGetc, hr, Option.map_some, Serial.settle, Option.some.injEq] at h
    exact h ▸ ⟨hi1, hu.put, hu.blocked⟩
  | key key =>
    simp only [serialStep, Option.ite_none_right_eq_some] at h
    obtain ⟨⟨-, hf⟩, h⟩ := h
    obtain ⟨s1, h1, hi1, hu⟩ := hi.input_putc hf key
    simp only [h1, Serial.settle, Option.some.injEq] at h
    exact h ▸ ⟨hi1, hu.put, hu.blocked⟩
  | interrupt rbr ready =>
    simp only [serialStep, Option.ite_none_right_eq_some] at h
    obtain ⟨s1, h1, hi1, hu⟩ := hi.serial_interrupt rbr ready
    simp only [h1, Serial.settle, Option.some.injEq] at h
    exact h.2 ▸ ⟨hi1, hu.put, hu.blocked⟩
  | resume t =>
    simp only [serialStep, Option.ite_none_right_eq_some, Option.map_eq_some_iff] at h
    obtain ⟨-, o, ho, rfl⟩ := h
    exact hi.resume ho
  | initQueue =>
    simp only [serialStep, Option.ite_none_right_eq_some, Option.some.injEq] at h
    obtain ⟨-, rfl⟩ := h
    cases hq : s.serialInitQueue s.init with
    | none => exact ⟨hi.panic, rfl, fun _ => rfl⟩
    | some s1 => exact hi.init_queue hq

theorem SerialInv.reach (h : Reach serialStep Free serialStart s) : SerialInv s :=
  h.invariant .start fun _ _ _ hi _ hs => (hi.step hs).1

/-- **Serial output is lossless and ordered.** In every interleaving the bytes in the transmit
register and then those in the queue are the bytes put, in their order; each byte put enters
once, at once or when its blocked thread goes on; a flush sends the rest; and once
`serial_init_queue` has returned the device may raise the interrupts that the queues need. -/
theorem serial_lossless (h : Reach serialStep Free serialStart s) :
    s.thr ++ s.txq.q.bytes = s.put ∧ s.thr <+: s.put ∧
    (∀ a s', serialStep s a = some s' → Puts s s' a) ∧
    (∀ s', serialStep s .flush = some s' → s'.thr = s.put) ∧
    (s.init = .returned → (intqEmpty s.txq.q = false → s.ier.xmit = true) ∧
      (intqFull s.buffer.q = false → s.ier.recv = true)) := by
  have hi := SerialInv.reach h
  refine ⟨hi.order, hi.order ▸ List.prefix_append .., fun a s' hs => (hi.step hs).2, fun s' hs => ?_,
    fun hret => ⟨(hi.armed hret).xmit, (hi.armed hret).recv⟩⟩
  obtain ⟨s1, h1, -, hu, hall⟩ := hi.serial_flush
  simp only [serialStep, h1, Serial.settle, Option.some.injEq] at hs
  rw [← hs, hall, hu.put]

end

/-- A byte by polling, two through the queue, of which the handler sends one; the device may
then still interrupt for the other. -/
theorem byte_waits_armed :
    ∃ s, runFrom serialStep serialStart
        [.putcOff 97, .initQueue, .putc 1 98, .initQueue, .putcOff 99, .interrupt [] 1] = some s ∧
      s.thr = [97, 98] ∧ s.put = [97, 98, 99] ∧ s.ier.xmit = true := by
  refine ⟨_, rfl, rfl, rfl, ?_⟩
  exact ((serial_lossless (reach_of_run
    [.putcOff 97, .initQueue, .putc 1 98, .initQueue, .putcOff 99, .interrupt [] 1] rfl)).2.2.2.2
      rfl).1 rfl

end Pintos.Devices
