import Pintos.Base.RingBuffer
import Pintos.Devices.Intq

/-!
# Interrupt queues are bounded queues (devices/intq.c)

Whatever the threads and the interrupt handlers do, each step changes the buffer as at most one
completed `intq_putc` or `intq_getc` does. The buffer is a ring with 64 cells, so what is got is
what was put.
-/

namespace Pintos.Devices

open Pintos.Base Pintos.Threads

/-! ## Completed calls -/

/-- The call that a step completes, if no ASSERT fails. -/
def intqCompletes (s : IntqSys) : IntqOp → Option IntqCall
  | .call _ c => if s.q.meets c.awaits then some c else none
  | .handler c => if s.q.meets c.awaits then some c else none
  | .resume t =>
    match s.pc t with
    | .condWoken c => if s.q.meets c.awaits then some c else none
    | _ => none

/-- A system and the calls that have been completed, in order. -/
structure IntqHistory where
  sys : IntqSys
  done : List IntqCall

def historyStart : IntqHistory := ⟨intqStart, []⟩

def historyStep (h : IntqHistory) (a : IntqOp) : Option IntqHistory :=
  (intqStep h.sys a).map fun s =>
    ⟨s, if s.failed then h.done else h.done ++ (intqCompletes h.sys a).toList⟩

/-- The bytes put by a call. -/
def IntqCall.puts : IntqCall → List UInt8
  | .getc => []
  | .putc byte => [byte]

/-- All bytes that have been put. -/
def putBytes (cs : List IntqCall) : List UInt8 := cs.flatMap IntqCall.puts

/-- The number of bytes that have been got. -/
def getCnt (cs : List IntqCall) : Nat := cs.count .getc

/-! ## The buffer -/

/-- What a completed call changes, and whether the system still runs. -/
def IntqSys.ring (s : IntqSys) : (Nat → UInt8) × Nat × Nat × List UInt8 × Bool :=
  (s.q.buf, s.q.head, s.q.tail, s.got, s.failed)

/-- The system after what follows the loop, but for the signal. -/
def IntqSys.moved (s : IntqSys) (c : IntqCall) : IntqSys :=
  { s with q := c.transfer s.q, got := s.got ++ c.result s.q }

section

variable {s s' : IntqSys} {t : Tid} {c : IntqCall} {o : Option IntqCall}

theorem meets_of_ring (h : s'.ring = s.ring) (d : Cond) : s'.q.meets d = s.q.meets d := by
  simp only [IntqSys.ring, Prod.mk.injEq] at h
  cases d <;> simp only [Intq.meets, intqEmpty, intqFull, h.2.1, h.2.2.1]

theorem moved_ring (h : s'.ring = s.ring) (c : IntqCall) : (s'.moved c).ring = (s.moved c).ring := by
  simp only [IntqSys.ring, Prod.mk.injEq] at h
  cases c <;> simp only [IntqSys.ring, IntqSys.moved, IntqCall.transfer, IntqCall.result, h]

theorem unblock_ring (h : s.unblock t = some s') : s'.ring = s.ring := by
  unfold IntqSys.unblock at h
  split at h <;> cases h <;> rfl

theorem signal_ring {d : Cond} (h : s.signal d = some s') : s'.ring = s.ring := by
  unfold IntqSys.signal at h
  split at h
  · split at h
    · cases h
      rfl
    · obtain ⟨s1, h1, rfl⟩ := Option.map_eq_some_iff.mp h
      have hring := unblock_ring h1
      exact hring
  · cases h

theorem finish_ring (h : s.finish c = some s') : s'.ring = (s.moved c).ring := signal_ring h

theorem acquire_ring (h : s.acquire t c = some s') : s'.ring = s.ring := by
  unfold IntqSys.acquire at h
  split at h
  · unfold IntqSys.wait at h
    split at h <;> cases h
    rfl
  · cases h
    rfl
  · cases h

theorem release_ring (h : s.release t = some s') : s'.ring = s.ring := by
  unfold IntqSys.release at h
  split at h
  · split at h
    · split at h
      · cases h
        rfl
      · have hring := unblock_ring h
        exact hring
    · cases h
  · cases h

/-- The head of the loop completes the call or leaves the buffer alone. -/
theorem attempt_ring (h : s.attempt t c = some s') :
    s'.ring = if s.q.meets c.awaits then (s.moved c).ring else s.ring := by
  unfold IntqSys.attempt at h
  split at h
  · next hm =>
    rw [if_pos hm]
    exact (finish_ring h).trans (moved_ring rfl c)
  · next hm =>
    rw [if_neg hm]
    split at h
    · cases h
    · exact acquire_ring h

/-- What a step makes of the buffer. -/
def ringAfter (s : IntqSys) : Option IntqCall → (Nat → UInt8) × Nat × Nat × List UInt8 × Bool
  | none => s.ring
  | some c => (s.moved c).ring

theorem ringAfter_if (b : Bool) :
    ringAfter s (if b then some c else none) = if b then (s.moved c).ring else s.ring := by
  cases b <;> rfl

theorem failed_ringAfter (h : s'.ring = ringAfter s o) : s'.failed = s.failed := by
  cases o <;> exact (Prod.mk.inj (Prod.mk.inj (Prod.mk.inj (Prod.mk.inj h).2).2).2).2

/-- **A step** completes its call, if it completes one, and changes nothing else in the buffer,
or an ASSERT fails. -/
theorem intqStep_ring {a : IntqOp} (h : intqStep s a = some s') :
    s'.failed = false ∧ s'.ring = ringAfter s (intqCompletes s a) ∨ s' = { s with failed := true } := by
  have hsettle : ∀ o : Option IntqSys, s.failed = false →
      (∀ r, o = some r → r.ring = ringAfter s (intqCompletes s a)) → s.settle o = s' →
      s'.failed = false ∧ s'.ring = ringAfter s (intqCompletes s a) ∨ s' = { s with failed := true } := by
    rintro (_ | r) hf hr rfl
    · exact .inr rfl
    · exact .inl ⟨(failed_ringAfter (hr r rfl)).trans hf, hr r rfl⟩
  unfold intqStep at h
  split at h
  · cases h
  next hf =>
  simp only [Bool.not_eq_true] at hf
  cases a with
  | call t c =>
    simp only [Option.ite_none_right_eq_some, Option.some.injEq] at h
    refine hsettle _ hf (fun r hr => ?_) h.2
    rw [intqCompletes, ringAfter_if]
    exact attempt_ring hr
  | handler c =>
    simp only [Option.ite_none_right_eq_some, Option.some.injEq] at h
    refine hsettle _ hf (fun r hr => ?_) h.2
    rw [intqCompletes, if_pos h.1]
    exact finish_ring hr
  | resume t =>
    simp only [Option.ite_none_right_eq_some, Option.some.injEq] at h
    refine hsettle _ hf (fun r hr => ?_) h.2
    cases hpc : s.pc t with
    | out | lockWait d | condWait d =>
      rw [hpc] at hr
      cases hr
    | lockWoken d =>
      rw [hpc] at hr
      simp only [intqCompletes, hpc]
      exact acquire_ring hr
    | condWoken d =>
      rw [hpc] at hr
      obtain ⟨s1, h1, h2⟩ := Option.bind_eq_some_iff.mp hr
      have hring := release_ring h1
      simp only [intqCompletes, hpc]
      rw [ringAfter_if, attempt_ring h2, meets_of_ring hring, moved_ring hring, hring]

end

/-! ## The queue -/

/-- The ring holds what was put and has not been got. -/
structure FifoInv (h : IntqHistory) (pending : List UInt8) : Prop where
  holds : Holds intqBufsize h.sys.q.buf h.sys.q.head h.sys.q.tail pending
  bytes : putBytes h.done = h.sys.got ++ pending
  got : h.sys.got.length = getCnt h.done

theorem FifoInv.start : FifoInv historyStart [] := ⟨holds_nil _ (by decide), rfl, rfl⟩

section

variable {h h' : IntqHistory} {l : List UInt8}

theorem FifoInv.congr (hi : FifoInv h l) (hs : h'.sys.ring = h.sys.ring) (hd : h'.done = h.done) :
    FifoInv h' l := by
  simp only [IntqSys.ring, Prod.mk.injEq] at hs
  obtain ⟨hbuf, hhead, htail, hgot, -⟩ := hs
  refine ⟨?_, ?_, ?_⟩
  · rw [hbuf, hhead, htail]
    exact hi.holds
  · rw [hd, hgot]
    exact hi.bytes
  · rw [hd, hgot]
    exact hi.got

/-- **A completed call** puts a byte behind the others or takes the first one. -/
theorem FifoInv.complete (hi : FifoInv h l) {c : IntqCall} (hm : h.sys.q.meets c.awaits = true) :
    ∃ l', FifoInv ⟨h.sys.moved c, h.done ++ [c]⟩ l' := by
  cases c with
  | getc =>
    have hne : l ≠ [] := by
      intro hl
      simp only [IntqCall.awaits, Intq.meets, intqEmpty, hi.holds.empty_iff.mpr hl] at hm
      cases hm
    obtain ⟨x, l, rfl⟩ := List.exists_cons_of_ne_nil hne
    obtain ⟨hx, hpop⟩ := hi.holds.pop
    refine ⟨l, hpop, ?_, ?_⟩
    · show putBytes (h.done ++ [.getc]) = h.sys.got ++ [h.sys.q.buf h.sys.q.tail] ++ l
      rw [hx, List.append_assoc, putBytes, List.flatMap_append]
      exact (List.append_nil _).trans hi.bytes
    · show (h.sys.got ++ [_]).length = getCnt (h.done ++ [.getc])
      rw [List.length_append, hi.got, getCnt, getCnt, List.count_append]
      rfl
  | putc byte =>
    have hroom : l.length + 1 < intqBufsize := by
      have hne : l.length + 1 ≠ intqBufsize := by
        intro hl
        simp only [IntqCall.awaits, Intq.meets, intqFull, next, hi.holds.full_iff.mpr hl] at hm
        cases hm
      have := hi.holds.room
      omega
    refine ⟨l ++ [byte], hi.holds.push hroom byte, ?_, ?_⟩
    · show putBytes (h.done ++ [.putc byte]) = h.sys.got ++ [] ++ (l ++ [byte])
      rw [List.append_nil, ← List.append_assoc, ← hi.bytes, putBytes, List.flatMap_append]
      rfl
    · show (h.sys.got ++ []).length = getCnt (h.done ++ [.putc byte])
      rw [List.append_nil, hi.got, getCnt, getCnt, List.count_append]
      rfl

theorem completes_meets {s : IntqSys} {a : IntqOp} {c : IntqCall}
    (hc : intqCompletes s a = some c) : s.q.meets c.awaits = true := by
  have hif : ∀ {b : Bool} {d : IntqCall}, (if b then some d else none) = some c → d = c ∧ b = true := by
    intro b d hd
    cases b with
    | false => cases hd
    | true => exact ⟨Option.some.inj hd, rfl⟩
  cases a with
  | call t d =>
    obtain ⟨rfl, hm⟩ := hif hc
    exact hm
  | handler d =>
    obtain ⟨rfl, hm⟩ := hif hc
    exact hm
  | resume t =>
    cases hpc : s.pc t with
    | condWoken d =>
      simp only [intqCompletes, hpc] at hc
      obtain ⟨rfl, hm⟩ := hif hc
      exact hm
    | out | lockWait d | lockWoken d | condWait d =>
      simp only [intqCompletes, hpc] at hc
      cases hc

theorem FifoInv.step (hi : FifoInv h l) {a : IntqOp} (hs : historyStep h a = some h') :
    ∃ l', FifoInv h' l' := by
  obtain ⟨s', h1, rfl⟩ := Option.map_eq_some_iff.mp hs
  rcases intqStep_ring h1 with ⟨hf, hring⟩ | rfl
  · rw [hf]
    cases hc : intqCompletes h.sys a with
    | none =>
      rw [hc] at hring
      exact ⟨l, hi.congr hring (List.append_nil _)⟩
    | some c =>
      rw [hc] at hring
      obtain ⟨l', hi'⟩ := hi.complete (completes_meets hc)
      exact ⟨l', hi'.congr hring rfl⟩
  · exact ⟨l, ⟨hi.holds, hi.bytes, hi.got⟩⟩

theorem fifoInv_of_reach (hr : Reach historyStep Free historyStart h) : ∃ l, FifoInv h l :=
  hr.invariant (I := fun h => ∃ l, FifoInv h l) ⟨[], FifoInv.start⟩ fun _ _ _ ⟨_, hi⟩ _ hs => hi.step hs

/-- **The interrupt queue is a bounded queue.** In every run the positions are inside the buffer, at
most 63 bytes are pending, the queue is empty and full when its bytes say so, and the bytes got are
the bytes put, in order; those that are pending are still in the buffer. -/
theorem intq_fifo (hr : Reach historyStep Free historyStart h) :
    h.sys.q.head < intqBufsize ∧ h.sys.q.tail < intqBufsize ∧
    getCnt h.done ≤ (putBytes h.done).length ∧
    (putBytes h.done).length - getCnt h.done ≤ intqBufsize - 1 ∧
    (intqEmpty h.sys.q = true ↔ (putBytes h.done).length - getCnt h.done = 0) ∧
    (intqFull h.sys.q = true ↔ (putBytes h.done).length - getCnt h.done = intqBufsize - 1) ∧
    h.sys.got = (putBytes h.done).take (getCnt h.done) ∧
    ∀ i < (putBytes h.done).length - getCnt h.done,
      (putBytes h.done)[getCnt h.done + i]? = some (h.sys.q.buf ((h.sys.q.tail + i) % intqBufsize)) := by
  obtain ⟨l, hi⟩ := fifoInv_of_reach hr
  have hlen : (putBytes h.done).length = getCnt h.done + l.length := by
    rw [hi.bytes, List.length_append, hi.got]
  have hpending : (putBytes h.done).length - getCnt h.done = l.length := by omega
  have hroom := hi.holds.room
  rw [hpending]
  refine ⟨hi.holds.head_lt, hi.holds.tail_lt, by omega, by omega, ?_, ?_, ?_, fun i hl => ?_⟩
  · rw [intqEmpty, decide_eq_true_iff, hi.holds.empty_iff, List.length_eq_zero_iff]
  · rw [intqFull, decide_eq_true_iff, next, hi.holds.full_iff]
    omega
  · rw [hi.bytes, ← hi.got, List.take_left]
  · rw [hi.holds.cell i hl, hi.bytes, ← hi.got, List.getElem?_append_right (by omega), Nat.add_sub_cancel_left]
    exact List.getElem?_eq_getElem hl

end

/-- A handler puts two bytes, a thread gets one and puts another. -/
theorem three_bytes : ∃ h, runFrom historyStep historyStart [.handler (.putc 97), .handler (.putc 98),
      .call 1 .getc, .call 1 (.putc 99)] = some h ∧
    h.sys.got = (putBytes h.done).take 1 ∧ putBytes h.done = [97, 98, 99] ∧ intqEmpty h.sys.q = false := by
  refine ⟨_, rfl, ?_, rfl, rfl⟩
  exact (intq_fifo (reach_of_run [.handler (.putc 97), .handler (.putc 98), .call 1 .getc,
    .call 1 (.putc 99)] rfl)).2.2.2.2.2.2.1

end Pintos.Devices
