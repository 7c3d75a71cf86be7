import Mathlib.Algebra.Order.Ring.Int

/-!
# Semaphores and locks (threads/synch.c)

`sema_down`, `sema_try_down` and `sema_up` run with interrupts disabled, so each
is one step. `sema_init` and the statements of the lock functions around their
semaphore do not, and are left to the programs that call them.

`waiters` is the list of blocked threads, or `none` for memory on which
`list_init` has not run: `list_empty` then compares a stray pointer and
`list_pop_front` follows it, which is an ASSERT in `list_remove` on zeroed memory
and a wild access otherwise. Both end the kernel.
-/

namespace Pintos.Threads

abbrev Tid := Nat

structure Semaphore where
  value : Nat
  waiters : Option (List Tid)
  deriving DecidableEq, Repr

/-- What `sema_down` does to the calling thread. -/
inductive Down where
  | pass (s : Semaphore)
  | block (s : Semaphore)
  | fault
  deriving DecidableEq, Repr

/-- One pass of the loop of `sema_down` by thread `t`: take a unit, or join the
waiters and block. A woken thread runs it again. -/
def semaDown (s : Semaphore) (t : Tid) : Down :=
  if s.value = 0 then
    match s.waiters with
    | none => .fault
    | some ws => .block { s with waiters := some (ws ++ [t]) }
  else .pass { s with value := s.value - 1 }

/-- `sema_try_down`: the semaphore with one unit less, or `none` when it has none. -/
def semaTryDown (s : Semaphore) : Option Semaphore :=
  if 0 < s.value then some { s with value := s.value - 1 } else none

/-- `sema_up`: the new semaphore and the thread it unblocks, if any. The counter
is an `unsigned`. -/
def semaUp (s : Semaphore) : Option (Semaphore × Option Tid) :=
  match s.waiters with
  | none => none
  | some [] => some ({ s with value := (s.value + 1) % 2 ^ 32 }, none)
  | some (t :: ts) => some ({ value := (s.value + 1) % 2 ^ 32, waiters := some ts }, some t)

theorem semaDown_pass {s s' : Semaphore} {t : Tid} (h : semaDown s t = .pass s') :
    0 < s.value ∧ s' = { s with value := s.value - 1 } := by
  unfold semaDown at h
  split at h
  · split at h <;> cases h
  · next hv => cases h; exact ⟨Nat.pos_of_ne_zero hv, rfl⟩

theorem semaDown_block {s s' : Semaphore} {t : Tid} (h : semaDown s t = .block s') :
    s.value = 0 ∧ ∃ ws, s.waiters = some ws ∧ s' = { s with waiters := some (ws ++ [t]) } := by
  unfold semaDown at h
  split at h
  · next hv =>
    split at h
    · cases h
    · next ws hw => cases h; exact ⟨hv, ws, hw, rfl⟩
  · cases h

theorem semaDown_fault {s : Semaphore} {t : Tid} (h : semaDown s t = .fault) :
    s.value = 0 ∧ s.waiters = none := by
  unfold semaDown at h
  split at h
  · next hv =>
    split at h
    · next hw => exact ⟨hv, hw⟩
    · cases h
  · cases h

theorem semaTryDown_some {s s' : Semaphore} (h : semaTryDown s = some s') :
    0 < s.value ∧ s' = { s with value := s.value - 1 } := by
  unfold semaTryDown at h
  split at h
  · next hv => cases h; exact ⟨hv, rfl⟩
  · cases h

theorem semaUp_none {s : Semaphore} : semaUp s = none ↔ s.waiters = none := by
  unfold semaUp
  split <;> simp_all

theorem semaUp_some {s s' : Semaphore} {w : Option Tid} (h : semaUp s = some (s', w)) :
    ∃ ws, s.waiters = some ws ∧ w = ws.head? ∧
      s' = { value := (s.value + 1) % 2 ^ 32, waiters := some ws.tail } := by
  unfold semaUp at h
  split at h
  · cases h
  · next hw => cases h; exact ⟨[], hw, rfl, by rw [hw]; rfl⟩
  · next t ts hw => cases h; exact ⟨t :: ts, hw, rfl, rfl⟩

end Pintos.Threads
