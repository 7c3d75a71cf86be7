import Pintos.Base.Reach
import Pintos.Threads.Synch
import Mathlib.Data.List.Nodup

/-!
# One semaphore and its threads (threads/synch.c)

A thread that `sema_up` takes from the waiters is only made ready: it tests the
value again when it runs, and another `sema_down` or a `sema_try_down` can take the
unit before that and send it back to the waiters. `woken` lists the threads between
these two points. Every unit that is free while somebody sleeps has a woken thread
that will look at it, so no wake-up is lost.
-/

namespace Pintos.Threads

open Pintos.Base

/-- A semaphore, the threads on their way back from its waiters, and the operations
completed so far. -/
structure SemaSys where
  sema : Semaphore
  /-- Unblocked, with the value not yet tested again. -/
  woken : List Tid
  ups : Nat
  downs : Nat
  deriving DecidableEq, Repr

inductive SemaOp where
  /-- A thread calls `sema_down`. -/
  | down (t : Tid)
  /-- A woken thread runs, and tests the value again. -/
  | retest (t : Tid)
  /-- A thread or an interrupt handler calls `sema_try_down`. -/
  | tryDown
  /-- A thread or an interrupt handler calls `sema_up`. -/
  | up
  deriving DecidableEq, Repr

/-- `sema_init`. -/
def semaStart (v0 : Nat) : SemaSys := ⟨⟨v0, some []⟩, [], 0, 0⟩

def SemaSys.asleep (s : SemaSys) : List Tid := s.sema.waiters.getD []

/-- One test of the loop of `sema_down`. -/
def SemaSys.test (s : SemaSys) (t : Tid) : Option SemaSys :=
  match semaDown s.sema t with
  | .pass x => some { s with sema := x, downs := s.downs + 1 }
  | .block x => some { s with sema := x }
  | .fault => none

def semaStep (s : SemaSys) : SemaOp → Option SemaSys
  | .down t => if t ∈ s.asleep ∨ t ∈ s.woken then none else s.test t
  | .retest t => if t ∈ s.woken then SemaSys.test { s with woken := s.woken.erase t } t else none
  | .tryDown =>
    match semaTryDown s.sema with
    | some x => some { s with sema := x, downs := s.downs + 1 }
    | none => some s
  | .up =>
    match semaUp s.sema with
    | some (x, w) => some { s with sema := x, woken := s.woken ++ w.toList, ups := s.ups + 1 }
    | none => none

/-- The next `sema_up` leaves fewer than `2 ^ 32` units. -/
def NetUps (v0 : Nat) (s : SemaSys) (a : SemaOp) : Prop :=
  a = .up → v0 + s.ups + 1 < 2 ^ 32 + s.downs

instance (v0 : Nat) (s : SemaSys) (a : SemaOp) : Decidable (NetUps v0 s a) := by
  unfold NetUps; infer_instance

/-- **The invariant**: the units are accounted for, nobody is twice in `sema_down`,
and while somebody sleeps the woken threads outnumber the units. -/
structure SemaInv (v0 : Nat) (ws : List Tid) (s : SemaSys) : Prop where
  waiters : s.sema.waiters = some ws
  units : s.sema.value + s.downs = v0 + s.ups
  bound : s.sema.value < 2 ^ 32
  nodup : (ws ++ s.woken).Nodup
  inFlight : ws ≠ [] → s.sema.value ≤ s.woken.length

theorem SemaSys.test_some {s s' : SemaSys} {t : Tid} (h : s.test t = some s') :
    (0 < s.sema.value ∧
      s' = { s with sema.value := s.sema.value - 1, downs := s.downs + 1 }) ∨
    (s.sema.value = 0 ∧ ∃ ws, s.sema.waiters = some ws ∧
      s' = { s with sema.waiters := some (ws ++ [t]) }) := by
  unfold SemaSys.test at h
  split at h
  · next x hx =>
    obtain ⟨hv, rfl⟩ := semaDown_pass hx
    cases h
    exact .inl ⟨hv, rfl⟩
  · next x hx =>
    obtain ⟨hv, ws, hws, rfl⟩ := semaDown_block hx
    cases h
    exact .inr ⟨hv, ws, hws, rfl⟩
  · cases h

section

variable {v0 : Nat} {ws : List Tid} {s s' : SemaSys} {t : Tid}

/-- A test of the value by a thread that neither sleeps nor is woken any more. -/
theorem SemaInv.of_test (hw : s.sema.waiters = some ws)
    (hu : s.sema.value + s.downs = v0 + s.ups) (hb : s.sema.value < 2 ^ 32)
    (hn : (ws ++ s.woken).Nodup) (ht : t ∉ ws ++ s.woken)
    (hf : ws ≠ [] → s.sema.value ≤ s.woken.length + 1) (h : s.test t = some s') :
    ∃ ws', SemaInv v0 ws' s' := by
  obtain ⟨hv, rfl⟩ | ⟨hv, ws', hws', rfl⟩ := SemaSys.test_some h
  · refine ⟨ws, hw, ?_, ?_, hn, fun hne => ?_⟩
    · show s.sema.value - 1 + (s.downs + 1) = v0 + s.ups
      omega
    · show s.sema.value - 1 < 2 ^ 32
      omega
    · show s.sema.value - 1 ≤ s.woken.length
      have := hf hne
      omega
  · rw [hw] at hws'
    cases hws'
    refine ⟨ws ++ [t], rfl, hu, hb, ?_, fun _ => hv.le.trans (Nat.zero_le _)⟩
    rw [List.append_assoc, List.singleton_append]
    exact List.nodup_middle.mpr (List.nodup_cons.mpr ⟨ht, hn⟩)

theorem SemaInv.down (hi : SemaInv v0 ws s) (h : semaStep s (.down t) = some s') :
    ∃ ws', SemaInv v0 ws' s' := by
  simp only [semaStep, SemaSys.asleep, hi.waiters, Option.getD_some] at h
  split at h
  · cases h
  · next ht =>
    refine SemaInv.of_test hi.waiters hi.units hi.bound hi.nodup ?_ (fun hne => ?_) h
    · rw [List.mem_append]
      exact ht
    · exact Nat.le_succ_of_le (hi.inFlight hne)

theorem SemaInv.retest (hi : SemaInv v0 ws s) (h : semaStep s (.retest t) = some s') :
    ∃ ws', SemaInv v0 ws' s' := by
  simp only [semaStep] at h
  split at h
  · next ht =>
    have hn := List.nodup_append.mp hi.nodup
    refine SemaInv.of_test (s := { s with woken := s.woken.erase t }) hi.waiters hi.units hi.bound
      ?_ ?_ (fun hne => ?_) h
    · exact List.nodup_append.mpr ⟨hn.1, hn.2.1.erase t,
        fun a ha b hb => hn.2.2 a ha b (List.mem_of_mem_erase hb)⟩
    · rw [List.mem_append, not_or]
      exact ⟨fun hmem => hn.2.2 t hmem t ht rfl, fun hmem => (hn.2.1.mem_erase_iff.mp hmem).1 rfl⟩
    · have := hi.inFlight hne
      have := List.length_pos_of_mem ht
      simp only [List.length_erase_of_mem ht]
      omega
  · cases h

theorem SemaInv.tryDown (hi : SemaInv v0 ws s) (h : semaStep s .tryDown = some s') :
    ∃ ws', SemaInv v0 ws' s' := by
  simp only [semaStep] at h
  split at h
  · next x hx =>
    obtain ⟨hv, rfl⟩ := semaTryDown_some hx
    cases h
    have hu := hi.units
    have hb := hi.bound
    refine ⟨ws, hi.waiters, ?_, ?_, hi.nodup, fun hne => (Nat.sub_le _ _).trans (hi.inFlight hne)⟩
    · show s.sema.value - 1 + (s.downs + 1) = v0 + s.ups
      omega
    · show s.sema.value - 1 < 2 ^ 32
      omega
  · cases h
    exact ⟨ws, hi⟩

/-- `sema_up` adds a unit and, while somebody sleeps, a woken thread. -/
theorem SemaInv.up (hi : SemaInv v0 ws s) (hn : NetUps v0 s .up)
    (h : semaStep s .up = some s') : ∃ ws', SemaInv v0 ws' s' := by
  have hu := hi.units
  have hlt := hn rfl
  have hmod : (s.sema.value + 1) % 2 ^ 32 = s.sema.value + 1 := Nat.mod_eq_of_lt (by omega)
  simp only [semaStep] at h
  split at h
  · next x w hx =>
    obtain ⟨ws', hws', rfl, rfl⟩ := semaUp_some hx
    rw [hi.waiters] at hws'
    cases hws'
    cases h
    rw [hmod]
    refine ⟨ws.tail, rfl, ?_, ?_, ?_, fun hne => ?_⟩
    · show s.sema.value + 1 + s.downs = v0 + (s.ups + 1)
      omega
    · show s.sema.value + 1 < 2 ^ 32
      omega
    · cases ws with
      | nil => simpa using hi.nodup
      | cons t ts =>
        have hn := hi.nodup
        show (ts ++ (s.woken ++ [t])).Nodup
        rw [← List.append_assoc]
        exact (List.perm_append_singleton t _).nodup_iff.mpr hn
    · cases ws with
      | nil => exact absurd rfl hne
      | cons t ts =>
        have := hi.inFlight (List.cons_ne_nil t ts)
        simp only [List.head?_cons, Option.toList_some, List.length_append, List.length_singleton]
        omega
  · cases h

theorem SemaInv.step (hi : SemaInv v0 ws s) {a : SemaOp} (hn : NetUps v0 s a)
    (h : semaStep s a = some s') : ∃ ws', SemaInv v0 ws' s' := by
  cases a with
  | down t => exact hi.down h
  | retest t => exact hi.retest h
  | tryDown => exact hi.tryDown h
  | up => exact hi.up hn h

theorem SemaInv.start (hv : v0 < 2 ^ 32) : SemaInv v0 [] (semaStart v0) where
  waiters := rfl
  units := rfl
  bound := hv
  nodup := List.nodup_nil
  inFlight h := absurd rfl h

theorem SemaInv.reach (hv : v0 < 2 ^ 32) (h : Reach semaStep (NetUps v0) (semaStart v0) s) :
    ∃ ws, SemaInv v0 ws s :=
  h.invariant (I := fun s => ∃ ws, SemaInv v0 ws s) ⟨[], .start hv⟩
    fun _ _ _ ⟨_, hi⟩ hn hs => hi.step hn hs

end

/-- **No unit and no wake-up is lost.** In every interleaving the value is the initial
one plus the ups less the downs, which never outnumber them; and while the value is
positive and threads sleep, at least that many threads are awake and have still to
test it. -/
theorem semaphore_correct {v0 : Nat} (hv : v0 < 2 ^ 32) {s : SemaSys}
    (h : Reach semaStep (NetUps v0) (semaStart v0) s) :
    s.downs ≤ v0 + s.ups ∧ s.sema.value = v0 + s.ups - s.downs ∧ s.sema.value < 2 ^ 32 ∧
      ∃ ws, s.sema.waiters = some ws ∧ (ws ++ s.woken).Nodup ∧
        (0 < s.sema.value → ws ≠ [] → s.sema.value ≤ s.woken.length) := by
  obtain ⟨ws, hi⟩ := SemaInv.reach hv h
  have hu := hi.units
  exact ⟨by omega, by omega, hi.bound, ws, hi.waiters, hi.nodup, fun _ => hi.inFlight⟩

/-- Three sleepers and two ups: the first woken thread finds its unit taken by a
`sema_try_down` and sleeps again, behind the third. -/
theorem overtaken_sleeper :
    ∃ s, runFrom (guarded semaStep (NetUps 0)) (semaStart 0)
        [.down 1, .down 2, .down 3, .up, .tryDown, .retest 1, .up] = some s ∧
      s.sema = ⟨1, some [3, 1]⟩ ∧ s.sema.value = 0 + s.ups - s.downs ∧
      s.sema.value ≤ s.woken.length := by
  refine ⟨_, rfl, rfl, ?_⟩
  obtain ⟨-, hval, -, ws, hws, -, hfl⟩ :=
    @semaphore_correct 0 (by decide) _ (reach_of_guarded
      [.down 1, .down 2, .down 3, .up, .tryDown, .retest 1, .up] rfl)
  refine ⟨hval, hfl (by decide) ?_⟩
  rintro rfl
  cases hws

end Pintos.Threads
