import Pintos.Userprog.ChildStatus

/-!
# The exec handshake

`process_execute` learns from `sema_exec` that the child has loaded, and from `pid`
whether it succeeded. Both are initialised after `thread_create` has made the child
runnable: a child that comes first has its unit or its -1 overwritten, and when
`thread_create` fails nobody ups the semaphore. In every other run, the runs of
`Prompt`, the value returned is right and the parent never sleeps in vain.
-/

namespace Pintos.Userprog

open Pintos.Base Pintos.Threads

/-! ## Who sleeps where -/

/-- What a statement does to the waiters. -/
inductive SemaSpec (t : Tid) (th : Thread) (recs : RecId → Rec) (a : Act) : Prop where
  /-- Nobody starts or stops waiting; a list may be initialised. -/
  | none (hw : a.wake = none) (hb : a.th.blocked = th.blocked)
      (he : ∀ r, (a.recOf recs r).semaExec = (recs r).semaExec ∨
        (∃ st, th.pc.focus = some (r, st)) ∧
          ((a.recOf recs r).semaExec.waiters = (recs r).semaExec.waiters ∨
            (a.recOf recs r).semaExec.waiters = some []))
      (hl : ∀ r, (a.recOf recs r).lockSema.waiters = (recs r).lockSema.waiters ∨
        (a.recOf recs r).lockSema.waiters = some [])
  | blockLock {k : Site} {c : RecId} {ws : List Tid} (hpc : th.pc = .acquire k c)
      (hws : (recs c).lockSema.waiters = some ws)
      (ha : a = ⟨{ th with blocked := true }, some (c, { recs c with
        lockSema := { (recs c).lockSema with waiters := some (ws ++ [t]) } }), .none⟩)
  | blockExec {c : RecId} {ws : List Tid}
      (hpc : th.pc = .execDown c ∨ ∃ x f, th.pc = .waitDown x f c)
      (hv : (recs c).semaExec.value = 0) (hws : (recs c).semaExec.waiters = some ws)
      (ha : a = ⟨{ th with blocked := true }, some (c, { recs c with
        semaExec := { (recs c).semaExec with waiters := some (ws ++ [t]) } }), .none⟩)
  | upLock {c : RecId} {ws : List Tid} {v : Nat} {th' : Thread}
      (hws : (recs c).lockSema.waiters = some ws)
      (ha : a = ⟨th', some (c, { recs c with lockSema := ⟨v, some ws.tail⟩ }), ws.head?⟩)
      (hb : th'.blocked = th.blocked)
  | upExec {c : RecId} {ws : List Tid} {v : Nat} {th' : Thread}
      (hws : (recs c).semaExec.waiters = some ws)
      (ha : a = ⟨th', some (c, { recs c with semaExec := ⟨v, some ws.tail⟩ }), ws.head?⟩)
      (hb : th'.blocked = th.blocked)

section

variable {t : Tid} {th : Thread} {recs : RecId → Rec} {c : RecId} {ch : Choice} {m : Move} {a : Act}

/-- A statement that does not write. -/
theorem SemaSpec.read {th' : Thread} (hb : th'.blocked = th.blocked) :
    SemaSpec t th recs ⟨th', .none, .none⟩ :=
  .none rfl hb (fun _ => .inl rfl) fun _ => .inl rfl

/-- A store that leaves the semaphores alone. -/
theorem SemaSpec.store {th' : Thread} {r' : Rec} (hb : th'.blocked = th.blocked)
    (he : r'.semaExec = (recs c).semaExec) (hl : r'.lockSema = (recs c).lockSema) :
    SemaSpec t th recs ⟨th', some (c, r'), .none⟩ := by
  refine .none rfl hb (fun r => .inl ?_) fun r => .inl ?_ <;>
  · unfold Act.recOf
    dsimp only
    split
    · next h => subst h; simp [he, hl]
    · rfl

theorem SemaSpec.initMove {i : Init} {tid : Int} (hpc : th.pc = .init i c tid)
    (ha : (initMove th recs c tid i).act = some a) : SemaSpec t th recs a := by
  have hf : ∃ st, th.pc.focus = some (c, st) := by
    rw [hpc]
    cases i <;> exact ⟨_, rfl⟩
  cases i with
  | lockHolder | storePid =>
    obtain rfl := Option.some.inj ha
    exact .store rfl rfl rfl
  | push =>
    obtain rfl := Option.some.inj ha
    exact .read rfl
  | semaValue | semaList | lockValue | lockList =>
    obtain rfl := Option.some.inj ha
    refine .none rfl rfl (fun r => ?_) fun r => ?_ <;>
    · unfold Act.recOf
      dsimp only
      split
      · next h => subst h; simp [hf]
      · simp

end

/-- The thread is at a `sema_down` of `sema_exec` of `c`. -/
def Pc.AtExec (pc : Pc) (c : RecId) : Prop := pc = .execDown c ∨ ∃ x f, pc = .waitDown x f c

theorem AtExec.focus {pc : Pc} {c : RecId} (h : pc.AtExec c) : ∃ st, pc.focus = some (c, st) := by
  rcases h with rfl | ⟨x, f, rfl⟩ <;> exact ⟨_, rfl⟩

section

variable {s : State} {t : Tid} {a : Act}

theorem AtExec.unique {pc : Pc} {c d : RecId} (h : pc.AtExec c) (h' : pc.AtExec d) : c = d := by
  rcases h with rfl | ⟨x, f, rfl⟩ <;> rcases h' with h' | ⟨x', f', h'⟩ <;> cases h' <;> rfl

end

/-- The child has a `sema_up` of `sema_exec` ahead of it. -/
def CStage.willUp : CStage → Bool
  | .loading | .erring | .acking | .acked | .dec | .upping => true
  | _ => false

/-- **What `process_execute` promises**: it returns the tid of a child that was loaded
and -1 otherwise, and a parent blocked in its `sema_down` has a live child that will
up the semaphore. -/
def Handshake (s : State) : Prop :=
  (∀ p c v, (s.thread p).pc = .execReturn (some c) v → ∃ t, (s.recs c).child = some t ∧
    ((s.thread t).success = some true ∧ v = t ∨
      (s.thread t).success = some false ∧ v = tidError)) ∧
  (∀ p v, (s.thread p).pc = .execReturn none v → v = tidError) ∧
  ∀ p c, (s.thread p).pc = .execDown c → (s.thread p).blocked = true →
    ∃ t, (s.recs c).child = some t ∧ (s.thread t).pc.cstage.willUp = true

end Pintos.Userprog
