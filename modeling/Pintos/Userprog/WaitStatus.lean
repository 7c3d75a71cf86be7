import Pintos.Userprog.ChildStatus

/-!
# `process_wait` and the exit status

`process_wait` passes its gate, `ref_cnt` or `sema_exec`, only after the child's
`ref_cnt--` in `process_exit`, so what it reads is final. A child that calls `exit`
has stored its status by then. A child terminated in any other way has stored
nothing: `exit_status` is what `malloc` left there, and the value is right exactly
when that happens to be -1 (`StatusSet`).
-/

namespace Pintos.Userprog

open Pintos.Base Pintos.Threads

/-! ## The record that was found -/

def Site.found (c : RecId) : Site → Option (Int × RecId)
  | .wait x true => some (x, c)
  | _ => none

/-- The pid a `process_wait` is for, and the record it found. -/
def Pc.found : Pc → Option (Int × RecId)
  | .acquire k c | .hold k c | .dec k c | .test k c | .release k c _ | .releaseUp k c _ =>
    k.found c
  | .waitDown x true c | .waitRead x true c | .waitRemove x true c _ | .waitFree x c _
  | .waitReturn x (some c) _ => some (x, c)
  | _ => none

section

variable {t : Tid} {th : Thread} {recs : RecId → Rec} {ch : Choice} {m : Move} {a : Act}

/-- A `process_wait` keeps the record it found, and finds one by its `pid`. -/
theorem found_spec (h : move t th recs th.pc ch = some m) (ha : m.act = some a) :
    a.th.pc.found = none ∨ a.th.pc.found = th.pc.found ∨
      ∃ x cs c rest, th.pc = .scan x cs (c :: rest) ∧ (recs c).pid = x ∧
        a.th.pc.found = some (x, c) := by
  generalize hpc : th.pc = pc at h ⊢
  unfold move at h
  split at h
  -- load
  case h_1 ok =>
    obtain rfl := Option.some.inj h
    obtain rfl := Option.some.inj ha
    cases ok <;> exact .inl rfl
  -- ack
  case h_3 =>
    obtain rfl := Option.some.inj h
    obtain ⟨ws, -, rfl⟩ := up_act ha
    dsimp only
    split <;> exact .inl rfl
  -- exit
  case h_5 =>
    split at h
    · obtain rfl := Option.some.inj h
      cases ha
    · obtain rfl := Option.some.inj h
      obtain rfl := Option.some.inj ha
      exact .inl rfl
  -- init
  case h_7 i c tid =>
    obtain rfl := Option.some.inj h
    cases i <;>
    · obtain rfl := Option.some.inj ha
      exact .inl rfl
  -- execDown
  case h_8 =>
    obtain rfl := Option.some.inj h
    obtain ⟨-, rfl⟩ | ⟨-, ws, -, rfl⟩ := down_act ha
    · exact .inl rfl
    · exact .inr (.inl (by rw [← hpc]))
  -- readPid
  case h_9 =>
    obtain rfl := Option.some.inj h
    obtain rfl := Option.some.inj ha
    dsimp only
    split <;> exact .inl rfl
  -- scan
  case h_15 x cs c rest =>
    obtain rfl := Option.some.inj h
    obtain rfl := Option.some.inj ha
    dsimp only
    split
    · next hx => exact .inr (.inr ⟨x, cs, c, rest, rfl, hx, rfl⟩)
    · exact .inl rfl
  -- acquire
  case h_17 =>
    split at h
    · obtain rfl := Option.some.inj h
      cases ha
    · obtain rfl := Option.some.inj h
      obtain ⟨-, rfl⟩ | ⟨-, ws, -, rfl⟩ := down_act ha
      · exact .inr (.inl rfl)
      · exact .inr (.inl (by rw [← hpc]))
  -- hold
  case h_18 k c =>
    obtain rfl := Option.some.inj h
    obtain rfl := Option.some.inj ha
    cases k <;> exact .inr (.inl rfl)
  -- test
  case h_20 k c =>
    obtain rfl := Option.some.inj h
    obtain rfl := Option.some.inj ha
    cases k with
    | wait x found => exact .inr (.inl rfl)
    | child => exact .inl rfl
    | loop rest del =>
      dsimp only [Site.tested]
      split <;> exact .inl rfl
  -- release
  case h_21 =>
    split at h
    · obtain rfl := Option.some.inj h
      obtain rfl := Option.some.inj ha
      exact .inr (.inl rfl)
    · obtain rfl := Option.some.inj h
      cases ha
  case h_22 k c b =>
    obtain rfl := Option.some.inj h
    obtain ⟨ws, -, rfl⟩ := up_act ha
    cases k with
    | wait x found => cases found <;> cases b <;> exact .inr (.inl rfl)
    | child => cases b <;> exact .inl rfl
    | loop rest del => exact .inl rfl
  -- waitDown
  case h_23 x found c =>
    obtain rfl := Option.some.inj h
    obtain ⟨-, rfl⟩ | ⟨-, ws, -, rfl⟩ := down_act ha
    · cases found <;> exact .inr (.inl rfl)
    · exact .inr (.inl (by rw [← hpc]))
  -- waitRead
  case h_24 x found c =>
    obtain rfl := Option.some.inj h
    obtain rfl := Option.some.inj ha
    cases found <;> exact .inr (.inl rfl)
  -- exitBegin
  case h_29 =>
    split at h <;>
    · obtain rfl := Option.some.inj h
      obtain rfl := Option.some.inj ha
      exact .inl rfl
  -- exitUp
  case h_30 =>
    obtain rfl := Option.some.inj h
    obtain ⟨ws, -, rfl⟩ := up_act ha
    exact .inl rfl
  -- enlist
  case h_34 ok =>
    cases ok with
    | true =>
      obtain rfl := Option.some.inj h
      obtain rfl := Option.some.inj ha
      exact .inl rfl
    | false =>
      obtain rfl := Option.some.inj h
      cases ha
  all_goals first
    | obtain rfl := Option.some.inj h
      obtain rfl := Option.some.inj ha
      first
        | exact .inl rfl
        | exact .inr (.inl rfl)
    | obtain rfl := Option.some.inj h
      cases ha
    | cases h

end

/-- The record found is the one of the child that is waited for. -/
def Found (s : State) : Prop :=
  ∀ t x c, (s.thread t).pc.found = some (x, c) → x = (s.recs c).childTid

theorem found_put {s : State} {t : Tid} {a : Act} {ch : Choice} {m : Move} (hwf : WF s)
    (hnamed : ∀ r < s.nextRec, Named (s.view r)) (hf : Found s)
    (h : move t (s.thread t) s.recs (s.thread t).pc ch = some m) (ha : m.act = some a)
    (hm : MoveSpec (s.thread t) s.recs ch m.touched a) : Found (s.put t a) := by
  intro u x c hu
  show x = (a.recOf s.recs c).childTid
  rw [childTid_of_child (hm.history c).2]
  by_cases hut : u = t
  · subst hut
    obtain ⟨b, he⟩ := put_self (s := s) (t := u) (a := a)
    rw [he] at hu
    rcases found_spec h ha with h0 | h0 | ⟨y, cs, d, rest, hpc, hpid, h0⟩ <;>
      rw [show (Pc.found _) = _ from h0] at hu
    · cases hu
    · exact hf u x c hu
    · cases hu
      -- In the loop every record of the list is known by its child.
      have hmem : c ∈ (s.thread u).csList := by
        have hok := (hwf.ok u).pc
        rw [hpc] at hok
        cases cs with
        | none => exact hok ▸ List.mem_cons_self
        | some e => exact hok.2 List.mem_cons_self
      obtain ⟨hc, ho⟩ := hwf.holds u c (.inl hmem)
      have hp : (s.view c).p = .listed := by
        show (s.thread (s.recs c).owner).pstage c = _
        rw [ho]
        simp [Thread.pstage, hpc, Pc.focus, Pc.base, Pc.lists, hmem]
      exact hpid.symm.trans ((hnamed c hc).kept (by rw [hp]; rfl))
  · obtain ⟨b, he⟩ := put_other (s := s) (a := a) hut
    rw [he] at hu
    exact hf u x c hu

theorem found_focus {pc : Pc} {x : Int} {c : RecId} (h : pc.found = some (x, c)) :
    ∃ st, pc.focus = some (c, st) := by
  cases pc with
  | acquire k d | hold k d | dec k d | test k d | release k d b | releaseUp k d b =>
    cases k with
    | wait y found => cases found <;> cases h <;> exact ⟨_, rfl⟩
    | child => cases h
    | loop rest del => cases h
  | waitDown y found d | waitRead y found d | waitRemove y found d v =>
    cases found <;> cases h <;> exact ⟨_, rfl⟩
  | waitReturn y o v => cases o <;> cases h <;> exact ⟨_, rfl⟩
  | waitFree y d v => cases h; exact ⟨_, rfl⟩
  | _ => cases h

theorem found_spawn {s : State} {t : Tid} {g : Garbage} {child : Option Tid} (hwf : WF s)
    (hf : Found s) : Found (s.spawn t g child) := by
  intro u x c hu
  by_cases hut : u = t
  · subst hut
    rw [spawn_self] at hu
    cases hu
  · by_cases hc : child = some u
    · subst hc
      rw [spawn_child hut] at hu
      cases hu
    · rw [spawn_other hut hc] at hu
      obtain ⟨st, hfoc⟩ := found_focus hu
      rw [spawn_old (hwf.holds u c (holds_of_focus hfoc)).1]
      exact hf u x c hu

theorem found_step {s s' : State} {a : Label} (hwf : WF s)
    (hnamed : ∀ r < s.nextRec, Named (s.view r)) (hf : Found s)
    (h : procStep s a = some s') : Found s' := by
  obtain ⟨-, -, ⟨m, -, hpc, rfl⟩ | ⟨m, hm, rfl⟩⟩ := procStep_cases h
  · rcases processExecute_cases s a.t m with he | he | ⟨g, ⟨-, he⟩ | ⟨-, he⟩⟩ <;> rw [he]
    · intro u x c hu
      by_cases hut : u = a.t
      · subst hut
        obtain ⟨b, he⟩ := put_self (s := s) (t := a.t)
          (a := ⟨{ s.thread a.t with pc := .execReturn none tidError }, none, none⟩)
        rw [he] at hu
        cases hu
      · obtain ⟨b, he⟩ := put_other (s := s)
          (a := ⟨{ s.thread a.t with pc := .execReturn none tidError }, none, none⟩) hut
        rw [he] at hu
        exact hf u x c hu
    · exact hf
    · exact found_spawn hwf hf
    · exact found_spawn hwf hf
  · rcases apply_cases s a.t m with ⟨-, he⟩ | ⟨-, ⟨-, he⟩ | ⟨act, ha, he⟩⟩ <;> rw [he]
    · exact hf
    · exact hf
    · exact found_put hwf hnamed hf hm ha (move_spec (hwf.ok a.t) (hwf.tid a.t) hm ha).2

theorem found_of_reach {s : State} {ok : State → Label → Prop}
    (h : Reach procStep ok State.init s) : Found s := by
  induction h with
  | refl =>
    intro t x c hu
    rcases init_thread t with he | ⟨he, -⟩ <;> rw [he] at hu <;> cases hu
  | next hreach _ hs ih =>
    obtain ⟨hwf, hI⟩ := view_invariant (I := Named) (fun _ _ _ _ hf _ => hf.named)
      (fun _ _ _ _ _ hg hi hp => hp.named hg hi) hreach
    exact found_step hwf (fun r hr => (hI r hr).2) ih hs

/-! ## The status -/

/-- How `process_wait` reports a process that was loaded. -/
def Fate.status : Fate → Int
  | .exit v => v
  | .killed | .unloaded => -1

/-- **What `process_wait` promises.** When it returns for a record it found, that record
is the one of the child asked for, the child is through its `ref_cnt--` in
`process_exit`, and the value is the child's status if the child was loaded. It
returns without a record only when the caller has none. -/
def WaitOk (s : State) : Prop :=
  (∀ p x r v, (s.thread p).pc = .waitReturn x (some r) v → ∃ c : Tid,
    (s.recs r).child = some c ∧ x = c ∧ (s.thread c).pc.cstage.decs = 1 ∧
    ∃ f, (s.thread c).fate = some f ∧ ((s.thread c).success = some true →
      f ≠ .unloaded ∧ v = f.status)) ∧
  ∀ p x v, (s.thread p).pc = .waitReturn x none v → (s.thread p).csList = [] ∧ v = -1

/-- The protocol's part of it. -/
structure Waited (v : View) : Prop where
  named : Named v
  ended : Ended v
  settled : Settled v

theorem waited_status {v : View} (hg : Gates v) (hw : Waited v) {x : Int} (hp : v.p = .reaped x) :
    v.c.decs = 1 ∧ ∃ f, v.fate = some f ∧ (v.ok = some true → f ≠ .unloaded ∧ x = f.status) := by
  have hdecs := hg.behind (by rw [hp]; rfl)
  have hread := hw.named.read x (.inr hp)
  refine ⟨hdecs, ?_⟩
  cases hf : v.fate with
  | none => exact absurd hf (hg.fate hdecs)
  | some f =>
    refine ⟨f, rfl, fun hok => ?_⟩
    cases f with
    | exit w => exact ⟨nofun, hread.trans (hw.settled.exit w hf)⟩
    | killed => exact ⟨nofun, hread.trans (hw.settled.killed hf)⟩
    | unloaded =>
      rw [hw.ended.unloaded hf] at hok
      cases hok

/-- **`process_wait` returns the child's status**, in every run in which a process
terminated without `exit` has -1 in its `exit_status`. -/
theorem wait_returns_status {s : State} (h : Reach procStep StatusSet State.init s) : WaitOk s := by
  obtain ⟨hwf, hI⟩ := view_invariant (I := Waited)
    (fun _ _ _ _ hf _ => ⟨hf.named, hf.ended, hf.settled⟩)
    (fun _ _ _ _ hok hg hi hp => ⟨hp.named hg hi.named, hp.ended hi.ended, hp.settled hok hi.settled⟩)
    h
  refine ⟨fun p x r v hpc => ?_, fun p x v hpc => ?_⟩
  · have hf : (s.thread p).pc.focus = some (r, .reaped v) := by rw [hpc]; rfl
    obtain ⟨hr, ho⟩ := hwf.holds p r (holds_of_focus hf)
    have hx := found_of_reach h p x r (by rw [hpc]; rfl)
    obtain ⟨hg, hw⟩ := hI r hr
    have hp : (s.view r).p = .reaped v := by
      subst ho
      exact pstage_focus hf
    obtain ⟨hdecs, hfate⟩ := waited_status hg hw hp
    simp only [State.view, Rec.view, State.cview] at hdecs hfate
    simp only [Rec.childTid] at hx
    cases hc : (s.recs r).child with
    | none => simp [hc, CStage.decs] at hdecs
    | some c =>
      simp only [hc] at hx hdecs hfate
      exact ⟨c, rfl, hx, hdecs, hfate⟩
  · have hok := (hwf.ok p).pc
    rw [hpc] at hok
    exact hok

/-- The initial thread waits for a child that exits with 7. -/
theorem wait_returns_status_exit : ∃ s, Reach procStep StatusSet State.init s ∧
    (s.thread 1).pc = .waitReturn 3 (some 0) 7 ∧ WaitOk s := by
  have h : Reach procStep StatusSet State.init _ := reach_of_guarded
    (⟨1, execOk zeroed⟩ :: goes 1 7 ++ ⟨3, .load true⟩ :: goes 3 1 ++ goes 1 3 ++
      ⟨1, .wait 3⟩ :: ⟨3, .exit 7⟩ :: goes 3 10 ++ goes 1 9) rfl
  exact ⟨_, h, rfl, wait_returns_status h⟩

/-- **A killed child.** Its `exit_status` is never set: with zeros in the block
`process_wait` returns 0. -/
theorem killed_child_status : ¬ ∀ s, Reach procStep Free State.init s → WaitOk s := by
  intro h
  have hrun : Reach procStep Free State.init _ := reach_of_run
    (⟨1, execOk zeroed⟩ :: goes 1 7 ++ ⟨3, .load true⟩ :: goes 3 1 ++ goes 1 3 ++
      ⟨1, .wait 3⟩ :: ⟨3, .kill⟩ :: goes 3 10 ++ goes 1 9) rfl
  obtain ⟨c, hc, -, -, f, hf, hv⟩ := (h _ hrun).1 1 3 0 0 rfl
  obtain rfl : 3 = c := Option.some.inj hc
  obtain rfl : Fate.killed = f := Option.some.inj hf
  exact absurd (hv rfl).2 (by decide)

end Pintos.Userprog
