import Pintos.Userprog.ProcessView

/-!
# Runs of the processes

The scheduling conditions of the protocol, said of whole states, and the two
results the claims about processes are drawn from: every step acts on each record
as the protocol allows (`view_step`), and an invariant of the protocol holds of
every record in every run (`view_invariant`).
-/

namespace Pintos.Userprog

open Pintos.Base Pintos.Threads

/-! ## Scheduling conditions -/

/-- A record is not freed inside a window of the other party: by the parent while the
child has not finished the part of `process_exit` on `cs_parent`, by the child while
the parent is not through the loops of `process_exit`. -/
def Quiet (s : State) (a : Label) : Prop :=
  (match (s.thread a.t).pc with
    | .execFree c | .waitFree _ c _ | .delFree c _ => decide ((s.cview c).c = .done)
    | .exitFree c => decide ((s.thread (s.recs c).owner).pc = .dead)
    | _ => true) = true

/-- Where the thread is in the initialisation of the record `c`. -/
def Pc.initOf (c : RecId) : Pc → Option Init
  | .init i d _ => if d = c then some i else none
  | _ => none

/-- `thread_create` does not fail, and the child's `sema_up` and its `pid = -1` in
`start_process` come after the parent has initialised what they change. -/
def Prompt (s : State) (a : Label) : Prop :=
  (match (s.thread a.t).pc, a.choice with
    | .user, .exec m => m.thread
    | .ack c, _ => decide ((s.thread (s.recs c).owner).pc.initOf c ≠ some .semaValue)
    | .storeErr c, _ => decide ((s.thread (s.recs c).owner).pc.initOf c = none)
    | _, _ => true) = true

/-- A process is terminated without `exit` only when its `exit_status` holds -1. -/
def StatusSet (s : State) (a : Label) : Prop :=
  (match a.choice, (s.thread a.t).csParent with
    | .kill, some c => decide ((s.recs c).exitStatus = -1)
    | _, _ => true) = true

instance (s : State) (a : Label) : Decidable (Quiet s a) := inferInstanceAs (Decidable (_ = true))

instance (s : State) (a : Label) : Decidable (Prompt s a) := inferInstanceAs (Decidable (_ = true))

instance (s : State) (a : Label) : Decidable (StatusSet s a) :=
  inferInstanceAs (Decidable (_ = true))

def guards (s : State) (a : Label) : Guards := ⟨Quiet s a, Prompt s a, StatusSet s a⟩

/-! ## Steps -/

/-- The state after a statement that goes through. -/
def State.put (s : State) (t : Tid) (a : Act) : State :=
  { s with
    thread := wakeThread (Function.update s.thread t a.th) a.wake
    recs := a.recOf s.recs }

theorem apply_cases (s : State) (t : Tid) (m : Move) :
    (∃ c ∈ m.touched, (s.recs c).freed ≠ 0) ∧ s.apply t m = s.fail .useAfterFree ∨
    (∀ c ∈ m.touched, (s.recs c).freed = 0) ∧
      (m.act = none ∧ s.apply t m = s.fail .panic ∨
        ∃ a, m.act = some a ∧ s.apply t m = s.put t a) := by
  unfold State.apply
  by_cases h : m.touched.any (fun c => (s.recs c).freed ≠ 0) = true
  · rw [if_pos h]
    exact .inl ⟨by simpa using h, rfl⟩
  · rw [if_neg h]
    refine .inr ⟨by simpa using h, ?_⟩
    cases hm : m.act with
    | none => exact .inl ⟨rfl, rfl⟩
    | some a =>
      refine .inr ⟨a, rfl, ?_⟩
      dsimp only [State.put]
      congr 1
      funext c
      unfold Act.recOf
      cases a.write with
      | none => rfl
      | some w => simp [Function.update_apply, eq_comm]

/-- One step: `process_execute` is called, or a statement is carried out. -/
theorem procStep_cases {s s' : State} {a : Label} (h : procStep s a = some s') :
    s.fault = none ∧ (s.thread a.t).blocked = false ∧
    ((∃ m, a.choice = .exec m ∧ (s.thread a.t).pc = .user ∧ s' = processExecute s a.t m) ∨
      ∃ m, move a.t (s.thread a.t) s.recs (s.thread a.t).pc a.choice = some m ∧
        s' = s.apply a.t m) := by
  unfold procStep at h
  split at h
  · cases h
  · next hgo =>
    simp only [ne_eq, not_or, not_not, Bool.not_eq_true] at hgo
    refine ⟨hgo.1, hgo.2, ?_⟩
    split at h
    · next m hm =>
      split at h
      · next hpc =>
        refine .inl ⟨m, ?_, hpc, (Option.some.inj h).symm⟩
        generalize a.choice = ch at hm
        cases ch <;> cases hm
        rfl
      · cases h
    · obtain ⟨m, hm, hs⟩ := Option.map_eq_some_iff.mp h
      exact .inr ⟨m, hm, hs.symm⟩

section

variable {s : State} {t u : Tid} {a : Act}

/-- Up to `blocked`, only the running thread changes. -/
theorem put_thread : ∃ b, (s.put t a).thread u =
    { (if u = t then a.th else s.thread u) with blocked := b } := by
  have hupd : Function.update s.thread t a.th u = if u = t then a.th else s.thread u := by
    simp [Function.update_apply]
  show ∃ b, wakeThread (Function.update s.thread t a.th) a.wake u = _
  cases hw : a.wake with
  | none =>
    rw [wakeThread, hupd]
    exact ⟨_, rfl⟩
  | some w =>
    by_cases hu : u = w
    · subst hu
      rw [wakeThread, Function.update_self, hupd]
      exact ⟨_, rfl⟩
    · rw [wakeThread, Function.update_of_ne hu, hupd]
      exact ⟨_, rfl⟩

theorem put_self : ∃ b, (s.put t a).thread t = { a.th with blocked := b } := by
  obtain ⟨b, h⟩ := put_thread (s := s) (t := t) (u := t) (a := a)
  exact ⟨b, by rw [h, if_pos rfl]⟩

theorem put_other (hu : u ≠ t) : ∃ b, (s.put t a).thread u = { s.thread u with blocked := b } := by
  obtain ⟨b, h⟩ := put_thread (s := s) (t := t) (u := u) (a := a)
  exact ⟨b, by rw [h, if_neg hu]⟩

theorem put_pstage_self {r : RecId} : ((s.put t a).thread t).pstage r = a.th.pstage r := by
  obtain ⟨b, h⟩ := put_self (s := s) (t := t) (a := a)
  rw [h]
  rfl

theorem put_pstage_other {r : RecId} (hu : u ≠ t) :
    ((s.put t a).thread u).pstage r = (s.thread u).pstage r := by
  obtain ⟨b, h⟩ := put_other (s := s) (a := a) hu
  rw [h]
  rfl

theorem put_cview_self : ((s.put t a).thread t).cview = a.th.cview := by
  obtain ⟨b, h⟩ := put_self (s := s) (t := t) (a := a)
  rw [h]
  rfl

theorem put_cview_other (hu : u ≠ t) : ((s.put t a).thread u).cview = (s.thread u).cview := by
  obtain ⟨b, h⟩ := put_other (s := s) (a := a) hu
  rw [h]
  rfl

end

/-! ## Well-formedness is kept -/

section

variable {s : State} {t u : Tid} {a : Act} {ch : Choice} {touched : List RecId}

/-- No statement changes whose a record is. -/
theorem MoveSpec.history {th : Thread} {recs : RecId → Rec} (h : MoveSpec th recs ch touched a)
    (r : RecId) : (a.recOf recs r).owner = (recs r).owner ∧
      (a.recOf recs r).child = (recs r).child := by
  have key : ∀ c, Writes recs a c → (a.recOf recs r).owner = (recs r).owner ∧
      (a.recOf recs r).child = (recs r).child := by
    intro c hw
    unfold Act.recOf
    cases h : a.write with
    | none => exact ⟨rfl, rfl⟩
    | some w =>
      obtain ⟨rfl, ho, hc⟩ := hw _ _ h
      dsimp only
      split
      · next hr => subst hr; exact ⟨ho, hc⟩
      · exact ⟨rfl, rfl⟩
  cases h with
  | parent c h => exact key c h.writes
  | child c h => exact key c h.writes
  | quiet h => simp [Act.recOf, h.write]

theorem childTid_of_child {r r' : Rec} (h : r.child = r'.child) : r.childTid = r'.childTid := by
  unfold Rec.childTid
  rw [h]

theorem wf_put (hwf : WF s) (hlive : (s.thread t).pc ≠ .absent) (hc : Common (s.thread t) a)
    (hm : MoveSpec (s.thread t) s.recs ch touched a) : WF (s.put t a) := by
  have hown : ∀ r, ((s.put t a).recs r).owner = (s.recs r).owner := fun r => (hm.history r).1
  have hchild : ∀ r, ((s.put t a).recs r).child = (s.recs r).child := fun r => (hm.history r).2
  have hpar : ∀ u, ((s.put t a).thread u).csParent = (s.thread u).csParent := by
    intro u
    obtain ⟨b, h⟩ := put_thread (s := s) (t := t) (u := u) (a := a)
    rw [h]
    split
    · next hu => subst hu; exact hc.csParent
    · rfl
  refine ⟨fun u => ?_, fun u r h => ?_, fun u r h => ?_, fun r u hr h => ?_, fun r hr => ?_,
    fun u hu => ?_, fun u i c tid h => ?_⟩
  · by_cases hu : u = t
    · subst hu
      obtain ⟨b, h⟩ := put_self (s := s) (t := u) (a := a)
      rw [h]
      exact ⟨hc.ok.nodup, hc.ok.pc, hc.ok.fate, hc.ok.loaded⟩
    · obtain ⟨b, h⟩ := put_other (s := s) (a := a) hu
      rw [h]
      exact ⟨(hwf.ok u).nodup, (hwf.ok u).pc, (hwf.ok u).fate, (hwf.ok u).loaded⟩
  · rw [hown]
    apply hwf.holds u r
    by_cases hu : u = t
    · subst hu
      obtain ⟨b, he⟩ := put_self (s := s) (t := u) (a := a)
      rw [he] at h
      exact hc.holds r h
    · obtain ⟨b, he⟩ := put_other (s := s) (a := a) hu
      rw [he] at h
      exact h
  · rw [hpar] at h
    rw [hchild]
    exact hwf.parent u r h
  · rw [hchild] at h
    rw [hpar, hown]
    exact hwf.child r u hr h
  · rw [hown]
    exact hwf.owner r hr
  · have hut : u ≠ t := by
      rintro rfl
      exact hlive (hwf.fresh u hu)
    obtain ⟨b, he⟩ := put_other (s := s) (a := a) hut
    rw [he]
    exact hwf.fresh u hu
  · rw [childTid_of_child (hchild c)]
    by_cases hu : u = t
    · subst hu
      obtain ⟨b, he⟩ := put_self (s := s) (t := u) (a := a)
      rw [he] at h
      obtain ⟨i', h⟩ := hc.init i c tid h
      exact hwf.tid u i' c tid h
    · obtain ⟨b, he⟩ := put_other (s := s) (a := a) hu
      rw [he] at h
      exact hwf.tid u i c tid h

end

theorem wf_fail {s : State} (hwf : WF s) (e : Fault) : WF (s.fail e) :=
  ⟨hwf.ok, hwf.holds, hwf.parent, hwf.child, hwf.owner, hwf.fresh, hwf.tid⟩

/-! ## Every step follows the protocol -/

section

variable {s : State} {t : Tid} {a : Act} {ch : Choice} {touched : List RecId}

theorem WF.child_ne_owner (hwf : WF s) {r : RecId} (hr : r < s.nextRec)
    (h : (s.recs r).child = some t) : (s.recs r).owner ≠ t :=
  Nat.ne_of_lt (hwf.child r t hr h).2.1

/-- A record the statement does not write. -/
theorem recOf_ne {recs : RecId → Rec} {c r : RecId} (hw : Writes recs a c) (hr : r ≠ c) :
    a.recOf recs r = recs r := by
  unfold Act.recOf
  cases h : a.write with
  | none => rfl
  | some w =>
    obtain ⟨rfl, -⟩ := hw _ _ h
    exact if_neg (Ne.symm hr)

/-- The child's side of a view when the running thread is not the child. -/
theorem put_cview {r : RecId} (hch : ((s.put t a).recs r).child = (s.recs r).child)
    (h : (s.recs r).child = some t → a.th.cview = (s.thread t).cview) :
    (s.put t a).cview r = s.cview r := by
  unfold State.cview
  rw [hch]
  cases hc : (s.recs r).child with
  | none => rfl
  | some u =>
    dsimp only
    by_cases hu : u = t
    · subst hu
      rw [put_cview_self, h hc]
    · rw [put_cview_other hu]

/-- The parent's side of a view. -/
theorem put_pstage {r : RecId} (ho : ((s.put t a).recs r).owner = (s.recs r).owner)
    (h : (s.recs r).owner = t → a.th.pstage r = (s.thread t).pstage r) :
    ((s.put t a).thread ((s.put t a).recs r).owner).pstage r =
      (s.thread (s.recs r).owner).pstage r := by
  rw [ho]
  by_cases hu : (s.recs r).owner = t
  · rw [hu, put_pstage_self, h hu]
  · rw [put_pstage_other hu]

theorem view_put {G : Guards} (hwf : WF s) (hm : MoveSpec (s.thread t) s.recs ch touched a)
    (hfree : ∀ c st, (s.thread t).pc.focus = some (c, st) →
      (s.thread t).pc.parentFrees = true → G.calm → (s.cview c).c = .done)
    (hmay : ∀ c, (s.thread t).csParent = some c →
      ChildMay G (s.thread t).pc ch ((s.thread (s.recs c).owner).pstage c) (s.recs c))
    {r : RecId} (hr : r < s.nextRec) : Tau G (s.view r) ((s.put t a).view r) := by
  have ho := (hm.history r).1
  have hch := (hm.history r).2
  cases hm with
  | parent c h =>
    obtain ⟨st, hf⟩ := h.focus
    obtain ⟨hc, hown⟩ := hwf.holds t c (holds_of_focus hf)
    by_cases hrc : r = c
    · subst hrc
      have hne : (s.recs r).child ≠ some t := fun hx => hwf.child_ne_owner hr hx hown
      have hcv : (s.put t a).cview r = s.cview r := put_cview hch fun hx => absurd hx hne
      unfold State.view
      rw [hcv, show ((s.put t a).recs r).owner = t from ho.trans hown, put_pstage_self, hown]
      exact h.proto G (s.cview r) (hfree r st hf)
    · left
      unfold State.view
      rw [put_cview hch fun _ => h.cview, put_pstage ho fun _ => h.others r hrc]
      exact congrArg (fun x : Rec => x.view _ _) (recOf_ne h.writes hrc)
  | child c h =>
    obtain ⟨hc, hcc⟩ := hwf.parent t c h.csParent
    by_cases hrc : r = c
    · subst hrc
      have hne := hwf.child_ne_owner hr hcc
      have hcv : (s.put t a).cview r = a.th.cview := by
        unfold State.cview
        rw [show ((s.put t a).recs r).child = some t from hch.trans hcc]
        exact put_cview_self
      have hcv' : s.cview r = (s.thread t).cview := by
        unfold State.cview
        rw [hcc]
      unfold State.view
      rw [hcv, hcv', put_pstage ho fun hx => absurd hx hne]
      exact h.proto G _ (hmay r h.csParent)
    · left
      have hne : (s.recs r).child ≠ some t := fun hx =>
        hrc (Option.some.inj ((hwf.child r t hr hx).1.symm.trans h.csParent))
      unfold State.view
      rw [put_cview hch fun hx => absurd hx hne, put_pstage ho fun _ => h.stages r]
      exact congrArg (fun x : Rec => x.view _ _) (recOf_ne h.writes hrc)
  | quiet h =>
    have hcv : (s.put t a).cview r = s.cview r := by
      refine put_cview hch fun hx => ?_
      rcases h.cview with hcv | hcv
      · exact hcv
      · rw [(hwf.child r t hr hx).1] at hcv
        cases hcv
    have hrec : (s.put t a).recs r = s.recs r := by
      show a.recOf s.recs r = s.recs r
      unfold Act.recOf
      rw [h.write]
    unfold State.view
    rw [hcv, hrec]
    by_cases hu : (s.recs r).owner = t
    · rw [hu, put_pstage_self]
      rcases h.stages r with hst | ⟨hst, hst'⟩
      · exact .inl (by rw [hst])
      · rw [hst, hst']
        exact .inr (.leave rfl)
    · rw [put_pstage_other hu]
      exact .inl rfl

end

/-! ## The conditions, as the protocol needs them -/

/-- A record that is not initialised is one its parent is initialising. -/
theorem focus_unset {pc : Pc} {c : RecId} {st : PStage} (h : pc.focus = some (c, st))
    (hst : st = .made ∨ st = .init) :
    ∃ i tid, pc = .init i c tid ∧ (st = .made → i = .semaValue) := by
  cases pc with
  | init i d tid =>
    cases i <;> (cases h; first | exact ⟨_, _, rfl, fun _ => rfl⟩ | exact ⟨_, _, rfl, nofun⟩)
  | execReturn o v =>
    cases o with
    | none => cases h
    | some d =>
      simp only [Pc.focus, Option.some.injEq, Prod.mk.injEq] at h
      obtain ⟨-, rfl⟩ := h
      split at hst <;> rcases hst with hst | hst <;> cases hst
  | waitReturn x o v => cases o <;> cases h <;> rcases hst with hst | hst <;> cases hst
  | acquire k d | hold k d | dec k d | test k d =>
    cases k <;> cases h <;> rcases hst with hst | hst <;> cases hst
  | release k d b | releaseUp k d b =>
    cases k with
    | wait x found => cases b <;> cases h <;> rcases hst with hst | hst <;> cases hst
    | child => cases h
    | loop rest del =>
      simp only [Pc.focus, Site.focus, Option.some.injEq, Prod.mk.injEq] at h
      obtain ⟨-, rfl⟩ := h
      split at hst <;> rcases hst with hst | hst <;> cases hst
  | loopNext d rest del =>
    simp only [Pc.focus, Option.some.injEq, Prod.mk.injEq] at h
    obtain ⟨-, rfl⟩ := h
    split at hst <;> rcases hst with hst | hst <;> cases hst
  | _ => cases h <;> rcases hst with hst | hst <;> cases hst

theorem pstage_unset {th : Thread} {c : RecId} (h : th.pstage c = .made ∨ th.pstage c = .init) :
    ∃ i tid, th.pc = .init i c tid ∧ (th.pstage c = .made → i = .semaValue) := by
  by_cases hf : ∃ st, th.pc.focus = some (c, st)
  · obtain ⟨st, hf⟩ := hf
    rw [pstage_focus hf] at h ⊢
    exact focus_unset hf h
  · rw [pstage_rest fun st hst => hf ⟨st, hst⟩] at h
    exfalso
    revert h
    unfold Pc.base
    split
    · split
      · simp
      · simp
      · split
        · simp
        · split <;> simp
    · simp

theorem pstage_dead {th : Thread} (h : th.pc = .dead) (r : RecId) :
    th.pstage r = .left ∨ th.pstage r = .gone := by
  unfold Thread.pstage
  rw [h]
  dsimp only [Pc.focus]
  split
  · exact .inl rfl
  · exact .inr rfl

theorem calm_frees {s : State} {a : Label} {c : RecId} {st : PStage}
    (hf : (s.thread a.t).pc.focus = some (c, st)) (hp : (s.thread a.t).pc.parentFrees = true)
    (h : Quiet s a) : (s.cview c).c = .done := by
  unfold Quiet at h
  generalize (s.thread a.t).pc = pc at *
  cases pc with
  | execFree d | waitFree _ d _ | delFree d _ =>
    cases hf
    exact of_decide_eq_true h
  | _ => cases hp

theorem childMay {s : State} {a : Label} (hwf : WF s) {c : RecId}
    (hpar : (s.thread a.t).csParent = some c) :
    ChildMay (guards s a) (s.thread a.t).pc a.choice
      ((s.thread (s.recs c).owner).pstage c) (s.recs c) := by
  have hok := (hwf.ok a.t).pc
  refine ⟨fun d hpc hG => ?_, fun d hpc hG hm => ?_, fun d hpc hG => ?_, fun hk hG => ?_⟩
  · rw [hpc] at hok
    obtain rfl := Option.some.inj (hpar.symm.trans hok)
    simp only [guards, Quiet, hpc, decide_eq_true_eq] at hG
    exact (pstage_dead hG c).imp id fun h => by rw [h]; rfl
  · rw [hpc] at hok
    obtain rfl := Option.some.inj (hpar.symm.trans hok)
    simp only [guards, Prompt, hpc, decide_eq_true_eq] at hG
    obtain ⟨i, tid, hi, hv⟩ := pstage_unset (.inl hm)
    exact hG (by simp [hi, hv hm, Pc.initOf])
  · rw [hpc] at hok
    obtain rfl := Option.some.inj (hpar.symm.trans hok)
    simp only [guards, Prompt, hpc, decide_eq_true_eq] at hG
    have key : ¬ ((s.thread (s.recs c).owner).pstage c = .made ∨
        (s.thread (s.recs c).owner).pstage c = .init) := by
      intro hm
      obtain ⟨i, tid, hi, -⟩ := pstage_unset hm
      simp [hi, Pc.initOf] at hG
    exact not_or.mp key
  · simp only [guards, StatusSet, hk, hpar, decide_eq_true_eq] at hG
    exact hG

/-! ## `process_execute` -/

section

variable {s : State} {t : Tid} {m : ExecEnv}

/-- The state after `thread_create`: a new record, and a new thread unless it failed. -/
def State.spawn (s : State) (t : Tid) (g : Garbage) (child : Option Tid) : State :=
  let th : Thread := { s.thread t with
    pc := .init .semaValue s.nextRec (g.toRec t child).childTid }
  { s with
    thread := Function.update
      (match child with
        | none => s.thread
        | some u =>
          Function.update s.thread u ⟨.load s.nextRec, false, [], some s.nextRec, none, none⟩) t th
    recs := Function.update s.recs s.nextRec (g.toRec t child)
    nextTid := s.nextTid + child.toList.length
    nextRec := s.nextRec + 1 }

theorem processExecute_cases (s : State) (t : Tid) (m : ExecEnv) :
    processExecute s t m = s.put t ⟨{ s.thread t with pc := .execReturn none tidError }, none, none⟩ ∨
    processExecute s t m = s.fail .panic ∨
    ∃ g, m.thread = false ∧ processExecute s t m = s.spawn t g none ∨
      m.thread = true ∧ processExecute s t m = s.spawn t g (some s.nextTid) := by
  unfold processExecute
  dsimp only
  split
  · exact .inl rfl
  · split
    · exact .inr (.inl rfl)
    · split
      · exact .inr (.inl rfl)
      · next g _ =>
        split
        · next hth => exact .inr (.inr ⟨g, .inl ⟨by simpa using hth, rfl⟩⟩)
        · next hth =>
          split
          · exact .inr (.inl rfl)
          · exact .inr (.inr ⟨g, .inr ⟨by simpa using hth, rfl⟩⟩)

section

variable {g : Garbage} {child : Option Tid} {u : Tid} {r : RecId}

theorem spawn_self : (s.spawn t g child).thread t =
    { s.thread t with pc := .init .semaValue s.nextRec (g.toRec t child).childTid } :=
  Function.update_self ..

theorem spawn_child (h : u ≠ t) : (s.spawn t g (some u)).thread u =
    ⟨.load s.nextRec, false, [], some s.nextRec, none, none⟩ := by
  show Function.update _ t _ u = _
  rw [Function.update_of_ne h]
  exact Function.update_self ..

theorem spawn_other (h : u ≠ t) (hc : child ≠ some u) :
    (s.spawn t g child).thread u = s.thread u := by
  show Function.update _ t _ u = _
  rw [Function.update_of_ne h]
  cases child with
  | none => rfl
  | some v =>
    have : u ≠ v := fun hv => hc (hv ▸ rfl)
    exact Function.update_of_ne this ..

theorem spawn_new : (s.spawn t g child).recs s.nextRec = g.toRec t child :=
  Function.update_self ..

theorem spawn_old (h : r < s.nextRec) : (s.spawn t g child).recs r = s.recs r :=
  Function.update_of_ne (Nat.ne_of_lt h) ..

theorem WF.live (hwf : WF s) (h : (s.thread t).pc ≠ .absent) : t < s.nextTid :=
  Nat.lt_of_not_le fun hle => h (hwf.fresh t hle)

theorem wf_spawn (hwf : WF s) (hpc : (s.thread t).pc = .user)
    (hch : ∀ u, child = some u → u = s.nextTid) : WF (s.spawn t g child) := by
  have ht : t < s.nextTid := hwf.live (by rw [hpc]; nofun)
  have hnew : s.nextRec ∉ (s.thread t).csList := fun h =>
    Nat.lt_irrefl _ (hwf.holds t _ (.inl h)).1
  have hne : ∀ u, child = some u → u ≠ t := fun u hu h =>
    Nat.ne_of_lt ht ((h.symm.trans (hch u hu)))
  have hlen : s.nextTid ≤ (s.spawn t g child).nextTid := Nat.le_add_right ..
  refine ⟨fun u => ?_, fun u r h => ?_, fun u r h => ?_, fun r u hr h => ?_, fun r hr => ?_,
    fun u hu => ?_, fun u i c tid h => ?_⟩
  · by_cases hu : u = t
    · subst hu
      have hok := hwf.ok u
      have hfate := hok.fate
      rw [hpc] at hfate
      rw [spawn_self]
      exact ⟨hok.nodup, hnew, hfate, nofun⟩
    · by_cases hc : child = some u
      · subst hc
        rw [spawn_child hu]
        exact ⟨List.nodup_nil, rfl, ⟨fun h => absurd rfl h, nofun⟩, nofun⟩
      · rw [spawn_other hu hc]
        exact hwf.ok u
  · by_cases hu : u = t
    · subst hu
      rw [spawn_self] at h
      rcases h with h | ⟨st, h⟩
      · obtain ⟨hr, ho⟩ := hwf.holds u r (.inl h)
        exact ⟨Nat.lt_succ_of_lt hr, by rw [spawn_old hr]; exact ho⟩
      · cases h
        exact ⟨Nat.lt_succ_self _, by rw [spawn_new]; rfl⟩
    · by_cases hc : child = some u
      · subst hc
        rw [spawn_child hu] at h
        rcases h with h | ⟨st, h⟩ <;> cases h
      · rw [spawn_other hu hc] at h
        obtain ⟨hr, ho⟩ := hwf.holds u r h
        exact ⟨Nat.lt_succ_of_lt hr, by rw [spawn_old hr]; exact ho⟩
  · have hold : (s.thread u).csParent = some r → r < s.nextRec + 1 ∧
        ((s.spawn t g child).recs r).child = some u := by
      intro h
      obtain ⟨hr, hc⟩ := hwf.parent u r h
      exact ⟨Nat.lt_succ_of_lt hr, by rw [spawn_old hr]; exact hc⟩
    by_cases hu : u = t
    · subst hu
      rw [spawn_self] at h
      exact hold h
    · by_cases hc : child = some u
      · subst hc
        rw [spawn_child hu] at h
        cases h
        exact ⟨Nat.lt_succ_self _, by rw [spawn_new]; rfl⟩
      · rw [spawn_other hu hc] at h
        exact hold h
  · rcases Nat.lt_succ_iff_lt_or_eq.mp hr with hr | rfl
    · rw [spawn_old hr] at h ⊢
      obtain ⟨hp, ho, hlt⟩ := hwf.child r u hr h
      refine ⟨?_, ho, Nat.lt_of_lt_of_le hlt hlen⟩
      by_cases hu : u = t
      · subst hu
        rw [spawn_self]
        exact hp
      · have hc : child ≠ some u := fun hc => Nat.ne_of_lt hlt (hch u hc)
        rw [spawn_other hu hc]
        exact hp
    · rw [spawn_new] at h ⊢
      have hc : child = some u := h
      subst hc
      obtain rfl := hch u rfl
      rw [spawn_child (Nat.ne_of_gt ht)]
      exact ⟨rfl, ht, Nat.lt_succ_self _⟩
  · rcases Nat.lt_succ_iff_lt_or_eq.mp hr with hr | rfl
    · rw [spawn_old hr]
      exact Nat.lt_of_lt_of_le (hwf.owner r hr) hlen
    · rw [spawn_new]
      exact Nat.lt_of_lt_of_le ht hlen
  · have hle : s.nextTid ≤ u := Nat.le_trans hlen hu
    have hut : u ≠ t := fun h => Nat.not_le_of_lt ht (h ▸ hle)
    have hc : child ≠ some u := by
      rintro rfl
      obtain rfl := hch u rfl
      exact Nat.not_succ_le_self _ hu
    rw [spawn_other hut hc]
    exact hwf.fresh u hle
  · by_cases hu : u = t
    · subst hu
      rw [spawn_self] at h
      cases h
      rw [spawn_new]
    · by_cases hc : child = some u
      · subst hc
        rw [spawn_child hu] at h
        cases h
      · rw [spawn_other hu hc] at h
        have hf : ∃ st, (s.thread u).pc.focus = some (c, st) := by
          rw [h]
          cases i <;> exact ⟨_, rfl⟩
        rw [spawn_old (hwf.holds u c (.inr hf)).1]
        exact hwf.tid u i c tid h

/-- `process_execute` does nothing to the other records. -/
theorem view_spawn (hwf : WF s) (hpc : (s.thread t).pc = .user)
    (hch : ∀ u, child = some u → u = s.nextTid) (hr : r < s.nextRec) :
    (s.spawn t g child).view r = s.view r := by
  have ht : t < s.nextTid := hwf.live (by rw [hpc]; nofun)
  have hold : ∀ u, u < s.nextTid → u ≠ t → (s.spawn t g child).thread u = s.thread u :=
    fun u hu hut => spawn_other hut fun hc => Nat.ne_of_lt hu (hch u hc)
  have hcv : (s.spawn t g child).cview r = s.cview r := by
    unfold State.cview
    rw [spawn_old hr]
    cases hc : (s.recs r).child with
    | none => rfl
    | some u =>
      dsimp only
      by_cases hu : u = t
      · subst hu
        rw [spawn_self]
        simp [Thread.cview, hpc, Pc.cstage]
      · rw [hold u (hwf.child r u hr hc).2.2 hu]
  have hps : ((s.spawn t g child).thread (s.recs r).owner).pstage r =
      (s.thread (s.recs r).owner).pstage r := by
    by_cases hu : (s.recs r).owner = t
    · rw [hu, spawn_self]
      simp [Thread.pstage, hpc, Pc.focus, Pc.base, Pc.lists, Nat.ne_of_lt hr]
    · rw [hold _ (hwf.owner r hr) hu]
  unfold State.view
  rw [hcv, spawn_old hr, hps]

theorem fresh_spawn (hwf : WF s) (hpc : (s.thread t).pc = .user)
    (hch : ∀ u, child = some u → u = s.nextTid) :
    Fresh ((s.spawn t g child).view s.nextRec) := by
  have ht : t < s.nextTid := hwf.live (by rw [hpc]; nofun)
  have hp : ((s.spawn t g child).view s.nextRec).p = .made := by
    show ((s.spawn t g child).thread ((s.spawn t g child).recs s.nextRec).owner).pstage _ = _
    rw [spawn_new, show (g.toRec t child).owner = t from rfl, spawn_self]
    exact pstage_focus rfl
  have hrec : (s.spawn t g child).view s.nextRec =
      (g.toRec t child).view ((s.spawn t g child).view s.nextRec).p
        ((s.spawn t g child).cview s.nextRec) := by
    unfold State.view
    rw [spawn_new]
    rfl
  cases child with
  | none =>
    have hcv : (s.spawn t g none).cview s.nextRec = ⟨.nobody, none, none⟩ := by
      unfold State.cview
      rw [spawn_new]
      rfl
    rw [hrec, hcv, hp]
    exact ⟨rfl, rfl, rfl, .inr ⟨rfl, rfl⟩, rfl, rfl⟩
  | some u =>
    obtain rfl := hch u rfl
    have hcv : (s.spawn t g (some s.nextTid)).cview s.nextRec = ⟨.loading, none, none⟩ := by
      unfold State.cview
      rw [spawn_new]
      dsimp only [Garbage.toRec]
      rw [spawn_child (Nat.ne_of_gt ht)]
      rfl
    rw [hrec, hcv, hp]
    refine ⟨rfl, rfl, rfl, .inl ⟨rfl, ?_⟩, rfl, rfl⟩
    show ((s.nextTid : Int)) ≠ -1
    omega

end

end

/-! ## Runs -/

section

variable {s s' : State} {a : Label} {r : RecId}

theorem exec_fails (ch : Choice) {t : Tid} (hwf : WF s) (hpc : (s.thread t).pc = .user) :
    Common (s.thread t) ⟨{ s.thread t with pc := .execReturn none tidError }, none, none⟩ ∧
      MoveSpec (s.thread t) s.recs ch []
        ⟨{ s.thread t with pc := .execReturn none tidError }, none, none⟩ :=
  look_spec (hwf.ok t) hpc rfl nofun nofun (fun _ _ _ => rfl) (.inl rfl) nofun rfl rfl rfl nofun

theorem move_live {t : Tid} {th : Thread} {recs : RecId → Rec} {ch : Choice} {m : Move}
    (h : move t th recs th.pc ch = some m) : th.pc ≠ .absent := by
  intro hpc
  rw [hpc] at h
  cases h

/-- The step `a` from `s` to `s'` follows the protocol. -/
structure Refines (s : State) (a : Label) (s' : State) : Prop where
  wf : WF s'
  /-- A record moves by at most one action. -/
  old : ∀ r < s.nextRec, Tau (guards s a) (s.view r) (s'.view r)
  /-- A new record is fresh. -/
  new : ∀ r, s.nextRec ≤ r → r < s'.nextRec →
    Fresh (s'.view r) ∧ (Prompt s a → (s'.view r).c ≠ .nobody)

theorem refines_fail (hwf : WF s) (e : Fault) : Refines s a (s.fail e) :=
  ⟨wf_fail hwf e, fun _ _ => .inl rfl, fun _ hle hlt => absurd hlt (Nat.not_lt_of_le hle)⟩

theorem refines_put {act : Act} {touched : List RecId} (hwf : WF s)
    (hl : (s.thread a.t).pc ≠ .absent) (hc : Common (s.thread a.t) act)
    (hm : MoveSpec (s.thread a.t) s.recs a.choice touched act) : Refines s a (s.put a.t act) :=
  ⟨wf_put hwf hl hc hm,
    fun _ hr => view_put hwf hm (fun _ _ hf hp hG => calm_frees hf hp hG)
      (fun _ hpar => childMay hwf hpar) hr,
    fun _ hle hlt => absurd hlt (Nat.not_lt_of_le hle)⟩

theorem refines_spawn {g : Garbage} {child : Option Tid} (hwf : WF s)
    (hpc : (s.thread a.t).pc = .user) (hu : ∀ u, child = some u → u = s.nextTid)
    (hp : Prompt s a → child ≠ none) : Refines s a (s.spawn a.t g child) := by
  refine ⟨wf_spawn hwf hpc hu, fun r hr => .inl (view_spawn hwf hpc hu hr), fun r hle hlt => ?_⟩
  obtain rfl : r = s.nextRec := Nat.le_antisymm (Nat.le_of_lt_succ hlt) hle
  have hf : Fresh ((s.spawn a.t g child).view s.nextRec) := fresh_spawn hwf hpc hu
  refine ⟨hf, fun hG hno => ?_⟩
  rcases hf.c with ⟨hc, -⟩ | ⟨-, ht⟩
  · rw [hc] at hno
    cases hno
  · cases child with
    | none => exact hp hG rfl
    | some u =>
      have ht : ((s.spawn a.t g (some u)).recs s.nextRec).childTid = tidError := ht
      rw [spawn_new] at ht
      exact absurd ht (by simp only [Rec.childTid, Garbage.toRec, tidError]; omega)

/-- **One step of the processes follows the protocol.** -/
theorem step_refines (hwf : WF s) (h : procStep s a = some s') : Refines s a s' := by
  obtain ⟨-, -, ⟨m, hch, hpc, rfl⟩ | ⟨m, hm, rfl⟩⟩ := procStep_cases h
  · rcases processExecute_cases s a.t m with he | he | ⟨g, ⟨hth, he⟩ | ⟨hth, he⟩⟩ <;> rw [he]
    · obtain ⟨hc, hm⟩ := exec_fails a.choice hwf hpc
      exact refines_put hwf (by rw [hpc]; nofun) hc hm
    · exact refines_fail hwf _
    · refine refines_spawn hwf hpc nofun fun hG => ?_
      simp only [Prompt, hpc, hch] at hG
      rw [hG] at hth
      cases hth
    · exact refines_spawn hwf hpc (fun u hu => (Option.some.inj hu).symm) fun _ => nofun
  · rcases apply_cases s a.t m with ⟨-, he⟩ | ⟨-, ⟨-, he⟩ | ⟨act, ha, he⟩⟩ <;> rw [he]
    · exact refines_fail hwf _
    · exact refines_fail hwf _
    · obtain ⟨hc, hs⟩ := move_spec (hwf.ok a.t) (hwf.tid a.t) hm ha
      exact refines_put hwf (move_live hm) hc hs

theorem init_thread (t : Tid) : State.init.thread t = Thread.absent ∨
    State.init.thread t = { Thread.absent with pc := .user } ∧ t = 1 := by
  by_cases ht : t = 1
  · subst ht
    exact .inr ⟨rfl, rfl⟩
  · exact .inl (by simp [State.init, ht])

theorem wf_init : WF State.init := by
  refine ⟨fun t => ?_, fun t r h => ?_, fun t r h => ?_, nofun, nofun, fun t ht => ?_,
    fun t i c tid h => ?_⟩ <;> rcases init_thread t with he | ⟨he, rfl⟩
  · rw [he]
    exact ⟨List.nodup_nil, trivial, ⟨fun h => absurd rfl h, nofun⟩, nofun⟩
  · rw [he]
    exact ⟨List.nodup_nil, trivial, ⟨fun h => absurd rfl h, nofun⟩, nofun⟩
  · rw [he] at h
    rcases h with h | ⟨st, h⟩ <;> cases h
  · rw [he] at h
    rcases h with h | ⟨st, h⟩ <;> cases h
  · rw [he] at h
    cases h
  · rw [he] at h
    cases h
  · rw [he]
    rfl
  · exact absurd ht (by decide)
  · rw [he] at h
    cases h
  · rw [he] at h
    cases h

/-- **An invariant of the protocol holds of every record in every run.** -/
theorem view_invariant {ok : State → Label → Prop} {I : View → Prop}
    (hfresh : ∀ s a v, ok s a → Fresh v → (Prompt s a → v.c ≠ .nobody) → I v)
    (hstep : ∀ s a v v', ok s a → Gates v → I v → Proto (guards s a) v v' → I v')
    (h : Reach procStep ok State.init s) :
    WF s ∧ ∀ r < s.nextRec, Gates (s.view r) ∧ I (s.view r) := by
  refine h.invariant (I := fun s => WF s ∧ ∀ r < s.nextRec, Gates (s.view r) ∧ I (s.view r))
    ⟨wf_init, nofun⟩ ?_
  rintro s a s' ⟨hwf, hI⟩ hok hs
  obtain ⟨hwf', hold, hnew⟩ := step_refines hwf hs
  refine ⟨hwf', fun r hr => ?_⟩
  by_cases hlt : r < s.nextRec
  · obtain ⟨hg, hi⟩ := hI r hlt
    rcases hold r hlt with he | hp
    · rw [he]
      exact ⟨hg, hi⟩
    · exact ⟨hp.gates hg, hstep s a _ _ hok hg hi hp⟩
  · obtain ⟨hf, hno⟩ := hnew r (Nat.le_of_not_lt hlt) hr
    exact ⟨hf.gates, hfresh s a _ hok hf hno⟩

end

end Pintos.Userprog
