import Mathlib.Logic.Relation
import Pintos.Userprog.ProcessView

/-!
# `process_wait` for any list of children

One call as its process sees it, for a list and records of any contents. Between two
of its statements the other threads may do to the records what they like, but for
their pids. Found or not, the call goes on with the variables the loop has left:
after a miss in a list that is not empty these are its last record and its end.
-/

namespace Pintos.Userprog

open Pintos.Base Pintos.Threads

structure WaitView where
  th : Thread
  recs : RecId → Rec

/-- The next statement of the call. -/
def WaitView.next (t : Tid) (v : WaitView) : Option Move :=
  match v.th.pc with
  | .waitReturn .. => none
  | pc => move t v.th v.recs pc .go

def WaitView.put (v : WaitView) (a : Act) : WaitView where
  th := a.th
  recs := match a.write with
    | none => v.recs
    | some (c, r) => Function.update v.recs c r

/-- A statement of the call, or what the other threads do, which may wake the caller. -/
inductive WaitStep (t : Tid) (v : WaitView) : WaitView → Prop where
  | stmt {m : Move} {a : Act} : v.th.blocked = false → v.next t = some m → m.act = some a →
      WaitStep t v (v.put a)
  | others {recs : RecId → Rec} {b : Bool} : (∀ c, (recs c).pid = (v.recs c).pid) →
      (b = true → v.th.blocked = true) → WaitStep t v ⟨{ v.th with blocked := b }, recs⟩

abbrev WaitRun (t : Tid) : WaitView → WaitView → Prop := Relation.ReflTransGen (WaitStep t)

/-- `process_wait (x)` called by the running thread. -/
def waitCall (th : Thread) (recs : RecId → Rec) (x : Int) : WaitView :=
  ⟨{ th with pc := .scan x none th.csList, blocked := false }, recs⟩

/-- `x` is the pid of no entry. -/
def Missed (th : Thread) (recs : RecId → Rec) (x : Int) : Prop := ∀ c ∈ th.csList, (recs c).pid ≠ x

/-- The call returns -1 at once: it does not block or fail an ASSERT, and neither the list
nor a record changes. -/
structure Refused (t : Tid) (v₀ : WaitView) : Prop where
  list : ∀ v, WaitRun t v₀ v → v.th.blocked = false ∧ v.th.csList = v₀.th.csList
  quiet : ∀ v m, WaitRun t v₀ v → v.next t = some m → ∃ a, m.act = some a ∧ a.write = none
  value : ∀ v y c w, WaitRun t v₀ v → v.th.pc = .waitReturn y c w → w = -1
  returns : ∀ v, WaitRun t v₀ v → ∃ v', WaitRun t v v' ∧ ∃ y c w, v'.th.pc = .waitReturn y c w

/-- When the call returns, the entry for `x` has left the list, and no other. -/
def Reaped (t : Tid) (v₀ : WaitView) (x : Int) : Prop :=
  ∀ v y c w, WaitRun t v₀ v → v.th.pc = .waitReturn y c w → ∃ pre r post,
    v₀.th.csList = pre ++ r :: post ∧ (v₀.recs r).pid = x ∧ (∀ d ∈ pre, (v₀.recs d).pid ≠ x) ∧
      v.th.csList = pre ++ post

/-- What `process_wait` is to do with a child that is not in the list, and with one that is. -/
def WaitAnswers (t : Tid) (th : Thread) (recs : RecId → Rec) (x : Int) : Prop :=
  (Missed th recs x → Refused t (waitCall th recs x)) ∧
    (¬ Missed th recs x → Reaped t (waitCall th recs x) x)

section

variable {t : Tid} {v v' : WaitView} {x : Int} {th : Thread} {recs : RecId → Rec}

/-! ## An empty list -/

/-- The call on an empty list: before its test, and after. -/
def Alone (v : WaitView) : Prop := v.th.blocked = false ∧ v.th.csList = [] ∧
  ((∃ x, v.th.pc = .scan x none []) ∨ ∃ x, v.th.pc = .waitReturn x none (-1))

theorem Alone.next {m : Move} (h : Alone v) (hm : v.next t = some m) :
    ∃ x, v.th.pc = .scan x none [] ∧ m = goto v.th [] (.waitReturn x none (-1)) := by
  obtain ⟨-, -, ⟨x, hpc⟩ | ⟨x, hpc⟩⟩ := h
  · unfold WaitView.next at hm
    rw [hpc] at hm
    exact ⟨x, hpc, (Option.some.inj hm).symm⟩
  · unfold WaitView.next at hm
    rw [hpc] at hm
    cases hm

theorem Alone.step (h : Alone v) (hs : WaitStep t v v') : Alone v' := by
  cases hs with
  | stmt hb hm ha =>
    obtain ⟨x, -, rfl⟩ := h.next hm
    obtain rfl := Option.some.inj ha
    exact ⟨h.1, h.2.1, .inr ⟨x, rfl⟩⟩
  | @others recs b hpid hb =>
    cases b
    · exact ⟨rfl, h.2⟩
    · exact absurd (hb rfl) (by simp [h.1])

theorem Alone.run (h : Alone v) (hr : WaitRun t v v') : Alone v' := by
  induction hr with
  | refl => exact h
  | tail _ hs ih => exact ih.step hs

theorem refused_of_nil (h : th.csList = []) : Refused t (waitCall th recs x) := by
  have h0 : Alone (waitCall th recs x) := ⟨rfl, h, .inl ⟨x, by rw [waitCall, h]⟩⟩
  refine ⟨fun v hr => ?_, fun v m hr hm => ?_, fun v y c w hr hpc => ?_, fun v hr => ?_⟩
  · exact ⟨(h0.run hr).1, (h0.run hr).2.1.trans h.symm⟩
  · obtain ⟨x, -, rfl⟩ := (h0.run hr).next hm
    exact ⟨_, rfl, rfl⟩
  · obtain ⟨-, -, ⟨x, he⟩ | ⟨x, he⟩⟩ := h0.run hr
    · rw [he] at hpc
      cases hpc
    · rw [he] at hpc
      cases hpc
      rfl
  · obtain ⟨hb, -, ⟨x, he⟩ | ⟨x, he⟩⟩ := h0.run hr
    · refine ⟨_, .single (.stmt hb (m := goto v.th [] (.waitReturn x none (-1))) ?_ rfl), x, none, -1, rfl⟩
      unfold WaitView.next
      rw [he]
      rfl
    · exact ⟨v, .refl, x, none, -1, he⟩

/-! ## A miss in a list that is not empty -/

theorem goto_step {cs : List RecId} {pc : Pc} (hb : v.th.blocked = false)
    (hm : v.next t = some (goto v.th cs pc)) : WaitStep t v ⟨{ v.th with pc }, v.recs⟩ :=
  .stmt hb hm rfl

/-- The loop runs to the end of the list and leaves the last record in `cs`. -/
theorem scan_miss {rest : List RecId} :
    ∀ cs : Option RecId, (∀ c ∈ rest, (recs c).pid ≠ x) → (cs = none → rest ≠ []) →
      ∃ c, WaitRun t ⟨{ th with pc := .scan x cs rest, blocked := false }, recs⟩
        ⟨{ th with pc := .acquire (.wait x false) c, blocked := false }, recs⟩ := by
  induction rest with
  | nil =>
    intro cs _ hne
    cases cs with
    | none => exact absurd rfl (hne rfl)
    | some c => exact ⟨c, .single (goto_step rfl rfl)⟩
  | cons c rest ih =>
    intro cs hmiss _
    obtain ⟨d, hd⟩ := ih (some c) (fun e he => hmiss e (List.mem_cons_of_mem _ he)) fun h => by cases h
    have hnext : WaitView.next t ⟨{ th with pc := .scan x cs (c :: rest), blocked := false }, recs⟩ =
        some (goto { th with pc := .scan x cs (c :: rest), blocked := false } [c] (.scanNext x c rest)) := by
      have hpid := hmiss c List.mem_cons_self
      cases cs <;>
      · show some (goto _ [c] (if (recs c).pid = x then _ else _)) = _
        rw [if_neg hpid]
    have h1 := goto_step (t := t) rfl hnext
    have h2 : WaitStep t ⟨{ th with pc := .scanNext x c rest, blocked := false }, recs⟩
        ⟨{ th with pc := .scan x (some c) rest, blocked := false }, recs⟩ := goto_step rfl rfl
    exact ⟨d, .head h1 (.head h2 hd)⟩

theorem not_refused (hmiss : Missed th recs x) (hne : th.csList ≠ []) :
    ¬ Refused t (waitCall th recs x) := by
  intro h
  obtain ⟨c, hr⟩ := scan_miss (t := t) none hmiss fun _ => hne
  -- `lock_acquire` on the lock of a child that nobody waits for.
  have hstmt : ∀ m, WaitView.next t ⟨{ th with pc := .acquire (.wait x false) c, blocked := false }, recs⟩ =
      some m → ∀ a, m.act = some a → a.write ≠ none := by
    intro m hm a ha
    unfold WaitView.next at hm
    simp only [move] at hm
    split at hm
    · obtain rfl := Option.some.inj hm
      cases ha
    · obtain rfl := Option.some.inj hm
      obtain ⟨-, rfl⟩ | ⟨-, ws, -, rfl⟩ := down_act ha
      · exact Option.some_ne_none _
      · exact Option.some_ne_none _
  obtain ⟨m, hm⟩ : ∃ m, WaitView.next t
      ⟨{ th with pc := .acquire (.wait x false) c, blocked := false }, recs⟩ = some m := by
    unfold WaitView.next
    simp only [move]
    split <;> exact ⟨_, rfl⟩
  obtain ⟨a, ha, hw⟩ := h.quiet _ m hr hm
  exact hstmt m hm a ha hw

/-! ## A hit -/

/-- The call has found `r` and has not yet removed it. -/
inductive Serving (r : RecId) : Pc → Prop where
  | acquire (x : Int) : Serving r (.acquire (.wait x true) r)
  | hold (x : Int) : Serving r (.hold (.wait x true) r)
  | test (x : Int) : Serving r (.test (.wait x true) r)
  | release (x : Int) (b : Bool) : Serving r (.release (.wait x true) r b)
  | releaseUp (x : Int) (b : Bool) : Serving r (.releaseUp (.wait x true) r b)
  | waitDown (x : Int) : Serving r (.waitDown x true r)
  | waitRead (x : Int) : Serving r (.waitRead x true r)
  | waitRemove (x v : Int) : Serving r (.waitRemove x true r v)

/-- A statement that writes nothing but its record, and no pid. -/
def KeepsPid (v : WaitView) (a : Act) : Prop := ∀ c q, a.write = some (c, q) → q.pid = (v.recs c).pid

theorem KeepsPid.put {a : Act} (h : KeepsPid v a) (c : RecId) : ((v.put a).recs c).pid = (v.recs c).pid := by
  unfold WaitView.put
  cases hw : a.write with
  | none => rfl
  | some r =>
    by_cases hc : c = r.1
    · subst hc
      simpa using h r.1 r.2 hw
    · simp [hc]

theorem Serving.step {r : RecId} {m : Move} {a : Act} (h : Serving r v.th.pc)
    (hm : v.next t = some m) (ha : m.act = some a) : KeepsPid v a ∧
      (a.th.csList = v.th.csList ∧ Serving r a.th.pc ∨
        a.th.csList = v.th.csList.erase r ∧ ∃ x w, a.th.pc = .waitFree x r w) := by
  unfold WaitView.next at hm
  generalize hpc : v.th.pc = pc at h hm
  cases h with
  | acquire x =>
    simp only [move] at hm
    split at hm
    · obtain rfl := Option.some.inj hm
      cases ha
    · obtain rfl := Option.some.inj hm
      obtain ⟨-, rfl⟩ | ⟨-, ws, -, rfl⟩ := down_act ha
      · exact ⟨fun c q hw => by cases hw; rfl, .inl ⟨rfl, .hold x⟩⟩
      · refine ⟨fun c q hw => by cases hw; rfl, .inl ⟨rfl, ?_⟩⟩
        show Serving r v.th.pc
        rw [hpc]
        exact .acquire x
  | hold x =>
    obtain rfl := Option.some.inj hm
    obtain rfl := Option.some.inj ha
    exact ⟨fun c q hw => by cases hw; rfl, .inl ⟨rfl, .test x⟩⟩
  | test x =>
    obtain rfl := Option.some.inj hm
    obtain rfl := Option.some.inj ha
    exact ⟨fun c q hw => (by cases hw), .inl ⟨rfl, .release x _⟩⟩
  | release x b =>
    simp only [move] at hm
    split at hm
    · obtain rfl := Option.some.inj hm
      obtain rfl := Option.some.inj ha
      exact ⟨fun c q hw => by cases hw; rfl, .inl ⟨rfl, .releaseUp x b⟩⟩
    · obtain rfl := Option.some.inj hm
      cases ha
  | releaseUp x b =>
    obtain rfl := Option.some.inj hm
    obtain ⟨ws, -, rfl⟩ := up_act ha
    refine ⟨fun c q hw => by cases hw; rfl, .inl ⟨rfl, ?_⟩⟩
    cases b
    · exact .waitRead x
    · exact .waitDown x
  | waitDown x =>
    obtain rfl := Option.some.inj hm
    obtain ⟨-, rfl⟩ | ⟨-, ws, -, rfl⟩ := down_act ha
    · exact ⟨fun c q hw => by cases hw; rfl, .inl ⟨rfl, .waitRead x⟩⟩
    · refine ⟨fun c q hw => by cases hw; rfl, .inl ⟨rfl, ?_⟩⟩
      show Serving r v.th.pc
      rw [hpc]
      exact .waitDown x
  | waitRead x =>
    obtain rfl := Option.some.inj hm
    obtain rfl := Option.some.inj ha
    exact ⟨fun c q hw => (by cases hw), .inl ⟨rfl, .waitRemove x _⟩⟩
  | waitRemove x w =>
    obtain rfl := Option.some.inj hm
    obtain rfl := Option.some.inj ha
    exact ⟨fun c q hw => (by cases hw), .inr ⟨rfl, x, w, rfl⟩⟩

/-- Where a call for an entry of `list` is, and what is left of the list. -/
inductive Hit (list : List RecId) (pid : RecId → Int) (x : Int) : Pc → List RecId → Prop where
  | scan (pre : List RecId) (cs : Option RecId) (rest : List RecId) : list = pre ++ rest →
      (∀ d ∈ pre, pid d ≠ x) → Hit list pid x (.scan x cs rest) list
  | scanNext (pre : List RecId) (c : RecId) (rest : List RecId) : list = pre ++ rest →
      (∀ d ∈ pre, pid d ≠ x) → Hit list pid x (.scanNext x c rest) list
  | serving (pre : List RecId) (r : RecId) (post : List RecId) (pc : Pc) : list = pre ++ r :: post →
      pid r = x → (∀ d ∈ pre, pid d ≠ x) → Serving r pc → Hit list pid x pc list
  | removed (pre : List RecId) (r : RecId) (post : List RecId) (y w : Int) : list = pre ++ r :: post →
      pid r = x → (∀ d ∈ pre, pid d ≠ x) → Hit list pid x (.waitFree y r w) (pre ++ post)
  | returned (pre : List RecId) (r : RecId) (post : List RecId) (y w : Int) : list = pre ++ r :: post →
      pid r = x → (∀ d ∈ pre, pid d ≠ x) → Hit list pid x (.waitReturn y (some r) w) (pre ++ post)

theorem erase_first {pre post : List RecId} {r : RecId} {pid : RecId → Int}
    (h : ∀ d ∈ pre, pid d ≠ pid r) : (pre ++ r :: post).erase r = pre ++ post := by
  rw [List.erase_append_right _ fun hr => h r hr rfl, List.erase_cons_head]

theorem Hit.step {list : List RecId} {pid : RecId → Int} (hhit : ∃ c ∈ list, pid c = x)
    (hpid : ∀ c, (v.recs c).pid = pid c) (h : Hit list pid x v.th.pc v.th.csList) {m : Move} {a : Act}
    (hm : v.next t = some m) (ha : m.act = some a) :
    KeepsPid v a ∧ Hit list pid x a.th.pc a.th.csList := by
  generalize hpc : v.th.pc = pc at h
  generalize hl : v.th.csList = l at h
  have hstart := hm
  unfold WaitView.next at hm
  rw [hpc] at hm
  cases h with
  | scan pre cs rest heq hpre =>
    cases rest with
    | nil =>
      obtain ⟨c, hc, hx⟩ := hhit
      rw [heq, List.append_nil] at hc
      exact absurd hx (hpre c hc)
    | cons c rest =>
      have hgoto : m = goto v.th [c] (if (v.recs c).pid = x then .acquire (.wait x true) c
          else .scanNext x c rest) := by
        cases cs <;> exact (Option.some.inj hm).symm
      rw [hgoto] at ha
      obtain rfl := Option.some.inj ha
      refine ⟨fun d q hw => (by cases hw), ?_⟩
      dsimp only
      rw [hl, hpid]
      split
      · next hx => exact .serving pre c rest _ heq hx hpre (.acquire x)
      · next hx =>
        refine .scanNext (pre ++ [c]) c rest ?_ fun d hd => ?_
        · rw [heq, List.append_assoc, List.singleton_append]
        · rcases List.mem_append.mp hd with hd | hd
          · exact hpre d hd
          · rw [List.mem_singleton.mp hd]
            exact hx
  | scanNext pre c rest heq hpre =>
    obtain rfl := Option.some.inj hm
    obtain rfl := Option.some.inj ha
    refine ⟨fun d q hw => (by cases hw), ?_⟩
    dsimp only
    rw [hl]
    exact .scan pre (some c) rest heq hpre
  | serving pre r post pc heq hx hpre hs =>
    obtain ⟨hkeep, ⟨hcs, hs'⟩ | ⟨hcs, y, w, hs'⟩⟩ := Serving.step (hpc ▸ hs) hstart ha
    · rw [hcs, hl]
      exact ⟨hkeep, .serving pre r post _ heq hx hpre hs'⟩
    · rw [hcs, hs', hl, heq, erase_first fun d hd => hx.symm ▸ hpre d hd]
      exact ⟨hkeep, .removed pre r post y w rfl hx hpre⟩
  | removed pre r post y w heq hx hpre =>
    obtain rfl := Option.some.inj hm
    obtain rfl := Option.some.inj ha
    refine ⟨fun d q hw => by cases hw; rfl, ?_⟩
    dsimp only
    rw [hl]
    exact .returned pre r post y w heq hx hpre
  | returned pre r post y w heq hx hpre => cases hm

theorem Hit.run {list : List RecId} {pid : RecId → Int} (hhit : ∃ c ∈ list, pid c = x)
    (hpid : ∀ c, (v.recs c).pid = pid c) (h : Hit list pid x v.th.pc v.th.csList)
    (hr : WaitRun t v v') :
    (∀ c, (v'.recs c).pid = pid c) ∧ Hit list pid x v'.th.pc v'.th.csList := by
  induction hr with
  | refl => exact ⟨hpid, h⟩
  | tail _ hs ih =>
    cases hs with
    | stmt hb hm ha =>
      obtain ⟨hkeep, hh⟩ := ih.2.step hhit ih.1 hm ha
      exact ⟨fun c => (hkeep.put c).trans (ih.1 c), hh⟩
    | others hsame _ => exact ⟨fun c => (hsame c).trans (ih.1 c), ih.2⟩

theorem reaped_of_hit (hhit : ∃ c ∈ th.csList, (recs c).pid = x) : Reaped t (waitCall th recs x) x := by
  intro v y c w hr hpc
  have h0 : Hit th.csList (fun c => (recs c).pid) x (waitCall th recs x).th.pc
      (waitCall th recs x).th.csList := .scan [] none th.csList rfl fun d hd => by cases hd
  obtain ⟨-, h⟩ := h0.run hhit (fun _ => rfl) hr
  rw [hpc] at h
  generalize v.th.csList = l at h ⊢
  cases h with
  | serving _ _ _ _ _ _ _ hs => cases hs
  | returned pre r post _ _ heq hx hpre => exact ⟨pre, r, post, heq, hx, hpre, rfl⟩

end

/-- **`process_wait` answers for any child** exactly when the list has an entry for it or
is empty. -/
theorem wait_answers_iff (t : Tid) (th : Thread) (recs : RecId → Rec) (x : Int) :
    WaitAnswers t th recs x ↔ th.csList = [] ∨ ∃ c ∈ th.csList, (recs c).pid = x := by
  have hmissed : ¬ Missed th recs x ↔ ∃ c ∈ th.csList, (recs c).pid = x := by
    simp [Missed]
  constructor
  · intro h
    by_cases hm : Missed th recs x
    · by_contra hno
      exact not_refused hm (fun he => hno (.inl he)) (h.1 hm)
    · exact .inr (hmissed.mp hm)
  · intro h
    refine ⟨fun hm => ?_, fun hm => reaped_of_hit (hmissed.mp hm)⟩
    rcases h with h | h
    · exact refused_of_nil h
    · exact absurd hm (hmissed.mpr h)

/-- The only child, with pid 3, has exited. -/
def exitedChild : Rec where
  pid := 3
  exitStatus := 81
  refCnt := 1
  holder := none
  lockSema := ⟨1, some []⟩
  semaExec := ⟨1, some []⟩
  freed := 0
  owner := 1
  child := some 3

def callerOf (l : List RecId) : Thread := { Thread.absent with pc := .user, csList := l }

/-- Waiting for 4 ends at the ASSERT of `list_remove`, applied to the end of the list. -/
theorem wait_bad_pid_panics :
    ¬ WaitAnswers 1 (callerOf [0]) (fun _ => exitedChild) 4 ∧
      ∃ v m, WaitRun 1 (waitCall (callerOf [0]) (fun _ => exitedChild) 4) v ∧ v.next 1 = some m ∧
        m.act = none := by
  have hstep : ∀ {v : WaitView} {m : Move} {a : Act}, v.th.blocked = false → v.next 1 = some m →
      m.act = some a → WaitRun 1 (waitCall (callerOf [0]) (fun _ => exitedChild) 4) v →
        WaitRun 1 (waitCall (callerOf [0]) (fun _ => exitedChild) 4) (v.put a) :=
    fun hb hm ha hr => hr.tail (.stmt hb hm ha)
  constructor
  · have hmiss : Missed (callerOf [0]) (fun _ => exitedChild) 4 := fun _ _ => (by decide : exitedChild.pid ≠ 4)
    exact fun h => not_refused hmiss (List.cons_ne_nil 0 []) (h.1 hmiss)
  · -- The loop, `cs_lock` of the exited child, and its `exit_status`.
    have h1 := hstep rfl rfl rfl .refl
    have h2 := hstep rfl rfl rfl h1
    have h3 := hstep rfl rfl rfl h2
    have h4 := hstep rfl rfl rfl h3
    have h5 := hstep rfl rfl rfl h4
    have h6 := hstep rfl rfl rfl h5
    have h7 := hstep rfl rfl rfl h6
    have h8 := hstep rfl rfl rfl h7
    have h9 := hstep rfl rfl rfl h8
    exact ⟨_, _, h9, rfl, rfl⟩

end Pintos.Userprog
