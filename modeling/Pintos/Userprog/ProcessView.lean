import Pintos.Userprog.ChildProtocol

/-!
# The processes follow the protocol

`State.view s r` is the protocol state of the record `r`: its fields, with the
stages of its parent and of its child read off their program counters. One
statement of one thread is an action of at most one party on each record
(`view_step`), so an invariant of the protocol holds of every record in every run
(`view_invariant`).
-/

namespace Pintos.Userprog

open Pintos.Base Pintos.Threads

/-! ## Stages from program counters -/

/-- The record a critical section is about, once `ref_cnt` has been tested. -/
def Site.focus (c : RecId) (b : Bool) : Site → Option (RecId × PStage)
  | .wait .. => some (c, if b then .listed else .gated)
  | .child => none
  | .loop _ del => some (c, if c ∈ del then .deleting else .dropped)

/-- The record the thread is working on as its parent, with the stage. -/
def Pc.focus : Pc → Option (RecId × PStage)
  | .init .semaValue c _ => some (c, .made)
  | .init _ c _ => some (c, .init)
  | .execDown c => some (c, .stored)
  | .readPid c => some (c, .passed)
  | .execRemove c | .execFree c => some (c, .failed)
  | .execReturn (some c) v => some (c, if v = tidError then .refused else .opened v)
  | .waitDown _ _ c => some (c, .listed)
  | .waitRead _ _ c => some (c, .gated)
  | .waitRemove _ _ c v | .waitFree _ c v => some (c, .collected v)
  | .waitReturn _ (some c) v => some (c, .reaped v)
  | .acquire .child _ | .hold .child _ | .dec .child _ | .test .child _ => none
  | .acquire _ c | .hold _ c | .dec _ c | .test (.wait ..) c => some (c, .listed)
  | .test (.loop ..) c => some (c, .decd)
  | .release k c b | .releaseUp k c b => k.focus c b
  | .enlist c _ _ | .delFree c _ => some (c, .deleting)
  | .loopNext c _ del => some (c, if c ∈ del then .deleting else .dropped)
  | _ => none

/-- The lists of `process_exit`: records to visit, records to delete. -/
def Pc.lists : Pc → Option (List RecId × List RecId)
  | .acquire (.loop rest del) _ | .hold (.loop rest del) _ | .dec (.loop rest del) _
  | .test (.loop rest del) _ | .release (.loop rest del) _ _ | .releaseUp (.loop rest del) _ _
  | .loop rest del | .enlist _ rest del | .loopNext _ rest del => some (rest, del)
  | .delete del | .delFree _ del => some ([], del)
  | _ => none

/-- The stage of a record of `cs_list` the thread is not working on. -/
def Pc.base (pc : Pc) (r : RecId) : PStage :=
  match pc, pc.lists with
  | .dead, _ => .left
  | _, none => .listed
  | _, some (rest, del) => if r ∈ rest then .listed else if r ∈ del then .deleting else .dropped

/-- How far the thread is with the record `r` it allocated. -/
def Thread.pstage (th : Thread) (r : RecId) : PStage :=
  match th.pc.focus with
  | some (c, st) => if r = c then st else if r ∈ th.csList then th.pc.base r else .gone
  | none => if r ∈ th.csList then th.pc.base r else .gone

/-- How far the thread is with the record it was created for. -/
def Pc.cstage : Pc → CStage
  | .absent => .nobody
  | .load _ => .loading
  | .storeErr _ => .erring
  | .ack _ => .acking
  | .test .child _ => .dec
  | .release .child _ b | .releaseUp .child _ b => if b then .freeing else .upping
  | .exitUp _ => .upping
  | .exitFree _ => .freeing
  | .acquire (.loop ..) _ | .hold (.loop ..) _ | .dec (.loop ..) _ | .test (.loop ..) _
  | .release (.loop ..) _ _ | .releaseUp (.loop ..) _ _ | .loop .. | .enlist .. | .loopNext ..
  | .delete _ | .delFree .. | .dead => .done
  | _ => .acked

/-- The child's side of a view. -/
structure CView where
  c : CStage
  ok : Option Bool
  fate : Option Fate

def Thread.cview (th : Thread) : CView := ⟨th.pc.cstage, th.success, th.fate⟩

/-- What `thread_create` returned. -/
def Rec.childTid (r : Rec) : Int :=
  match r.child with
  | none => tidError
  | some t => t

def Rec.view (r : Rec) (p : PStage) (cv : CView) : View :=
  ⟨r.refCnt, r.semaExec.value, r.freed, r.pid, r.exitStatus, p, r.childTid, cv.c, cv.ok, cv.fate⟩

def State.cview (s : State) (r : RecId) : CView :=
  match (s.recs r).child with
  | none => ⟨.nobody, none, none⟩
  | some t => (s.thread t).cview

def State.view (s : State) (r : RecId) : View :=
  (s.recs r).view ((s.thread (s.recs r).owner).pstage r) (s.cview r)

/-! ## Well-formed states -/

/-- The lists of `process_exit` are disjoint parts of `cs_list`. -/
def LoopOk (l rest del : List RecId) : Prop := (rest ++ del).Nodup ∧ rest ++ del ⊆ l

/-- The record of a critical section. -/
def Site.Ok (l : List RecId) (par : Option RecId) (c : RecId) : Site → Prop
  | .wait .. => c ∈ l
  | .child => par = some c
  | .loop rest del => LoopOk l (c :: rest) del

/-- The same once `ref_cnt` has been tested. -/
def Site.OkAfter (l : List RecId) (par : Option RecId) (c : RecId) : Site → Prop
  | .wait .. => c ∈ l
  | .child => par = some c
  | .loop rest del => LoopOk l rest del ∧ c ∈ l ∧ c ∉ rest

def Site.isWait : Site → Bool
  | .wait .. => true
  | _ => false

/-- The records a program counter holds, in terms of `cs_list` and `cs_parent`. -/
def Pc.Ok (l : List RecId) (par : Option RecId) : Pc → Prop
  | .load c | .storeErr c | .ack c | .exitUp c | .exitFree c => par = some c
  | .init i c _ => if i = .storePid then c ∈ l else c ∉ l
  | .execDown c | .readPid c | .execRemove c => c ∈ l
  | .execFree c => c ∉ l
  | .execReturn (some c) v => c ∈ l ↔ v ≠ tidError
  | .execReturn none v => v = tidError
  | .scan _ none rest => rest = l
  | .scan _ (some c) rest | .scanNext _ c rest => c ∈ l ∧ rest ⊆ l
  | .waitDown _ _ c | .waitRead _ _ c | .waitRemove _ _ c _ => c ∈ l
  | .waitFree _ c _ | .waitReturn _ (some c) _ => c ∉ l
  | .waitReturn _ none v => l = [] ∧ v = -1
  | .acquire k c | .hold k c | .test k c => k.Ok l par c
  | .dec k c => k.Ok l par c ∧ k.isWait = false
  | .release k c _ | .releaseUp k c _ => k.OkAfter l par c
  | .loop rest del => LoopOk l rest del
  | .enlist c rest del => LoopOk l (c :: rest) del
  | .loopNext c rest del => LoopOk l rest del ∧ c ∈ l ∧ c ∉ rest
  | .delete del => LoopOk l [] del
  | .delFree c del => LoopOk l [] del ∧ c ∉ l
  | _ => True

/-- The thread is in `process_exit`, or about to be. -/
def Pc.exiting : Pc → Bool
  | .exitBegin | .exitUp _ | .exitFree _ | .loop .. | .enlist .. | .loopNext .. | .delete _
  | .delFree .. | .dead => true
  | .acquire k _ | .hold k _ | .dec k _ | .test k _ | .release k _ _ | .releaseUp k _ _ =>
    !k.isWait
  | _ => false

/-- `load` has returned. -/
def Pc.loaded : Pc → Bool
  | .storeErr _ | .ack _ => true
  | _ => false

structure Thread.Ok (th : Thread) : Prop where
  nodup : th.csList.Nodup
  pc : th.pc.Ok th.csList th.csParent
  fate : th.fate ≠ none ↔ th.pc.exiting = true
  loaded : th.pc.loaded = true → th.success ≠ none

/-- The records a thread holds as their parent. -/
def Thread.Holds (th : Thread) (r : RecId) : Prop :=
  r ∈ th.csList ∨ ∃ st, th.pc.focus = some (r, st)

structure WF (s : State) : Prop where
  ok : ∀ t, (s.thread t).Ok
  holds : ∀ t r, (s.thread t).Holds r → r < s.nextRec ∧ (s.recs r).owner = t
  parent : ∀ t r, (s.thread t).csParent = some r → r < s.nextRec ∧ (s.recs r).child = some t
  child : ∀ r t, r < s.nextRec → (s.recs r).child = some t →
    (s.thread t).csParent = some r ∧ (s.recs r).owner < t ∧ t < s.nextTid
  owner : ∀ r, r < s.nextRec → (s.recs r).owner < s.nextTid
  fresh : ∀ t, s.nextTid ≤ t → (s.thread t).pc = .absent
  tid : ∀ t i c tid, (s.thread t).pc = .init i c tid → tid = (s.recs c).childTid

/-! ## What a statement can do -/

/-- The parent has neither freed nor left the record. -/
def PStage.Live (p : PStage) : Prop := p.hasFreed = false ∧ p ≠ .left

/-- The parent is about to free a record. -/
def Pc.parentFrees : Pc → Bool
  | .execFree _ | .waitFree .. | .delFree .. => true
  | _ => false

/-- The record `c` after a statement. -/
def Act.recOf (a : Act) (recs : RecId → Rec) (c : RecId) : Rec :=
  match a.write with
  | none => recs c
  | some (c', r) => if c' = c then r else recs c

/-- Nothing, or one action. -/
def Tau (G : Guards) (v v' : View) : Prop := v' = v ∨ Proto G v v'

/-- True of every statement. -/
structure Common (th : Thread) (a : Act) : Prop where
  ok : a.th.Ok
  csParent : a.th.csParent = th.csParent
  holds : ∀ r, a.th.Holds r → th.Holds r
  init : ∀ i c tid, a.th.pc = .init i c tid → ∃ i', th.pc = .init i' c tid

/-- A statement that writes at most the record `c`, and not its history. -/
def Writes (recs : RecId → Rec) (a : Act) (c : RecId) : Prop :=
  ∀ c' r, a.write = some (c', r) →
    c' = c ∧ r.owner = (recs c).owner ∧ r.child = (recs c).child

/-- A statement of the parent of `c`. -/
structure ParentMove (th : Thread) (recs : RecId → Rec) (touched : List RecId) (a : Act)
    (c : RecId) : Prop where
  focus : ∃ st, th.pc.focus = some (c, st)
  writes : Writes recs a c
  cview : a.th.cview = th.cview
  others : ∀ r, r ≠ c → a.th.pstage r = th.pstage r
  touched : ∀ r ∈ touched, th.Holds r ∧ (th.pstage r).Live
  proto : ∀ (G : Guards) (cv : CView), (th.pc.parentFrees = true → G.calm → cv.c = .done) →
    Tau G ((recs c).view (th.pstage c) cv) ((a.recOf recs c).view (a.th.pstage c) cv)

/-- When the child may take its action, given the stage `p` of the parent. -/
structure ChildMay (G : Guards) (pc : Pc) (ch : Choice) (p : PStage) (r : Rec) : Prop where
  free : ∀ c, pc = .exitFree c → G.calm → p = .left ∨ p.hasFreed = true
  ack : ∀ c, pc = .ack c → G.prompt → p ≠ .made
  storeErr : ∀ c, pc = .storeErr c → G.prompt → p ≠ .made ∧ p ≠ .init
  kill : ch = .kill → G.settled → r.exitStatus = -1

/-- A statement of the child of `c`. -/
structure ChildMove (th : Thread) (recs : RecId → Rec) (ch : Choice) (touched : List RecId)
    (a : Act) (c : RecId) : Prop where
  csParent : th.csParent = some c
  writes : Writes recs a c
  stages : ∀ r, a.th.pstage r = th.pstage r
  touched : ∀ r ∈ touched, r = c
  busy : th.pc.cstage ≠ .done
  proto : ∀ (G : Guards) (p : PStage), ChildMay G th.pc ch p (recs c) →
    Tau G ((recs c).view p th.cview) ((a.recOf recs c).view p a.th.cview)

/-- A statement that only reads; the last one of `process_exit` leaves the records. -/
structure QuietMove (th : Thread) (touched : List RecId) (a : Act) : Prop where
  write : a.write = none
  cview : a.th.cview = th.cview ∨ th.csParent = none
  stages : ∀ r, a.th.pstage r = th.pstage r ∨ th.pstage r = .dropped ∧ a.th.pstage r = .left
  touched : ∀ r ∈ touched, th.Holds r ∧ (th.pstage r).Live

inductive MoveSpec (th : Thread) (recs : RecId → Rec) (ch : Choice) (touched : List RecId)
    (a : Act) : Prop where
  | parent (c : RecId) : ParentMove th recs touched a c → MoveSpec th recs ch touched a
  | child (c : RecId) : ChildMove th recs ch touched a c → MoveSpec th recs ch touched a
  | quiet : QuietMove th touched a → MoveSpec th recs ch touched a

section

variable {th : Thread} {r c : RecId}

theorem live_of_mem (h : r ∈ th.csList) (hd : th.pc ≠ .dead)
    (hf : ∀ st, th.pc.focus = some (r, st) → st.Live) : (th.pstage r).Live := by
  have hb : (th.pc.base r).Live := by
    unfold Pc.base
    split
    · next _ hpc => exact absurd hpc hd
    · exact ⟨rfl, nofun⟩
    · split
      · exact ⟨rfl, nofun⟩
      · split <;> exact ⟨rfl, nofun⟩
  unfold Thread.pstage
  split
  · next c st hfoc =>
    split
    · next hr => exact hf st (hr ▸ hfoc)
    · exact hb
  · rwa [if_pos h]

theorem live_of_focus {st : PStage} (h : th.pc.focus = some (c, st)) (hst : st.Live) :
    (th.pstage c).Live := by
  unfold Thread.pstage
  rw [h]
  simpa using hst

end

theorem mem_neighbours {c r : RecId} : ∀ {l : List RecId}, r ∈ neighbours c l → r ∈ l
  | [], h | [_], h => by simp [neighbours] at h
  | a :: b :: l, h => by
    unfold neighbours at h
    split at h
    · simp_all
    · split at h
      · rcases List.mem_cons.mp h with rfl | h
        · exact List.mem_cons_self
        · have := List.mem_of_mem_head? (Option.mem_toList.mp h)
          simp [this]
      · exact List.mem_cons_of_mem _ (mem_neighbours h)

/-! ## Statement by statement -/

section

variable {t : Tid} {th : Thread} {recs : RecId → Rec} {c : RecId} {pc pc' : Pc}

theorem holds_of_focus {st : PStage} (h : th.pc.focus = some (c, st)) : th.Holds c := .inr ⟨st, h⟩

theorem pstage_focus {st : PStage} (h : th.pc.focus = some (c, st)) : th.pstage c = st := by
  simp [Thread.pstage, h]

theorem pstage_rest {r : RecId} (h : ∀ st, th.pc.focus ≠ some (r, st)) :
    th.pstage r = if r ∈ th.csList then th.pc.base r else .gone := by
  unfold Thread.pstage
  split
  · next c st hf =>
    have : r ≠ c := by
      rintro rfl
      exact h st hf
    rw [if_neg this]
  · rfl

/-- A thread that goes on to another statement, perhaps with another `cs_list`. -/
theorem Common.next {l : List RecId} {w : Option (RecId × Rec)} {k : Option Tid} (hok : th.Ok)
    (hpc : th.pc = pc) (hl : l.Nodup) (hpc' : pc'.Ok l th.csParent)
    (hex : pc'.exiting = pc.exiting) (hld : pc'.loaded = false)
    (hhold : ∀ r, r ∈ l ∨ (∃ st, pc'.focus = some (r, st)) → th.Holds r)
    (hinit : ∀ i c tid, pc' = .init i c tid → ∃ i', pc = .init i' c tid) :
    Common th ⟨{ th with pc := pc', csList := l }, w, k⟩ where
  ok := ⟨hl, hpc', by rw [hex, ← hpc]; exact hok.fate, by simp [hld]⟩
  csParent := rfl
  holds := hhold
  init := by rw [hpc]; exact hinit

/-- The same while it works on one record. -/
theorem Common.single {w : Option (RecId × Rec)} {k : Option Tid} {st st' : PStage} (hok : th.Ok)
    (hpc : th.pc = pc) (hf : pc.focus = some (c, st)) (hf' : pc'.focus = some (c, st'))
    (hpc' : pc'.Ok th.csList th.csParent) (hex : pc'.exiting = pc.exiting)
    (hld : pc'.loaded = false)
    (hinit : ∀ i c tid, pc' = .init i c tid → ∃ i', pc = .init i' c tid) :
    Common th ⟨{ th with pc := pc' }, w, k⟩ := by
  refine Common.next hok hpc hok.nodup hpc' hex hld (fun r h => ?_) hinit
  rcases h with h | ⟨st, h⟩
  · exact .inl h
  · rw [hf'] at h
    simp only [Option.some.injEq, Prod.mk.injEq] at h
    exact h.1 ▸ holds_of_focus (hpc ▸ hf)

/-- The same when it works on no record of its own afterwards. -/
theorem Common.plain {w : Option (RecId × Rec)} {k : Option Tid} (hok : th.Ok)
    (hpc : th.pc = pc) (hf' : ∀ r st, pc'.focus = some (r, st) → r ∈ th.csList)
    (hpc' : pc'.Ok th.csList th.csParent) (hex : pc'.exiting = pc.exiting)
    (hld : pc'.loaded = false) (hinit : ∀ i c tid, pc' ≠ .init i c tid) :
    Common th ⟨{ th with pc := pc' }, w, k⟩ := by
  refine Common.next hok hpc hok.nodup hpc' hex hld (fun r h => ?_) (fun i c tid h => ?_)
  · rcases h with h | ⟨st, h⟩
    · exact .inl h
    · exact .inl (hf' r st h)
  · exact absurd h (hinit i c tid)

theorem Common.block {w : Option (RecId × Rec)} {k : Option Tid} (hok : th.Ok) :
    Common th ⟨{ th with blocked := true }, w, k⟩ :=
  ⟨⟨hok.nodup, hok.pc, hok.fate, hok.loaded⟩, rfl, fun _ h => h, fun i _ _ h => ⟨i, h⟩⟩

/-- Records the thread is not working on keep their stage. -/
theorem pstage_others {l : List RecId} {r : RecId} (hf : ∀ st, th.pc.focus ≠ some (r, st))
    (hf' : ∀ st, pc'.focus ≠ some (r, st)) (hb : pc'.base r = th.pc.base r)
    (hcs : r ∈ l ↔ r ∈ th.csList) :
    ({ th with pc := pc', csList := l } : Thread).pstage r = th.pstage r := by
  rw [pstage_rest hf, pstage_rest hf']
  simp only [hb, hcs]

theorem focus_ne {st : PStage} {r : RecId} (hf : pc.focus = some (c, st)) (hr : r ≠ c) :
    ∀ st', pc.focus ≠ some (r, st') := by
  intro st' h
  rw [hf] at h
  simp only [Option.some.injEq, Prod.mk.injEq] at h
  exact hr h.1.symm

/-- What the parent touches while it works on `c`. -/
theorem live_touched {touched : List RecId} {st : PStage} (hpc : th.pc = pc)
    (hf : pc.focus = some (c, st)) (hst : st.Live) (hd : pc ≠ .dead)
    (ht : ∀ r ∈ touched, r = c ∨ r ∈ th.csList) :
    ∀ r ∈ touched, th.Holds r ∧ (th.pstage r).Live := by
  subst hpc
  intro r h
  rcases ht r h with rfl | h
  · exact ⟨holds_of_focus hf, live_of_focus hf hst⟩
  · refine ⟨.inl h, live_of_mem h hd fun st' h' => ?_⟩
    rw [hf] at h'
    simp only [Option.some.injEq, Prod.mk.injEq] at h'
    exact h'.2 ▸ hst

/-- The parent stores to the record it is working on. -/
theorem MoveSpec.store {ch : Choice} {r' : Rec} {k : Option Tid} {st : PStage} (st' : PStage)
    (hpc : th.pc = pc) (hf : pc.focus = some (c, st)) (hst : st.Live) (hd : pc ≠ .dead)
    (hf' : ∀ r, r ≠ c → ∀ st, pc'.focus ≠ some (r, st))
    (hst' : ({ th with pc := pc' } : Thread).pstage c = st')
    (hb : ∀ r, pc'.base r = pc.base r) (hcs : pc'.cstage = pc.cstage)
    (ho : r'.owner = (recs c).owner) (hch : r'.child = (recs c).child)
    (hp : ∀ (G : Guards) (cv : CView), (pc.parentFrees = true → G.calm → cv.c = .done) →
      Tau G ((recs c).view st cv) (r'.view st' cv)) :
    MoveSpec th recs ch [c] ⟨{ th with pc := pc' }, some (c, r'), k⟩ := by
  subst hpc
  refine .parent c ⟨⟨_, hf⟩, ?_, ?_, fun r hr => ?_, ?_, fun G cv hG => ?_⟩
  · rintro _ _ ⟨⟩
    exact ⟨rfl, ho, hch⟩
  · simp [Thread.cview, hcs]
  · exact pstage_others (focus_ne hf hr) (hf' r hr) (hb r) .rfl
  · exact live_touched rfl hf hst hd (by simp)
  · rw [pstage_focus hf, hst']
    simpa [Act.recOf] using hp G cv hG

/-- The parent reads the record it is working on, or changes its list. -/
theorem MoveSpec.read {ch : Choice} {touched l : List RecId} {st : PStage} (st' : PStage)
    (hpc : th.pc = pc) (hf : pc.focus = some (c, st))
    (hf' : ∀ r, r ≠ c → ∀ st, pc'.focus ≠ some (r, st))
    (hst' : ({ th with pc := pc', csList := l } : Thread).pstage c = st')
    (hb : ∀ r, r ≠ c → pc'.base r = pc.base r) (hcs : pc'.cstage = pc.cstage)
    (hmem : ∀ r, r ≠ c → (r ∈ l ↔ r ∈ th.csList))
    (ht : ∀ r ∈ touched, th.Holds r ∧ (th.pstage r).Live)
    (hp : ∀ (G : Guards) (cv : CView), Tau G ((recs c).view st cv) ((recs c).view st' cv)) :
    MoveSpec th recs ch touched ⟨{ th with pc := pc', csList := l }, none, none⟩ := by
  subst hpc
  refine .parent c ⟨⟨_, hf⟩, nofun, ?_, fun r hr => ?_, ht, fun G cv _ => ?_⟩
  · simp [Thread.cview, hcs]
  · exact pstage_others (focus_ne hf hr) (hf' r hr) (hb r hr) (hmem r hr)
  · rw [pstage_focus hf, hst']
    exact hp G cv

/-- The parent blocks on a semaphore of the record it is working on. -/
theorem MoveSpec.block {ch : Choice} {r' : Rec} {k : Option Tid} {st : PStage}
    (hpc : th.pc = pc) (hf : pc.focus = some (c, st)) (hst : st.Live) (hd : pc ≠ .dead)
    (ho : r'.owner = (recs c).owner) (hch : r'.child = (recs c).child)
    (hv : ∀ cv : CView, r'.view st cv = (recs c).view st cv) :
    MoveSpec th recs ch [c] ⟨{ th with blocked := true }, some (c, r'), k⟩ := by
  subst hpc
  refine .parent c ⟨⟨_, hf⟩, ?_, rfl, fun _ _ => rfl, live_touched rfl hf hst hd (by simp),
    fun G cv _ => .inl ?_⟩
  · rintro _ _ ⟨⟩
    exact ⟨rfl, ho, hch⟩
  · have : ({ th with blocked := true } : Thread).pstage c = st := pstage_focus hf
    rw [pstage_focus hf, this]
    simpa [Act.recOf] using hv cv

/-- The child stores to its record. -/
theorem MoveSpec.ofChild {ch : Choice} {th' : Thread} {r' : Rec} {k : Option Tid}
    (hpc : th.pc = pc) (hpar : th.csParent = some c) (hbusy : pc.cstage ≠ .done)
    (hstages : ∀ r, th'.pstage r = th.pstage r)
    (ho : r'.owner = (recs c).owner) (hch : r'.child = (recs c).child)
    (hp : ∀ (G : Guards) (p : PStage), ChildMay G pc ch p (recs c) →
      Tau G ((recs c).view p ⟨pc.cstage, th.success, th.fate⟩) (r'.view p th'.cview)) :
    MoveSpec th recs ch [c] ⟨th', some (c, r'), k⟩ := by
  subst hpc
  refine .child c ⟨hpar, ?_, hstages, by simp, hbusy, fun G p hG => ?_⟩
  · rintro _ _ ⟨⟩
    exact ⟨rfl, ho, hch⟩
  · simpa [Act.recOf, Thread.cview] using hp G p hG

/-- The child reads its record. -/
theorem MoveSpec.childRead {ch : Choice} {touched : List RecId} {th' : Thread}
    (hpc : th.pc = pc) (hpar : th.csParent = some c) (hbusy : pc.cstage ≠ .done)
    (hstages : ∀ r, th'.pstage r = th.pstage r) (ht : ∀ r ∈ touched, r = c)
    (hp : ∀ (G : Guards) (p : PStage), ChildMay G pc ch p (recs c) →
      Tau G ((recs c).view p ⟨pc.cstage, th.success, th.fate⟩) ((recs c).view p th'.cview)) :
    MoveSpec th recs ch touched ⟨th', none, none⟩ := by
  subst hpc
  exact .child c ⟨hpar, nofun, hstages, ht, hbusy, hp⟩

/-- A thread at work on no record of its own, before and after. -/
theorem pstage_same {th' : Thread} (hpc : th.pc = pc) (hpc' : th'.pc = pc') (hf : pc.focus = none)
    (hf' : pc'.focus = none) (hl : th'.csList = th.csList)
    (hb : ∀ r ∈ th.csList, pc'.base r = pc.base r) (r : RecId) : th'.pstage r = th.pstage r := by
  subst hpc hpc'
  simp only [Thread.pstage, hf, hf', hl]
  split
  · next h => exact hb r h
  · rfl

theorem down_touched {sema : Semaphore} {put : Semaphore → Rec} :
    (down t th c sema put pc).touched = [c] := by
  unfold down
  split <;> rfl

theorem down_act {sema : Semaphore} {put : Semaphore → Rec} {a : Act}
    (h : (down t th c sema put pc).act = some a) :
    0 < sema.value ∧
      a = ⟨{ th with pc }, some (c, put { sema with value := sema.value - 1 }), none⟩ ∨
    sema.value = 0 ∧ ∃ ws, sema.waiters = some ws ∧
      a = ⟨{ th with blocked := true }, some (c, put { sema with waiters := some (ws ++ [t]) }),
        none⟩ := by
  unfold down at h
  split at h
  · next sema' hd =>
    obtain ⟨hv, rfl⟩ := semaDown_pass hd
    exact .inl ⟨hv, (Option.some.inj h).symm⟩
  · next sema' hd =>
    obtain ⟨hv, ws, hws, rfl⟩ := semaDown_block hd
    exact .inr ⟨hv, ws, hws, (Option.some.inj h).symm⟩
  · cases h

theorem up_touched {sema : Semaphore} {put : Semaphore → Rec} :
    (up th c sema put).touched = [c] := by
  unfold up
  split <;> rfl

theorem up_act {sema : Semaphore} {put : Semaphore → Rec} {a : Act}
    (h : (up th c sema put).act = some a) :
    ∃ ws, sema.waiters = some ws ∧
      a = ⟨th, some (c, put ⟨(sema.value + 1) % 2 ^ 32, some ws.tail⟩), ws.head?⟩ := by
  unfold up at h
  split at h
  · cases h
  · next sema' w hu =>
    obtain ⟨ws, hws, rfl, rfl⟩ := semaUp_some hu
    exact ⟨ws, hws, (Option.some.inj h).symm⟩

theorem init_spec {i : Init} {tid : Int} {a : Act} (hok : th.Ok) (hpc : th.pc = .init i c tid)
    (htid : tid = (recs c).childTid) (ha : (initMove th recs c tid i).act = some a) :
    Common th a ∧ MoveSpec th recs .go (initMove th recs c tid i).touched a := by
  have hpcok := hok.pc
  rw [hpc] at hpcok
  -- The next statement is again one of the initialisation of `c`.
  have hnext : ∀ j, ∀ i' c' tid', Pc.init j c tid = .init i' c' tid' →
      ∃ i'', Pc.init i c tid = .init i'' c' tid' := by
    rintro j _ _ _ ⟨⟩
    exact ⟨i, rfl⟩
  cases i with
  | semaValue =>
    obtain rfl := Option.some.inj ha
    exact ⟨.single hok hpc rfl rfl hpcok rfl rfl (hnext _),
      .store .init hpc rfl ⟨rfl, nofun⟩ nofun (fun _ => focus_ne rfl) (pstage_focus rfl)
        (fun _ => rfl) rfl rfl rfl fun G cv _ => .inr (.semaValue rfl)⟩
  | semaList | lockHolder | lockValue | lockList =>
    obtain rfl := Option.some.inj ha
    exact ⟨.single hok hpc rfl rfl hpcok rfl rfl (hnext _),
      .store .init hpc rfl ⟨rfl, nofun⟩ nofun (fun _ => focus_ne rfl) (pstage_focus rfl)
        (fun _ => rfl) rfl rfl rfl fun G cv _ => .inl rfl⟩
  | push =>
    obtain rfl := Option.some.inj ha
    refine ⟨.next hok hpc (List.nodup_cons.mpr ⟨hpcok, hok.nodup⟩) List.mem_cons_self rfl rfl ?_
      (hnext _), ?_⟩
    · intro r h
      have hc : th.Holds c := holds_of_focus (by rw [hpc]; rfl)
      rcases h with h | ⟨st, h⟩
      · rcases List.mem_cons.mp h with rfl | h
        · exact hc
        · exact .inl h
      · cases h
        exact hc
    · refine .read .init hpc rfl (fun _ => focus_ne rfl) (pstage_focus rfl) (fun _ _ => rfl) rfl
        (fun r hr => by simp [hr]) (live_touched hpc rfl ⟨rfl, nofun⟩ nofun fun r h => ?_)
        fun G cv => .inl rfl
      rcases List.mem_cons.mp h with rfl | h
      · exact .inl rfl
      · exact .inr (List.mem_of_mem_head? (Option.mem_toList.mp h))
  | storePid =>
    subst htid
    obtain rfl := Option.some.inj ha
    exact ⟨.single hok hpc rfl rfl hpcok rfl rfl nofun,
      .store .stored hpc rfl ⟨rfl, nofun⟩ nofun (fun _ => focus_ne rfl) (pstage_focus rfl)
        (fun _ => rfl) rfl rfl rfl fun G cv _ => .inr (.storePid rfl)⟩

end

/-! ### `process_execute` -/

section

variable {t : Tid} {th : Thread} {recs : RecId → Rec} {c : RecId} {a : Act}

theorem execDown_spec (hok : th.Ok) (hpc : th.pc = .execDown c)
    (ha : (down t th c (recs c).semaExec (fun sema => { recs c with semaExec := sema })
      (.readPid c)).act = some a) :
    Common th a ∧ MoveSpec th recs .go [c] a := by
  have hpcok := hok.pc
  rw [hpc] at hpcok
  obtain ⟨hv, rfl⟩ | ⟨-, ws, -, rfl⟩ := down_act ha
  · exact ⟨.single hok hpc rfl rfl hpcok rfl rfl nofun,
      .store .passed hpc rfl ⟨rfl, nofun⟩ nofun (fun _ => focus_ne rfl) (pstage_focus rfl)
        (fun _ => rfl) rfl rfl rfl fun G cv _ => .inr (.pass rfl hv)⟩
  · exact ⟨.block hok, .block hpc rfl ⟨rfl, nofun⟩ nofun rfl rfl fun _ => rfl⟩

theorem readPid_spec (hok : th.Ok) (hpc : th.pc = .readPid c)
    (ha : (goto th [c] (if (recs c).pid = tidError then .execRemove c
      else .execReturn (some c) (recs c).pid)).act = some a) :
    Common th a ∧ MoveSpec th recs .go [c] a := by
  have hpcok := hok.pc
  rw [hpc] at hpcok
  obtain rfl := Option.some.inj ha
  have ht : ∀ r ∈ [c], th.Holds r ∧ (th.pstage r).Live :=
    live_touched hpc rfl ⟨rfl, nofun⟩ nofun (by simp)
  split
  · next he =>
    exact ⟨.single hok hpc rfl rfl hpcok rfl rfl nofun,
      .read .failed hpc rfl (fun _ => focus_ne rfl) (pstage_focus rfl) (fun _ _ => rfl) rfl
        (fun _ _ => .rfl) ht fun G cv => .inr (.readErr rfl he)⟩
  · next hne =>
    have hf : (Pc.execReturn (some c) (recs c).pid).focus = some (c, .opened (recs c).pid) := by
      simp [Pc.focus, hne]
    exact ⟨.single hok hpc rfl hf (iff_of_true hpcok hne) rfl rfl nofun,
      .read _ hpc rfl (fun _ => focus_ne hf) (pstage_focus hf) (fun _ _ => rfl) rfl
        (fun _ _ => .rfl) ht fun G cv => .inr (.readPid rfl hne)⟩

/-- `list_remove` of the record the parent is working on. -/
theorem listRemove_spec {pc pc' : Pc} {st : PStage} (hok : th.Ok) (hpc : th.pc = pc)
    (hf : pc.focus = some (c, st)) (hf' : pc'.focus = some (c, st)) (hst : st.Live)
    (hd : pc ≠ .dead) (hb : ∀ r, r ≠ c → pc'.base r = pc.base r) (hcs : pc'.cstage = pc.cstage)
    (hpc' : pc'.Ok (th.csList.erase c) th.csParent) (hex : pc'.exiting = pc.exiting)
    (hld : pc'.loaded = false) (hinit : ∀ i c tid, pc' ≠ .init i c tid) :
    Common th ⟨{ th with pc := pc', csList := th.csList.erase c }, none, none⟩ ∧
      MoveSpec th recs .go (c :: neighbours c th.csList)
        ⟨{ th with pc := pc', csList := th.csList.erase c }, none, none⟩ := by
  refine ⟨.next hok hpc (hok.nodup.erase c) hpc' hex hld (fun r h => ?_)
    (fun i c' tid h => absurd h (hinit i c' tid)), ?_⟩
  · rcases h with h | ⟨st', h⟩
    · exact .inl (List.mem_of_mem_erase h)
    · rw [hf'] at h
      simp only [Option.some.injEq, Prod.mk.injEq] at h
      exact h.1 ▸ holds_of_focus (hpc ▸ hf)
  · refine .read st hpc hf (fun _ => focus_ne hf') (pstage_focus hf') hb hcs
      (fun r hr => List.mem_erase_of_ne hr) (live_touched hpc hf hst hd fun r h => ?_)
      fun G cv => .inl rfl
    rcases List.mem_cons.mp h with rfl | h
    · exact .inl rfl
    · exact .inr (mem_neighbours h)

theorem execRemove_spec (hok : th.Ok) (hpc : th.pc = .execRemove c)
    (ha : (listRemove th c (.execFree c)).act = some a) :
    Common th a ∧ MoveSpec th recs .go (c :: neighbours c th.csList) a := by
  obtain rfl := Option.some.inj ha
  exact listRemove_spec hok hpc rfl rfl ⟨rfl, nofun⟩ nofun (fun _ _ => rfl) rfl
    hok.nodup.not_mem_erase rfl rfl nofun

theorem execFree_spec (hok : th.Ok) (hpc : th.pc = .execFree c)
    (ha : (freeRec th recs c (.execReturn (some c) tidError)).act = some a) :
    Common th a ∧ MoveSpec th recs .go [c] a := by
  have hpcok := hok.pc
  rw [hpc] at hpcok
  obtain rfl := Option.some.inj ha
  exact ⟨.single hok hpc rfl rfl (iff_of_false hpcok (by simp)) rfl rfl nofun,
    .store .refused hpc rfl ⟨rfl, nofun⟩ nofun (fun _ => focus_ne rfl) (pstage_focus rfl)
      (fun _ => rfl) rfl rfl rfl fun G cv hG => .inr (.refuse rfl (hG rfl))⟩

/-- A statement that reads a record of the list and may start to work on one. -/
theorem look_spec {ch : Choice} {touched : List RecId} {pc pc' : Pc} (hok : th.Ok) (hpc : th.pc = pc)
    (hf : pc.focus = none) (hd : pc ≠ .dead)
    (hf' : ∀ r st, pc'.focus = some (r, st) → r ∈ th.csList ∧ st = pc.base r)
    (hb : ∀ r ∈ th.csList, (∀ st, pc'.focus ≠ some (r, st)) → pc'.base r = pc.base r)
    (hcs : pc'.cstage = pc.cstage ∨ th.csParent = none)
    (ht : ∀ r ∈ touched, r ∈ th.csList) (hpc' : pc'.Ok th.csList th.csParent)
    (hex : pc'.exiting = pc.exiting) (hld : pc'.loaded = false)
    (hinit : ∀ i c tid, pc' ≠ .init i c tid) :
    Common th ⟨{ th with pc := pc' }, none, none⟩ ∧
      MoveSpec th recs ch touched ⟨{ th with pc := pc' }, none, none⟩ := by
  subst hpc
  refine ⟨.plain hok rfl (fun r st h => (hf' r st h).1) hpc' hex hld hinit,
    .quiet ⟨rfl, ?_, fun r => .inl ?_, fun r h => ⟨.inl (ht r h), live_of_mem (ht r h) hd ?_⟩⟩⟩
  · exact hcs.imp (fun h => by simp [Thread.cview, h]) id
  · have hrest : th.pstage r = if r ∈ th.csList then th.pc.base r else .gone :=
      pstage_rest (by simp [hf])
    by_cases h : ∃ st, pc'.focus = some (r, st)
    · obtain ⟨st, h⟩ := h
      obtain ⟨hr, rfl⟩ := hf' r st h
      have : ({ th with pc := pc' } : Thread).pstage r = th.pc.base r := pstage_focus h
      rw [this, hrest, if_pos hr]
    · have h : ∀ st, pc'.focus ≠ some (r, st) := fun st hst => h ⟨st, hst⟩
      have : ({ th with pc := pc' } : Thread).pstage r =
          if r ∈ th.csList then pc'.base r else .gone := pstage_rest h
      rw [this, hrest]
      split
      · next hr => exact hb r hr h
      · rfl
  · simp [hf]

theorem execReturn_spec {o : Option RecId} {v : Int} (hok : th.Ok)
    (hpc : th.pc = .execReturn o v) (ha : (goto th [] .user).act = some a) :
    Common th a ∧ MoveSpec th recs .go [] a := by
  have hpcok := hok.pc
  rw [hpc] at hpcok
  obtain rfl := Option.some.inj ha
  cases o with
  | none =>
    exact look_spec hok hpc rfl nofun nofun (fun _ _ _ => rfl) (.inl rfl) nofun trivial rfl
      rfl nofun
  | some c =>
    refine ⟨.plain hok hpc nofun trivial rfl rfl nofun, ?_⟩
    by_cases hv : v = tidError
    · subst hv
      have hc : c ∉ th.csList := fun h => (hpcok.mp h) rfl
      exact .read .gone hpc rfl nofun (by simp [Thread.pstage, Pc.focus, hc]) (fun _ _ => rfl)
        rfl (fun _ _ => .rfl) nofun fun G cv => .inr (.returnErr rfl)
    · have hc : c ∈ th.csList := hpcok.mpr hv
      have hf : (Pc.execReturn (some c) v).focus = some (c, .opened v) := by
        simp [Pc.focus, hv]
      exact .read .listed hpc hf nofun (by simp [Thread.pstage, Pc.focus, hc, Pc.base, Pc.lists])
        (fun _ _ => rfl) rfl (fun _ _ => .rfl) nofun fun G cv => .inr (.return rfl)

/-! ### `process_wait` -/

theorem focus_listed {x : Int} {b : Bool} (hc : c ∈ th.csList) (r : RecId) (st : PStage)
    (h : (Pc.acquire (.wait x b) c).focus = some (r, st)) : r ∈ th.csList ∧ st = .listed := by
  cases h
  exact ⟨hc, rfl⟩

theorem scan_nil_spec {x : Int} {cs : Option RecId} (hok : th.Ok) (hpc : th.pc = .scan x cs [])
    {m : Move} (h : move t th recs (.scan x cs []) .go = some m) (ha : m.act = some a) :
    Common th a ∧ MoveSpec th recs .go m.touched a := by
  have hpcok := hok.pc
  rw [hpc] at hpcok
  cases cs with
  | none =>
    obtain rfl := Option.some.inj h
    obtain rfl := Option.some.inj ha
    exact look_spec hok hpc rfl nofun nofun (fun _ _ _ => rfl) (.inl rfl) nofun
      ⟨hpcok.symm, rfl⟩ rfl rfl nofun
  | some c =>
    obtain rfl := Option.some.inj h
    obtain rfl := Option.some.inj ha
    exact look_spec hok hpc rfl nofun (focus_listed hpcok.1) (fun _ _ _ => rfl) (.inl rfl) nofun
      hpcok.1 rfl rfl nofun

theorem scan_cons_spec {x : Int} {cs : Option RecId} {rest : List RecId} (hok : th.Ok)
    (hpc : th.pc = .scan x cs (c :: rest))
    (ha : (goto th [c] (if (recs c).pid = x then .acquire (.wait x true) c
      else .scanNext x c rest)).act = some a) :
    Common th a ∧ MoveSpec th recs .go [c] a := by
  have hsub : c :: rest ⊆ th.csList := by
    have hpcok := hok.pc
    rw [hpc] at hpcok
    cases cs with
    | none => exact hpcok ▸ List.Subset.refl _
    | some d => exact hpcok.2
  have hc : c ∈ th.csList := hsub List.mem_cons_self
  obtain rfl := Option.some.inj ha
  split
  · exact look_spec hok hpc rfl nofun (focus_listed hc) (fun _ _ _ => rfl) (.inl rfl)
      (by simpa using hc) hc rfl rfl nofun
  · exact look_spec hok hpc rfl nofun nofun (fun _ _ _ => rfl) (.inl rfl) (by simpa using hc)
      ⟨hc, fun r hr => hsub (List.mem_cons_of_mem _ hr)⟩ rfl rfl nofun

theorem scanNext_spec {x : Int} {rest : List RecId} (hok : th.Ok)
    (hpc : th.pc = .scanNext x c rest) (ha : (goto th [c] (.scan x (some c) rest)).act = some a) :
    Common th a ∧ MoveSpec th recs .go [c] a := by
  have hpcok := hok.pc
  rw [hpc] at hpcok
  obtain rfl := Option.some.inj ha
  exact look_spec hok hpc rfl nofun nofun (fun _ _ _ => rfl) (.inl rfl) (by simpa using hpcok.1)
    hpcok rfl rfl nofun

theorem waitDown_spec {x : Int} {found : Bool} (hok : th.Ok) (hpc : th.pc = .waitDown x found c)
    (ha : (down t th c (recs c).semaExec (fun sema => { recs c with semaExec := sema })
      (.waitRead x found c)).act = some a) :
    Common th a ∧ MoveSpec th recs .go [c] a := by
  have hpcok := hok.pc
  rw [hpc] at hpcok
  obtain ⟨hv, rfl⟩ | ⟨-, ws, -, rfl⟩ := down_act ha
  · exact ⟨.single hok hpc rfl rfl hpcok rfl rfl nofun,
      .store .gated hpc rfl ⟨rfl, nofun⟩ nofun (fun _ => focus_ne rfl) (pstage_focus rfl)
        (fun _ => rfl) rfl rfl rfl fun G cv _ => .inr (.gateDown rfl hv)⟩
  · exact ⟨.block hok, .block hpc rfl ⟨rfl, nofun⟩ nofun rfl rfl fun _ => rfl⟩

theorem waitRead_spec {x : Int} {found : Bool} (hok : th.Ok) (hpc : th.pc = .waitRead x found c)
    (ha : (goto th [c] (.waitRemove x found c (recs c).exitStatus)).act = some a) :
    Common th a ∧ MoveSpec th recs .go [c] a := by
  have hpcok := hok.pc
  rw [hpc] at hpcok
  obtain rfl := Option.some.inj ha
  exact ⟨.single hok hpc rfl rfl hpcok rfl rfl nofun,
    .read (.collected (recs c).exitStatus) hpc rfl (fun _ => focus_ne rfl) (pstage_focus rfl)
      (fun _ _ => rfl) rfl (fun _ _ => .rfl) (live_touched hpc rfl ⟨rfl, nofun⟩ nofun (by simp))
      fun G cv => .inr (.collect rfl)⟩

theorem waitRemove_spec {x v : Int} (hok : th.Ok) (hpc : th.pc = .waitRemove x true c v)
    (ha : (listRemove th c (.waitFree x c v)).act = some a) :
    Common th a ∧ MoveSpec th recs .go (c :: neighbours c th.csList) a := by
  obtain rfl := Option.some.inj ha
  exact listRemove_spec hok hpc rfl rfl ⟨rfl, nofun⟩ nofun (fun _ _ => rfl) rfl
    hok.nodup.not_mem_erase rfl rfl nofun

theorem waitFree_spec {x v : Int} (hok : th.Ok) (hpc : th.pc = .waitFree x c v)
    (ha : (freeRec th recs c (.waitReturn x (some c) v)).act = some a) :
    Common th a ∧ MoveSpec th recs .go [c] a := by
  have hpcok := hok.pc
  rw [hpc] at hpcok
  obtain rfl := Option.some.inj ha
  exact ⟨.single hok hpc rfl rfl hpcok rfl rfl nofun,
    .store (.reaped v) hpc rfl ⟨rfl, nofun⟩ nofun (fun _ => focus_ne rfl) (pstage_focus rfl)
      (fun _ => rfl) rfl rfl rfl fun G cv hG => .inr (.reap rfl (hG rfl))⟩

theorem waitReturn_spec {x v : Int} {o : Option RecId} (hok : th.Ok)
    (hpc : th.pc = .waitReturn x o v) (ha : (goto th [] .user).act = some a) :
    Common th a ∧ MoveSpec th recs .go [] a := by
  have hpcok := hok.pc
  rw [hpc] at hpcok
  obtain rfl := Option.some.inj ha
  cases o with
  | none =>
    exact look_spec hok hpc rfl nofun nofun (fun _ _ _ => rfl) (.inl rfl) nofun trivial rfl
      rfl nofun
  | some c =>
    have hc : c ∉ th.csList := hpcok
    exact ⟨.plain hok hpc nofun trivial rfl rfl nofun,
      .read .gone hpc rfl nofun (by simp [Thread.pstage, Pc.focus, hc]) (fun _ _ => rfl) rfl
        (fun _ _ => .rfl) nofun fun G cv => .inr (.returnStatus rfl)⟩

end

/-! ### `cs_lock` -/

section

variable {t : Tid} {th : Thread} {recs : RecId → Rec} {c : RecId} {a : Act}

/-- A store of the parent of `c` inside a critical section that the protocol does
not see. -/
theorem lock_store {pc pc' : Pc} {r' : Rec} {k : Option Tid} {st : PStage} (hok : th.Ok)
    (hpc : th.pc = pc) (hf : pc.focus = some (c, st)) (hf' : pc'.focus = some (c, st))
    (hst : st.Live) (hd : pc ≠ .dead) (hb : ∀ r, pc'.base r = pc.base r)
    (hcs : pc'.cstage = pc.cstage) (hpc' : pc'.Ok th.csList th.csParent)
    (hex : pc'.exiting = pc.exiting) (hld : pc'.loaded = false)
    (hinit : ∀ i c tid, pc' ≠ .init i c tid) (ho : r'.owner = (recs c).owner)
    (hch : r'.child = (recs c).child)
    (hv : ∀ cv : CView, r'.view st cv = (recs c).view st cv) :
    Common th ⟨{ th with pc := pc' }, some (c, r'), k⟩ ∧
      MoveSpec th recs .go [c] ⟨{ th with pc := pc' }, some (c, r'), k⟩ :=
  ⟨.single hok hpc hf hf' hpc' hex hld fun i c tid h => absurd h (hinit i c tid),
    .store st hpc hf hst hd (fun _ => focus_ne hf') (pstage_focus hf') hb hcs ho hch
      fun _ cv _ => .inl (hv cv)⟩

/-- The same for the child. -/
theorem lock_store_child {pc pc' : Pc} {r' : Rec} {k : Option Tid} (hok : th.Ok)
    (hpc : th.pc = pc) (hpar : th.csParent = some c) (hf : pc.focus = none)
    (hf' : pc'.focus = none) (hbusy : pc.cstage ≠ .done) (hb : ∀ r, pc'.base r = pc.base r)
    (hcs : pc'.cstage = pc.cstage) (hpc' : pc'.Ok th.csList th.csParent)
    (hex : pc'.exiting = pc.exiting) (hld : pc'.loaded = false)
    (hinit : ∀ i c tid, pc' ≠ .init i c tid) (ho : r'.owner = (recs c).owner)
    (hch : r'.child = (recs c).child)
    (hv : ∀ (p : PStage) (cv : CView), r'.view p cv = (recs c).view p cv) :
    Common th ⟨{ th with pc := pc' }, some (c, r'), k⟩ ∧
      MoveSpec th recs .go [c] ⟨{ th with pc := pc' }, some (c, r'), k⟩ := by
  refine ⟨.plain hok hpc (by simp [hf']) hpc' hex hld hinit,
    .ofChild hpc hpar hbusy (pstage_same hpc rfl hf hf' rfl fun r _ => hb r) ho hch
      fun G p _ => .inl ?_⟩
  rw [hv]
  simp [Thread.cview, hcs]

theorem acquire_spec {k : Site} (hok : th.Ok) (hpc : th.pc = .acquire k c)
    (ha : (down t th c (recs c).lockSema (fun sema => { recs c with lockSema := sema })
      (.hold k c)).act = some a) :
    Common th a ∧ MoveSpec th recs .go [c] a := by
  have hpcok := hok.pc
  rw [hpc] at hpcok
  obtain ⟨-, rfl⟩ | ⟨-, ws, -, rfl⟩ := down_act ha
  · cases k with
    | wait x found =>
      exact lock_store hok hpc rfl rfl ⟨rfl, nofun⟩ nofun (fun _ => rfl) rfl hpcok rfl rfl nofun
        rfl rfl fun _ => rfl
    | child =>
      exact lock_store_child hok hpc hpcok rfl rfl nofun (fun _ => rfl) rfl hpcok rfl rfl nofun
        rfl rfl fun _ _ => rfl
    | loop rest del =>
      exact lock_store hok hpc rfl rfl ⟨rfl, nofun⟩ nofun (fun _ => rfl) rfl hpcok rfl rfl nofun
        rfl rfl fun _ => rfl
  · refine ⟨.block hok, ?_⟩
    cases k with
    | wait x found => exact .block hpc rfl ⟨rfl, nofun⟩ nofun rfl rfl fun _ => rfl
    | child =>
      exact .ofChild hpc hpcok nofun (fun _ => rfl) rfl rfl fun G p _ => .inl (by
        simp [Thread.cview, hpc, Rec.view, Rec.childTid])
    | loop rest del => exact .block hpc rfl ⟨rfl, nofun⟩ nofun rfl rfl fun _ => rfl

theorem hold_spec {k : Site} (hok : th.Ok) (hpc : th.pc = .hold k c)
    (ha : (store th c { recs c with holder := some t } (k.body c)).act = some a) :
    Common th a ∧ MoveSpec th recs .go [c] a := by
  have hpcok := hok.pc
  rw [hpc] at hpcok
  obtain rfl := Option.some.inj ha
  cases k with
  | wait x found =>
    exact lock_store hok hpc rfl rfl ⟨rfl, nofun⟩ nofun (fun _ => rfl) rfl hpcok rfl rfl nofun
      rfl rfl fun _ => rfl
  | child =>
    exact lock_store_child hok hpc hpcok rfl rfl nofun (fun _ => rfl) rfl ⟨hpcok, rfl⟩ rfl rfl
      nofun rfl rfl fun _ _ => rfl
  | loop rest del =>
    exact lock_store hok hpc rfl rfl ⟨rfl, nofun⟩ nofun (fun _ => rfl) rfl ⟨hpcok, rfl⟩ rfl rfl
      nofun rfl rfl fun _ => rfl

theorem dec_spec {k : Site} (hok : th.Ok) (hpc : th.pc = .dec k c)
    (ha : (store th c { recs c with refCnt := (recs c).refCnt - 1 } (.test k c)).act = some a) :
    Common th a ∧ MoveSpec th recs .go [c] a := by
  have hpcok := hok.pc
  rw [hpc] at hpcok
  obtain rfl := Option.some.inj ha
  cases k with
  | wait x found => exact absurd hpcok.2 nofun
  | child =>
    have hfate : th.fate ≠ none := hok.fate.mpr (by rw [hpc]; rfl)
    exact ⟨.plain hok hpc nofun hpcok.1 rfl rfl nofun,
      .ofChild hpc hpcok.1 nofun (pstage_same hpc rfl rfl rfl rfl fun _ _ => rfl) rfl rfl
        fun G p _ => .inr (.childDec rfl hfate)⟩
  | loop rest del =>
    exact ⟨.single hok hpc rfl rfl hpcok.1 rfl rfl nofun,
      .store .decd hpc rfl ⟨rfl, nofun⟩ nofun (fun _ => focus_ne rfl) (pstage_focus rfl)
        (fun _ => rfl) rfl rfl rfl fun G cv _ => .inr (.parentDec rfl)⟩

theorem LoopOk.after {l rest del : List RecId} (h : LoopOk l (c :: rest) del) :
    LoopOk l rest del ∧ c ∈ l ∧ c ∉ rest ∧ c ∉ del := by
  obtain ⟨hnd, hsub⟩ := h
  rw [List.cons_append, List.nodup_cons, List.mem_append, not_or] at hnd
  exact ⟨⟨hnd.2, fun r hr => hsub (List.mem_cons_of_mem _ hr)⟩, hsub List.mem_cons_self, hnd.1⟩

theorem test_spec {k : Site} (hok : th.Ok) (hpc : th.pc = .test k c)
    (ha : (goto th [c] (k.tested c (recs c).refCnt)).act = some a) :
    Common th a ∧ MoveSpec th recs .go [c] a := by
  have hpcok := hok.pc
  rw [hpc] at hpcok
  obtain rfl := Option.some.inj ha
  cases k with
  | wait x found =>
    have ht : ∀ r ∈ [c], th.Holds r ∧ (th.pstage r).Live :=
      live_touched hpc rfl ⟨rfl, nofun⟩ nofun (by simp)
    unfold Site.tested
    by_cases h2 : (recs c).refCnt = 2
    · simp only [h2, decide_true]
      exact ⟨.single hok hpc rfl rfl hpcok rfl rfl nofun,
        .read .listed hpc rfl (fun _ => focus_ne rfl) (pstage_focus rfl) (fun _ _ => rfl) rfl
          (fun _ _ => .rfl) ht fun G cv => .inl rfl⟩
    · simp only [h2, decide_false]
      exact ⟨.single hok hpc rfl rfl hpcok rfl rfl nofun,
        .read .gated hpc rfl (fun _ => focus_ne rfl) (pstage_focus rfl) (fun _ _ => rfl) rfl
          (fun _ _ => .rfl) ht fun G cv => .inr (.gateRef rfl h2)⟩
  | child =>
    have hcommon : ∀ b, Common th ⟨{ th with pc := .release .child c b }, none, none⟩ :=
      fun b => .plain hok hpc nofun hpcok rfl rfl nofun
    have hsame : ∀ b r, ({ th with pc := .release .child c b } : Thread).pstage r = th.pstage r :=
      fun b => pstage_same hpc rfl rfl rfl rfl fun _ _ => rfl
    unfold Site.tested
    refine ⟨hcommon _, .childRead hpc hpcok nofun (hsame _) (by simp) fun G p _ => ?_⟩
    by_cases h0 : (recs c).refCnt = 0
    · simp only [h0, decide_true]
      exact .inr (.testZero rfl h0)
    · simp only [h0, decide_false]
      exact .inr (.testPos rfl h0)
  | loop rest del =>
    obtain ⟨hloop, hc, hrest, hdel⟩ := LoopOk.after hpcok
    have ht : ∀ r ∈ [c], th.Holds r ∧ (th.pstage r).Live :=
      live_touched hpc rfl ⟨rfl, nofun⟩ nofun (by simp)
    unfold Site.tested
    dsimp only
    split
    · next h0 =>
      exact ⟨.single hok hpc rfl rfl hpcok rfl rfl nofun,
        .read .deleting hpc rfl (fun _ => focus_ne rfl) (pstage_focus rfl) (fun _ _ => rfl) rfl
          (fun _ _ => .rfl) ht fun G cv => .inr (.enlist rfl h0)⟩
    · next h0 =>
      have hf : (Pc.release (.loop rest del) c false).focus = some (c, .dropped) := by
        simp [Pc.focus, Site.focus, hdel]
      exact ⟨.single hok hpc rfl hf ⟨hloop, hc, hrest⟩ rfl rfl nofun,
        .read .dropped hpc rfl (fun _ => focus_ne hf) (pstage_focus hf) (fun _ _ => rfl) rfl
          (fun _ _ => .rfl) ht fun G cv => .inr (.drop rfl h0)⟩

theorem live_ite {P : Prop} [Decidable P] {p q : PStage} (hp : p.Live) (hq : q.Live) :
    (if P then p else q).Live := by
  split
  · exact hp
  · exact hq

theorem release_spec {k : Site} {b : Bool} (hok : th.Ok) (hpc : th.pc = .release k c b)
    (ha : (store th c { recs c with holder := none } (.releaseUp k c b)).act = some a) :
    Common th a ∧ MoveSpec th recs .go [c] a := by
  have hpcok := hok.pc
  rw [hpc] at hpcok
  obtain rfl := Option.some.inj ha
  cases k with
  | wait x found =>
    exact lock_store hok hpc rfl rfl (live_ite ⟨rfl, nofun⟩ ⟨rfl, nofun⟩) nofun (fun _ => rfl) rfl hpcok rfl
      rfl nofun rfl rfl fun _ => rfl
  | child =>
    exact lock_store_child hok hpc hpcok rfl rfl (by cases b <;> nofun) (fun _ => rfl) rfl hpcok
      rfl rfl nofun rfl rfl fun _ _ => rfl
  | loop rest del =>
    exact lock_store hok hpc rfl rfl (live_ite ⟨rfl, nofun⟩ ⟨rfl, nofun⟩) nofun (fun _ => rfl) rfl hpcok rfl
      rfl nofun rfl rfl fun _ => rfl

theorem releaseUp_spec {k : Site} {b : Bool} (hok : th.Ok) (hpc : th.pc = .releaseUp k c b)
    (ha : (up { th with pc := k.after c b } c (recs c).lockSema
      fun sema => { recs c with lockSema := sema }).act = some a) :
    Common th a ∧ MoveSpec th recs .go [c] a := by
  have hpcok := hok.pc
  rw [hpc] at hpcok
  obtain ⟨ws, -, rfl⟩ := up_act ha
  cases k with
  | wait x found =>
    cases b <;> exact lock_store hok hpc rfl rfl ⟨rfl, nofun⟩ nofun (fun _ => rfl) rfl hpcok rfl
      rfl nofun rfl rfl fun _ => rfl
  | child =>
    cases b <;> exact lock_store_child hok hpc hpcok rfl rfl nofun (fun _ => rfl) rfl hpcok rfl
      rfl nofun rfl rfl fun _ _ => rfl
  | loop rest del =>
    exact lock_store hok hpc rfl rfl (live_ite ⟨rfl, nofun⟩ ⟨rfl, nofun⟩) nofun (fun _ => rfl) rfl hpcok rfl
      rfl nofun rfl rfl fun _ => rfl

end

/-! ### `start_process`, user mode and `process_exit` -/

section

variable {t : Tid} {th : Thread} {recs : RecId → Rec} {c : RecId} {a : Act}

theorem load_spec {ok : Bool} (hok : th.Ok) (hpc : th.pc = .load c)
    (ha : a = ⟨{ th with pc := if ok then .ack c else .storeErr c, success := some ok }, none, none⟩) :
    Common th a ∧ MoveSpec th recs (.load ok) [c] a := by
  have hpcok := hok.pc
  have hfate := hok.fate
  rw [hpc] at hpcok hfate
  subst ha
  cases ok with
  | true =>
    exact ⟨⟨⟨hok.nodup, hpcok, hfate, nofun⟩, rfl, fun r h => h.imp id nofun, nofun⟩,
      .childRead hpc hpcok nofun (pstage_same hpc rfl rfl rfl rfl fun _ _ => rfl) (by simp)
        fun G p _ => .inr (.load rfl)⟩
  | false =>
    exact ⟨⟨⟨hok.nodup, hpcok, hfate, nofun⟩, rfl, fun r h => h.imp id nofun, nofun⟩,
      .childRead hpc hpcok nofun (pstage_same hpc rfl rfl rfl rfl fun _ _ => rfl) (by simp)
        fun G p _ => .inr (.loadErr rfl)⟩

theorem storeErr_spec (hok : th.Ok) (hpc : th.pc = .storeErr c)
    (ha : (store th c { recs c with pid := tidError } (.ack c)).act = some a) :
    Common th a ∧ MoveSpec th recs .go [c] a := by
  have hpcok := hok.pc
  have hfate := hok.fate
  have hld := hok.loaded
  rw [hpc] at hpcok hfate hld
  obtain rfl := Option.some.inj ha
  exact ⟨⟨⟨hok.nodup, hpcok, hfate, fun _ => hld rfl⟩, rfl, fun r h => h.imp id nofun, nofun⟩,
    .ofChild hpc hpcok nofun (pstage_same hpc rfl rfl rfl rfl fun _ _ => rfl) rfl rfl
      fun G p hG => .inr (.storeErr rfl (hG.storeErr c rfl))⟩

theorem ack_spec (hok : th.Ok) (hpc : th.pc = .ack c)
    (ha : (up (if th.success = some true then { th with pc := .user }
      else { th with pc := .exitBegin, fate := some .unloaded }) c (recs c).semaExec
      fun sema => { recs c with semaExec := sema }).act = some a) :
    Common th a ∧ MoveSpec th recs .go [c] a := by
  have hpcok := hok.pc
  have hfate := hok.fate
  have hsucc := hok.loaded (by rw [hpc]; rfl)
  rw [hpc] at hpcok hfate
  obtain ⟨ws, -, rfl⟩ := up_act ha
  split
  · next hs =>
    exact ⟨⟨⟨hok.nodup, trivial, hfate, nofun⟩, rfl, fun r h => h.imp id nofun, nofun⟩,
      .ofChild hpc hpcok nofun (pstage_same hpc rfl rfl rfl rfl fun _ _ => rfl) rfl rfl
        fun G p hG => .inr (.ack rfl hs (hG.ack c rfl))⟩
  · next hs =>
    have hs : th.success = some false := by
      match h : th.success with
      | none => exact absurd h hsucc
      | some true => exact absurd h hs
      | some false => rfl
    exact ⟨⟨⟨hok.nodup, trivial, ⟨fun _ => rfl, fun _ => nofun⟩, nofun⟩, rfl,
        fun r h => h.imp id nofun, nofun⟩,
      .ofChild hpc hpcok nofun (pstage_same hpc rfl rfl rfl rfl fun _ _ => rfl) rfl rfl
        fun G p hG => .inr (.ackErr rfl hs (hG.ack c rfl))⟩

theorem user_wait_spec {x : Int} (hok : th.Ok) (hpc : th.pc = .user)
    (ha : (goto th [] (.scan x none th.csList)).act = some a) :
    Common th a ∧ MoveSpec th recs (.wait x) [] a := by
  obtain rfl := Option.some.inj ha
  exact look_spec hok hpc rfl nofun nofun (fun _ _ _ => rfl) (.inl rfl) nofun rfl rfl rfl nofun

theorem user_exit_spec {v : Int} (hok : th.Ok) (hpc : th.pc = .user) (hpar : th.csParent = some c)
    (ha : a = ⟨{ th with pc := .exitBegin, fate := some (.exit v) },
      some (c, { recs c with exitStatus := v }), none⟩) :
    Common th a ∧ MoveSpec th recs (.exit v) [c] a := by
  have hnone : th.fate = none := by
    have := hok.fate
    rw [hpc] at this
    exact not_not.mp fun h => absurd (this.mp h) nofun
  subst ha
  exact ⟨⟨⟨hok.nodup, trivial, ⟨fun _ => rfl, fun _ => nofun⟩, nofun⟩, rfl,
      fun r h => h.imp id nofun, nofun⟩,
    .ofChild hpc hpar nofun (pstage_same hpc rfl rfl rfl rfl fun _ _ => rfl) rfl rfl
      fun G p _ => .inr (.exit rfl hnone)⟩

theorem user_kill_spec (hok : th.Ok) (hpc : th.pc = .user)
    (ha : a = ⟨{ th with pc := .exitBegin, fate := some .killed }, none, none⟩) :
    Common th a ∧ MoveSpec th recs .kill [] a := by
  have hnone : th.fate = none := by
    have := hok.fate
    rw [hpc] at this
    exact not_not.mp fun h => absurd (this.mp h) nofun
  subst ha
  refine ⟨⟨⟨hok.nodup, trivial, ⟨fun _ => rfl, fun _ => nofun⟩, nofun⟩, rfl,
    fun r h => h.imp id nofun, nofun⟩, ?_⟩
  have hst : ∀ r, ({ th with pc := .exitBegin, fate := some .killed } : Thread).pstage r =
      th.pstage r := pstage_same hpc rfl rfl rfl rfl fun _ _ => rfl
  rcases Option.eq_none_or_eq_some th.csParent with hpar | ⟨c, hpar⟩
  · exact .quiet ⟨rfl, .inr hpar, fun r => .inl (hst r), nofun⟩
  · exact .childRead hpc hpar nofun hst nofun fun G p hG => .inr (.kill rfl hnone (hG.kill rfl))

theorem loopOk_start {l : List RecId} (h : l.Nodup) : LoopOk l l [] :=
  ⟨by simpa using h, by simp⟩

/-- Before the loop every record of the list is still to be visited. -/
theorem base_start (pc : Pc) (h : pc.lists = none) (hd : pc ≠ .dead) (r : RecId)
    (hr : r ∈ th.csList) : (Pc.loop th.csList []).base r = pc.base r := by
  have : pc.base r = .listed := by
    unfold Pc.base
    split
    · exact absurd rfl hd
    · rfl
    · next h' => rw [h] at h'; cases h'
  rw [this]
  simp [Pc.base, Pc.lists, hr]

theorem exitBegin_spec (hok : th.Ok) (hpc : th.pc = .exitBegin) {m : Move}
    (h : move t th recs .exitBegin .go = some m) (ha : m.act = some a) :
    Common th a ∧ MoveSpec th recs .go m.touched a := by
  cases hpar : th.csParent with
  | none =>
    simp only [move, hpar, Option.some.injEq] at h
    subst h
    obtain rfl := Option.some.inj ha
    exact look_spec hok hpc rfl nofun nofun (fun r hr _ => base_start .exitBegin rfl nofun r hr) (.inr hpar)
      nofun (loopOk_start hok.nodup) rfl rfl nofun
  | some c =>
    simp only [move, hpar, Option.some.injEq] at h
    subst h
    obtain rfl := Option.some.inj ha
    exact look_spec hok hpc rfl nofun nofun (fun _ _ _ => rfl) (.inl rfl) nofun hpar rfl rfl
      nofun

theorem exitUp_spec (hok : th.Ok) (hpc : th.pc = .exitUp c)
    (ha : (up { th with pc := .loop th.csList [] } c (recs c).semaExec
      fun sema => { recs c with semaExec := sema }).act = some a) :
    Common th a ∧ MoveSpec th recs .go [c] a := by
  have hpcok := hok.pc
  rw [hpc] at hpcok
  obtain ⟨ws, -, rfl⟩ := up_act ha
  exact ⟨.plain hok hpc nofun (loopOk_start hok.nodup) rfl rfl nofun,
    .ofChild hpc hpcok nofun
      (pstage_same hpc rfl rfl rfl rfl (base_start (.exitUp c) rfl nofun)) rfl rfl
      fun G p _ => .inr (.up rfl)⟩

theorem exitFree_spec (hok : th.Ok) (hpc : th.pc = .exitFree c)
    (ha : (freeRec th recs c (.loop th.csList [])).act = some a) :
    Common th a ∧ MoveSpec th recs .go [c] a := by
  have hpcok := hok.pc
  rw [hpc] at hpcok
  obtain rfl := Option.some.inj ha
  exact ⟨.plain hok hpc nofun (loopOk_start hok.nodup) rfl rfl nofun,
    .ofChild hpc hpcok nofun
      (pstage_same hpc rfl rfl rfl rfl (base_start (.exitFree c) rfl nofun)) rfl rfl
      fun G p hG => .inr (.free rfl (hG.free c rfl))⟩

theorem loop_nil_spec {del : List RecId} (hok : th.Ok) (hpc : th.pc = .loop [] del)
    (ha : (goto th [] (.delete del)).act = some a) :
    Common th a ∧ MoveSpec th recs .go [] a := by
  have hpcok := hok.pc
  rw [hpc] at hpcok
  obtain rfl := Option.some.inj ha
  exact look_spec hok hpc rfl nofun nofun (fun _ _ _ => rfl) (.inl rfl) nofun hpcok rfl rfl nofun

theorem loop_cons_spec {rest del : List RecId} (hok : th.Ok) (hpc : th.pc = .loop (c :: rest) del)
    (ha : (goto th [] (.acquire (.loop rest del) c)).act = some a) :
    Common th a ∧ MoveSpec th recs .go [] a := by
  have hpcok := hok.pc
  rw [hpc] at hpcok
  obtain ⟨-, hc, -⟩ := LoopOk.after hpcok
  obtain rfl := Option.some.inj ha
  refine look_spec hok hpc rfl nofun ?_ (fun r _ hr => ?_) (.inl rfl) nofun hpcok rfl rfl nofun
  · rintro r st ⟨⟩
    exact ⟨hc, by simp [Pc.base, Pc.lists]⟩
  · have : r ≠ c := by
      rintro rfl
      exact hr _ rfl
    simp [Pc.base, Pc.lists, this]

theorem enlist_spec {rest del : List RecId} (hok : th.Ok) (hpc : th.pc = .enlist c rest del)
    (ha : (goto th [] (.release (.loop rest (c :: del)) c true)).act = some a) :
    Common th a ∧ MoveSpec th recs (.malloc true) [] a := by
  have hpcok := hok.pc
  rw [hpc] at hpcok
  obtain ⟨hloop, hc, hrest, hdel⟩ := LoopOk.after hpcok
  obtain rfl := Option.some.inj ha
  have hf : (Pc.release (.loop rest (c :: del)) c true).focus = some (c, .deleting) := by
    simp [Pc.focus, Site.focus]
  have hok' : LoopOk th.csList rest (c :: del) := by
    refine ⟨?_, fun r hr => ?_⟩
    · exact (List.perm_middle.nodup_iff).mpr hpcok.1
    · exact hpcok.2 (by simpa [or_left_comm] using hr)
  refine ⟨.single hok hpc rfl hf ⟨hok', hc, hrest⟩ rfl rfl nofun,
    .read .deleting hpc rfl (fun _ => focus_ne hf) (pstage_focus hf) (fun r hr => ?_) rfl
      (fun _ _ => .rfl) nofun fun G cv => .inl rfl⟩
  simp [Pc.base, Pc.lists, hr]

theorem loopNext_spec {rest del : List RecId} (hok : th.Ok) (hpc : th.pc = .loopNext c rest del)
    (ha : (goto th [c] (.loop rest del)).act = some a) :
    Common th a ∧ MoveSpec th recs .go [c] a := by
  have hpcok := hok.pc
  rw [hpc] at hpcok
  obtain ⟨hloop, hc, hrest⟩ := hpcok
  obtain rfl := Option.some.inj ha
  exact ⟨.plain hok hpc nofun hloop rfl rfl nofun,
    .read _ hpc rfl nofun (by simp [Thread.pstage, Pc.focus, Pc.base, Pc.lists, hc, hrest])
      (fun _ _ => rfl) rfl (fun _ _ => .rfl)
      (live_touched hpc rfl (live_ite ⟨rfl, nofun⟩ ⟨rfl, nofun⟩) nofun (by simp))
      fun G cv => .inl rfl⟩

theorem delete_nil_spec (hok : th.Ok) (hpc : th.pc = .delete [])
    (ha : (goto th [] .dead).act = some a) :
    Common th a ∧ MoveSpec th recs .go [] a := by
  obtain rfl := Option.some.inj ha
  refine ⟨.plain hok hpc nofun trivial rfl rfl nofun,
    .quiet ⟨rfl, .inl (by simp [Thread.cview, hpc, Pc.cstage]), fun r => ?_, nofun⟩⟩
  -- What is left in the list was dropped.
  by_cases hr : r ∈ th.csList
  · right
    simp [Thread.pstage, hpc, Pc.focus, Pc.base, Pc.lists, hr]
  · left
    simp [Thread.pstage, hpc, Pc.focus, hr]

theorem delete_cons_spec {del : List RecId} (hok : th.Ok) (hpc : th.pc = .delete (c :: del))
    (ha : (listRemove th c (.delFree c del)).act = some a) :
    Common th a ∧ MoveSpec th recs .go (c :: neighbours c th.csList) a := by
  have hpcok := hok.pc
  rw [hpc] at hpcok
  obtain ⟨hnd, hsub⟩ := hpcok
  have hc : c ∈ th.csList := hsub (by simp)
  obtain ⟨hcd, hnd⟩ := List.nodup_cons.mp hnd
  obtain rfl := Option.some.inj ha
  refine ⟨.next hok hpc (hok.nodup.erase c) ⟨⟨hnd, fun r hr => ?_⟩, hok.nodup.not_mem_erase⟩ rfl rfl
    (fun r h => ?_) nofun, .quiet ⟨rfl, .inl ?_, fun r => .inl ?_, fun r h => ?_⟩⟩
  · have hne : r ≠ c := fun h => hcd (h ▸ hr)
    exact (List.mem_erase_of_ne hne).mpr (hsub (List.mem_cons_of_mem _ hr))
  · rcases h with h | ⟨st, h⟩
    · exact .inl (List.mem_of_mem_erase h)
    · cases h
      exact .inl hc
  · simp [Thread.cview, hpc, Pc.cstage]
  · by_cases hr : r = c
    · subst hr
      simp [Thread.pstage, hpc, Pc.focus, Pc.base, Pc.lists, hc]
    · simp [Thread.pstage, hpc, Pc.focus, Pc.base, Pc.lists, hr, List.mem_erase_of_ne hr]
  · have hr : r ∈ th.csList := by
      rcases List.mem_cons.mp h with rfl | h
      · exact hc
      · exact mem_neighbours h
    exact ⟨.inl hr, live_of_mem hr (by rw [hpc]; nofun) (by rw [hpc]; nofun)⟩

theorem delFree_spec {del : List RecId} (hok : th.Ok) (hpc : th.pc = .delFree c del)
    (ha : (freeRec th recs c (.delete del)).act = some a) :
    Common th a ∧ MoveSpec th recs .go [c] a := by
  have hpcok := hok.pc
  rw [hpc] at hpcok
  obtain rfl := Option.some.inj ha
  have hc : c ∉ th.csList := hpcok.2
  exact ⟨.plain hok hpc nofun hpcok.1 rfl rfl nofun,
    .store .gone hpc rfl ⟨rfl, nofun⟩ nofun nofun (by simp [Thread.pstage, Pc.focus, hc])
      (fun _ => rfl) rfl rfl rfl fun G cv hG => .inr (.delete rfl (hG rfl))⟩

end

/-- **What a statement can do**: an action of the parent or of the child of one
record, or none. -/
theorem move_spec {t : Tid} {th : Thread} {recs : RecId → Rec} {ch : Choice} {m : Move} {a : Act}
    (hok : th.Ok) (htid : ∀ i c tid, th.pc = .init i c tid → tid = (recs c).childTid)
    (h : move t th recs th.pc ch = some m) (ha : m.act = some a) :
    Common th a ∧ MoveSpec th recs ch m.touched a := by
  generalize hpc : th.pc = pc at h
  unfold move at h
  split at h
  -- load
  · obtain rfl := Option.some.inj h
    exact load_spec hok hpc (Option.some.inj ha).symm
  -- storeErr
  · obtain rfl := Option.some.inj h
    exact storeErr_spec hok hpc ha
  -- ack
  · obtain rfl := Option.some.inj h
    rw [up_touched]
    exact ack_spec hok hpc ha
  -- wait
  · obtain rfl := Option.some.inj h
    exact user_wait_spec hok hpc ha
  -- exit
  · split at h
    · obtain rfl := Option.some.inj h
      cases ha
    · next c hpar =>
      obtain rfl := Option.some.inj h
      exact user_exit_spec hok hpc hpar (Option.some.inj ha).symm
  -- kill
  · obtain rfl := Option.some.inj h
    exact user_kill_spec hok hpc (Option.some.inj ha).symm
  -- init
  · next i c tid =>
    obtain rfl := Option.some.inj h
    exact init_spec hok hpc (htid i c tid hpc) ha
  -- execDown
  · obtain rfl := Option.some.inj h
    rw [down_touched]
    exact execDown_spec hok hpc ha
  -- readPid
  · obtain rfl := Option.some.inj h
    exact readPid_spec hok hpc ha
  -- execRemove
  · obtain rfl := Option.some.inj h
    exact execRemove_spec hok hpc ha
  -- execFree
  · obtain rfl := Option.some.inj h
    exact execFree_spec hok hpc ha
  -- execReturn
  · obtain rfl := Option.some.inj h
    exact execReturn_spec hok hpc ha
  -- scan
  · exact scan_nil_spec (t := t) hok hpc h ha
  · exact scan_nil_spec (t := t) hok hpc h ha
  · obtain rfl := Option.some.inj h
    exact scan_cons_spec hok hpc ha
  -- scanNext
  · obtain rfl := Option.some.inj h
    exact scanNext_spec hok hpc ha
  -- acquire
  · split at h
    · obtain rfl := Option.some.inj h
      cases ha
    · obtain rfl := Option.some.inj h
      rw [down_touched]
      exact acquire_spec hok hpc ha
  -- hold
  · obtain rfl := Option.some.inj h
    exact hold_spec hok hpc ha
  -- dec
  · obtain rfl := Option.some.inj h
    exact dec_spec hok hpc ha
  -- test
  · obtain rfl := Option.some.inj h
    exact test_spec hok hpc ha
  -- release
  · split at h
    · obtain rfl := Option.some.inj h
      exact release_spec hok hpc ha
    · obtain rfl := Option.some.inj h
      cases ha
  -- releaseUp
  · obtain rfl := Option.some.inj h
    rw [up_touched]
    exact releaseUp_spec hok hpc ha
  -- waitDown
  · obtain rfl := Option.some.inj h
    rw [down_touched]
    exact waitDown_spec hok hpc ha
  -- waitRead
  · obtain rfl := Option.some.inj h
    exact waitRead_spec hok hpc ha
  -- waitRemove
  · obtain rfl := Option.some.inj h
    exact waitRemove_spec hok hpc ha
  · obtain rfl := Option.some.inj h
    cases ha
  -- waitFree
  · obtain rfl := Option.some.inj h
    exact waitFree_spec hok hpc ha
  -- waitReturn
  · obtain rfl := Option.some.inj h
    exact waitReturn_spec hok hpc ha
  -- exitBegin
  · exact exitBegin_spec (t := t) hok hpc (by unfold move; exact h) ha
  -- exitUp
  · obtain rfl := Option.some.inj h
    rw [up_touched]
    exact exitUp_spec hok hpc ha
  -- exitFree
  · obtain rfl := Option.some.inj h
    exact exitFree_spec hok hpc ha
  -- loop
  · obtain rfl := Option.some.inj h
    exact loop_nil_spec hok hpc ha
  · obtain rfl := Option.some.inj h
    exact loop_cons_spec hok hpc ha
  -- enlist
  · next ok =>
    cases ok with
    | true =>
      obtain rfl := Option.some.inj h
      exact enlist_spec hok hpc ha
    | false =>
      obtain rfl := Option.some.inj h
      cases ha
  -- loopNext
  · obtain rfl := Option.some.inj h
    exact loopNext_spec hok hpc ha
  -- delete
  · obtain rfl := Option.some.inj h
    exact delete_nil_spec hok hpc ha
  · obtain rfl := Option.some.inj h
    exact delete_cons_spec hok hpc ha
  -- delFree
  · obtain rfl := Option.some.inj h
    exact delFree_spec hok hpc ha
  · cases h

end Pintos.Userprog
