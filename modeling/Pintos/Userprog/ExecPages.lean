import Pintos.Userprog.ExecHandshake

/-!
# The pages of `process_execute`

`process_execute` copies the command line to two pages. It frees both when it has read -1, because the
child could not load its executable; nobody frees them otherwise. `PageState` counts, beside a run of
the processes, what each call has obtained and how often it was freed.
-/

namespace Pintos.Userprog

open Pintos.Base Pintos.Threads

/-- A call of `process_execute` that the kernel has survived: its record, whether it got the pages
`fn_copy` and `fn_copy2`, and how often each of them was freed. -/
structure Call where
  cs : Option RecId
  page : Bool
  page2 : Bool
  freed : Nat
  freed2 : Nat
  deriving DecidableEq, Repr

structure PageState where
  st : State
  calls : List Call

def PageState.start : PageState := ⟨State.init, []⟩

/-- The two `palloc_get_page`. -/
def PageState.enter (s : PageState) (m : ExecEnv) (st : State) : PageState :=
  if st.fault = none then
    ⟨st, s.calls ++ [⟨if m.page then some s.st.nextRec else none, m.page, m.page2, 0, 0⟩]⟩
  else { s with st }

/-- The two `palloc_free_page` of the call on record `c`. -/
def PageState.freePages (s : PageState) (c : RecId) (st : State) : PageState :=
  ⟨st, s.calls.map fun k =>
    if k.cs = some c then { k with freed := k.freed + 1, freed2 := k.freed2 + 1 } else k⟩

/-- A statement at `pc`. The pages of a call that failed are freed on its way out. -/
def PageState.goOn (s : PageState) (pc : Pc) (st : State) : PageState :=
  match pc with
  | .execReturn (some c) v => if v = tidError then s.freePages c st else { s with st }
  | _ => { s with st }

/-- One statement of the processes. -/
def pageStep (s : PageState) (a : Label) : Option PageState :=
  (procStep s.st a).map fun st =>
    match a.choice.env? with
    | some m => s.enter m st
    | none => s.goOn (s.st.thread a.t).pc st

/-- The record of the call of `process_execute` that the thread is in. -/
def Pc.exec : Pc → Option RecId
  | .init _ c _ | .execDown c | .readPid c | .execRemove c | .execFree c => some c
  | .execReturn c _ => c
  | _ => none

/-- The call has returned, its child has exited, and the parent has collected it or exited. -/
def Call.Done (k : Call) (s : State) : Prop := ∀ c, k.cs = some c →
  (s.thread (s.recs c).owner).pc.exec ≠ some c ∧
    (∀ u, (s.recs c).child = some u → (s.thread u).pc = .dead) ∧
    (c ∉ (s.thread (s.recs c).owner).csList ∨ (s.thread (s.recs c).owner).pc = .dead)

/-- Each page that the call has obtained was freed exactly once. -/
def Call.Returned (k : Call) : Prop := k.freed = k.page.toNat ∧ k.freed2 = k.page2.toNat

/-- The call obtained no page, or its child could not load the executable. -/
def Call.Spared (k : Call) (s : State) : Prop :=
  match k.cs with
  | none => k.page2 = false
  | some c => ∃ u, (s.recs c).child = some u ∧ (s.thread u).success = some false

/-- The pages of the kernel pool that the calls have not given back. -/
def PageState.taken (s : PageState) : Int :=
  s.calls.foldr (fun k n => (k.page.toNat + k.page2.toNat - k.freed - k.freed2 : Int) + n) 0

/-- **The pages are conserved.** -/
structure PageState.Conserved (s : PageState) : Prop where
  once : ∀ k ∈ s.calls, k.freed ≤ k.page.toNat ∧ k.freed2 ≤ k.page2.toNat
  returned : ∀ k ∈ s.calls, k.Done s.st → k.Returned
  pool : (∀ k ∈ s.calls, k.Done s.st) → s.taken = 0

/-- What a step may be for that: a call has no page for `fn_copy2` when it has none for
`fn_copy`, and no executable is loaded. -/
def Sparing (s : PageState) (a : Label) : Prop :=
  Prompt s.st a ∧ (match a.choice with
    | .exec m => m.page || !m.page2
    | .load ok => !ok
    | _ => true) = true

instance (s : PageState) (a : Label) : Decidable (Sparing s a) := inferInstanceAs (Decidable (_ ∧ _ = true))

/-! ## Statements -/

/-- What a statement does to the calls: it goes on in one or returns from it. -/
structure ExecStep (th : Thread) (ch : Choice) (a : Act) : Prop where
  exec : a.th.pc.exec = th.pc.exec ∨ (∃ c v, th.pc = .execReturn c v) ∧ a.th.pc = .user
  success : a.th.success = th.success ∨ ∃ c b, th.pc = .load c ∧ ch = .load b ∧ a.th.success = some b
  load : ∀ c, a.th.pc ≠ .load c

section

variable {t : Tid} {th : Thread} {recs : RecId → Rec} {ch : Choice} {m : Move} {a : Act}

/-- A statement inside a call, or outside of all. -/
theorem ExecStep.stay {th' : Thread} {w : Option (RecId × Rec)} {o : Option Tid}
    (he : th'.pc.exec = th.pc.exec) (hs : th'.success = th.success) (hl : ∀ c, th'.pc ≠ .load c) :
    ExecStep th ch ⟨th', w, o⟩ := ⟨.inl he, .inl hs, hl⟩

theorem ExecStep.ups {th' : Thread} {c : RecId} {sema : Semaphore} {put : Semaphore → Rec}
    (ha : (up th' c sema put).act = some a) (he : th'.pc.exec = th.pc.exec)
    (hs : th'.success = th.success) (hl : ∀ c, th'.pc ≠ .load c) : ExecStep th ch a := by
  obtain ⟨ws, -, rfl⟩ := up_act ha
  exact .stay he hs hl

theorem ExecStep.downs {c : RecId} {sema : Semaphore} {put : Semaphore → Rec} {pc : Pc}
    (ha : (down t th c sema put pc).act = some a) (he : pc.exec = th.pc.exec)
    (hl : ∀ c, pc ≠ .load c) (hth : ∀ c, th.pc ≠ .load c) : ExecStep th ch a := by
  obtain ⟨-, rfl⟩ | ⟨-, ws, -, rfl⟩ := down_act ha
  · exact .stay he rfl hl
  · exact .stay rfl rfl hth

/-- `cs_lock` is not used inside a call. -/
theorem Site.outside (k : Site) (c : RecId) (b : Bool) (n : Int) :
    ((k.body c).exec = none ∧ ∀ d, k.body c ≠ .load d) ∧
      ((k.tested c n).exec = none ∧ ∀ d, k.tested c n ≠ .load d) ∧
      (k.after c b).exec = none ∧ ∀ d, k.after c b ≠ .load d := by
  cases k with
  | wait x found => cases b <;> simp [Site.body, Site.tested, Site.after, Pc.exec]
  | child => cases b <;> simp [Site.body, Site.tested, Site.after, Pc.exec]
  | loop rest del => 
    by_cases hn : n = 0 <;> simp [Site.body, Site.tested, Site.after, Pc.exec, hn]

theorem exec_step (h : move t th recs th.pc ch = some m) (ha : m.act = some a) : ExecStep th ch a := by
  generalize hpc : th.pc = pc at h
  unfold move at h
  split at h
  -- load
  case h_1 c ok =>
    obtain rfl := Option.some.inj h
    obtain rfl := Option.some.inj ha
    refine ⟨.inl ?_, .inr ⟨c, ok, hpc, rfl, rfl⟩, ?_⟩
    · rw [hpc]
      cases ok <;> rfl
    · cases ok <;> simp
  -- ack
  case h_3 =>
    obtain rfl := Option.some.inj h
    refine .ups ha ?_ ?_ ?_
    · rw [hpc]
      split <;> rfl
    · split <;> rfl
    · split <;> simp
  -- exit
  case h_5 =>
    split at h
    · obtain rfl := Option.some.inj h
      cases ha
    · obtain rfl := Option.some.inj h
      obtain rfl := Option.some.inj ha
      exact .stay (by rw [hpc]; rfl) rfl (by simp)
  -- init
  case h_7 i c tid =>
    obtain rfl := Option.some.inj h
    cases i <;> obtain rfl := Option.some.inj ha <;> exact .stay (by rw [hpc]; rfl) rfl (by simp)
  -- execDown, waitDown
  case h_8 | h_23 =>
    obtain rfl := Option.some.inj h
    exact .downs ha (by rw [hpc]; rfl) (by simp) (by simp [hpc])
  -- readPid
  case h_9 =>
    obtain rfl := Option.some.inj h
    obtain rfl := Option.some.inj ha
    refine .stay ?_ rfl ?_
    · rw [hpc]
      dsimp only
      split <;> rfl
    · dsimp only
      split <;> simp
  -- execReturn
  case h_12 c v =>
    obtain rfl := Option.some.inj h
    obtain rfl := Option.some.inj ha
    exact ⟨.inr ⟨⟨c, v, hpc⟩, rfl⟩, .inl rfl, by simp⟩
  -- scan
  case h_15 =>
    obtain rfl := Option.some.inj h
    obtain rfl := Option.some.inj ha
    refine .stay ?_ rfl ?_
    · rw [hpc]
      dsimp only
      split <;> rfl
    · dsimp only
      split <;> simp
  -- acquire
  case h_17 =>
    split at h
    · obtain rfl := Option.some.inj h
      cases ha
    · obtain rfl := Option.some.inj h
      exact .downs ha (by rw [hpc]; rfl) (by simp) (by simp [hpc])
  -- hold, test
  case h_18 k c =>
    obtain rfl := Option.some.inj h
    obtain rfl := Option.some.inj ha
    obtain ⟨⟨he, hl⟩, -⟩ := k.outside c true 0
    exact .stay (by rw [hpc]; exact he) rfl hl
  case h_20 k c =>
    obtain rfl := Option.some.inj h
    obtain rfl := Option.some.inj ha
    obtain ⟨-, ⟨he, hl⟩, -⟩ := k.outside c true (recs c).refCnt
    exact .stay (by rw [hpc]; exact he) rfl hl
  -- release
  case h_21 =>
    split at h
    · obtain rfl := Option.some.inj h
      obtain rfl := Option.some.inj ha
      exact .stay (by rw [hpc]; rfl) rfl (by simp)
    · obtain rfl := Option.some.inj h
      cases ha
  case h_22 k c b =>
    obtain rfl := Option.some.inj h
    obtain ⟨-, -, he, hl⟩ := k.outside c b 0
    exact .ups ha (by rw [hpc]; exact he) rfl hl
  -- exitBegin
  case h_29 =>
    split at h <;>
    · obtain rfl := Option.some.inj h
      obtain rfl := Option.some.inj ha
      exact .stay (by rw [hpc]; rfl) rfl (by simp)
  -- exitUp
  case h_30 =>
    obtain rfl := Option.some.inj h
    exact .ups ha (by rw [hpc]; rfl) rfl (by simp)
  -- enlist
  case h_34 ok =>
    cases ok with
    | true =>
      obtain rfl := Option.some.inj h
      obtain rfl := Option.some.inj ha
      exact .stay (by rw [hpc]; rfl) rfl (by simp)
    | false =>
      obtain rfl := Option.some.inj h
      cases ha
  all_goals first
    | obtain rfl := Option.some.inj h
      obtain rfl := Option.some.inj ha
      exact .stay (by rw [hpc]; rfl) rfl (by simp)
    | obtain rfl := Option.some.inj h
      cases ha
    | cases h

end

/-! ## What a call has freed -/

/-- The pages of the call on record `c` were freed `n` times: never while the call runs, and after it
once if the child could not load. -/
structure CallPages (s : State) (c : RecId) (n : Nat) : Prop where
  old : c < s.nextRec
  inside : (s.thread (s.recs c).owner).pc.exec = some c → n = 0
  outside : (s.thread (s.recs c).owner).pc.exec ≠ some c → ∃ u b, (s.recs c).child = some u ∧
    (s.thread u).success = some b ∧ n = if b then 0 else 1

/-- `success` has no value before `load` returns. -/
def Loading (s : State) : Prop := ∀ t c, (s.thread t).pc = .load c → (s.thread t).success = none

section

variable {s : State} {t : Tid} {a : Act} {c : RecId} {n : Nat} {ch : Choice} {m : Move}

theorem focus_of_exec {pc : Pc} (h : pc.exec = some c) : ∃ st, pc.focus = some (c, st) := by
  cases pc with
  | init i d tid =>
    cases h
    cases i <;> exact ⟨_, rfl⟩
  | execDown d | readPid d | execRemove d | execFree d =>
    cases h
    exact ⟨_, rfl⟩
  | execReturn d v =>
    cases h
    exact ⟨_, rfl⟩
  | _ => cases h

theorem put_exec_of_ne {u : Tid} (hu : u ≠ t) : ((s.put t a).thread u).pc = (s.thread u).pc := by
  obtain ⟨b, h⟩ := put_other (s := s) (a := a) hu
  rw [h]

theorem put_exec : ((s.put t a).thread t).pc = a.th.pc := by
  obtain ⟨b, h⟩ := put_self (s := s) (t := t) (a := a)
  rw [h]

/-- What `load` has said stays. -/
theorem Loading.success {u : Tid} {b : Bool} (hl : Loading s) (hstep : ExecStep (s.thread t) ch a)
    (h : (s.thread u).success = some b) : ((s.put t a).thread u).success = some b := by
  by_cases hu : u = t
  · subst hu
    obtain ⟨b', he⟩ := put_self (s := s) (t := u) (a := a)
    rw [he]
    rcases hstep.success with hs | ⟨c, b', hc, -⟩
    · exact hs.trans h
    · rw [hl u c hc] at h
      cases h
  · obtain ⟨b', he⟩ := put_other (s := s) (a := a) hu
    rw [he]
    exact h

theorem Loading.put (hl : Loading s) (hstep : ExecStep (s.thread t) ch a) : Loading (s.put t a) := by
  intro u c hc
  by_cases hu : u = t
  · subst hu
    rw [put_exec] at hc
    exact absurd hc (hstep.load c)
  · obtain ⟨b, he⟩ := put_other (s := s) (a := a) hu
    rw [he] at hc ⊢
    exact hl u c hc

/-- A statement that is not the return of the call. -/
theorem CallPages.put (h : CallPages s c n) (hl : Loading s) (hstep : ExecStep (s.thread t) ch a)
    (hrec : ∀ r, ((s.put t a).recs r).owner = (s.recs r).owner ∧
      ((s.put t a).recs r).child = (s.recs r).child)
    (hret : ∀ v, (s.thread t).pc ≠ .execReturn (some c) v) : CallPages (s.put t a) c n := by
  have hexec : ((s.put t a).thread (s.recs c).owner).pc.exec = some c ↔
      (s.thread (s.recs c).owner).pc.exec = some c := by
    by_cases ho : (s.recs c).owner = t
    · rw [ho, put_exec]
      rcases hstep.exec with he | ⟨⟨d, v, hd⟩, he⟩
      · rw [he]
      · rw [he, hd]
        have hdc : d ≠ some c := fun hdc => hret v (hdc ▸ hd)
        simp [Pc.exec, hdc]
    · rw [put_exec_of_ne ho]
  refine ⟨h.old, fun hin => ?_, fun hout => ?_⟩
  · rw [(hrec c).1, hexec] at hin
    exact h.inside hin
  · rw [(hrec c).1, ne_eq, hexec] at hout
    obtain ⟨u, b, hu, hb, hn⟩ := h.outside hout
    exact ⟨u, b, (hrec c).2.trans hu, hl.success hstep hb, hn⟩

/-- The return of the call. -/
theorem CallPages.leave {v : Int} (h : CallPages s c n) (hwf : WF s) (hs : Handshake s) (hl : Loading s)
    (hstep : ExecStep (s.thread t) ch a)
    (hrec : ∀ r, ((s.put t a).recs r).owner = (s.recs r).owner ∧
      ((s.put t a).recs r).child = (s.recs r).child)
    (hpc : (s.thread t).pc = .execReturn (some c) v) (huser : a.th.pc = .user) :
    CallPages (s.put t a) c (if v = tidError then n + 1 else n) := by
  have hexec : (s.thread t).pc.exec = some c := by
    rw [hpc]
    rfl
  obtain ⟨st, hf⟩ := focus_of_exec hexec
  have ho := (hwf.holds t c (holds_of_focus hf)).2
  have hn := h.inside (by rw [ho]; exact hexec)
  refine ⟨h.old, fun hin => ?_, fun _ => ?_⟩
  · rw [(hrec c).1, ho, put_exec, huser] at hin
    cases hin
  · obtain ⟨u, hu, ⟨hok, hv⟩ | ⟨hok, hv⟩⟩ := hs.1 t c v hpc
    · refine ⟨u, true, (hrec c).2.trans hu, hl.success hstep hok, ?_⟩
      have hne : v ≠ tidError := by
        rw [hv, tidError]
        omega
      rw [if_neg hne, hn]
      rfl
    · exact ⟨u, false, (hrec c).2.trans hu, hl.success hstep hok, by rw [if_pos hv, hn]; rfl⟩

/-- A new child. -/
theorem CallPages.spawn {g : Garbage} (h : CallPages s c n) (hwf : WF s) (hpc : (s.thread t).pc = .user) :
    CallPages (s.spawn t g (some s.nextTid)) c n := by
  have hlive : t < s.nextTid := hwf.live (by rw [hpc]; simp)
  have hold : (s.spawn t g (some s.nextTid)).recs c = s.recs c := spawn_old h.old
  have hnew : ∀ u, u < s.nextTid → some s.nextTid ≠ some u := fun u hu he =>
    Nat.ne_of_gt hu (Option.some.inj he)
  have hsucc : ∀ u, u < s.nextTid →
      ((s.spawn t g (some s.nextTid)).thread u).success = (s.thread u).success := by
    intro u hu
    by_cases hut : u = t
    · subst hut
      rw [spawn_self]
    · rw [spawn_other hut (hnew u hu)]
  have hexec : ∀ u, u < s.nextTid →
      (((s.spawn t g (some s.nextTid)).thread u).pc.exec = some c ↔
        (s.thread u).pc.exec = some c) := by
    intro u hu
    by_cases hut : u = t
    · subst hut
      rw [spawn_self, hpc]
      simp only [Pc.exec, Option.some.injEq, reduceCtorEq, iff_false]
      exact (Nat.ne_of_lt h.old).symm
    · rw [spawn_other hut (hnew u hu)]
  have hown := hwf.owner c h.old
  refine ⟨Nat.lt_succ_of_lt h.old, fun hin => ?_, fun hout => ?_⟩
  · rw [hold, hexec _ hown] at hin
    exact h.inside hin
  · rw [hold, ne_eq, hexec _ hown] at hout
    obtain ⟨u, b, hu, hb, hn⟩ := h.outside hout
    refine ⟨u, b, by rw [hold]; exact hu, ?_, hn⟩
    rw [hsucc u (hwf.child c u h.old hu).2.2]
    exact hb

end

/-! ## Runs -/

/-- The calls of a state. -/
structure PageInv (s : PageState) : Prop where
  loading : Loading s.st
  early : ∀ k ∈ s.calls, k.cs = none → k.page = false ∧ k.freed = 0 ∧ k.freed2 = 0
  call : ∀ k ∈ s.calls, ∀ c, k.cs = some c →
    k.page = true ∧ k.page2 = true ∧ k.freed2 = k.freed ∧ CallPages s.st c k.freed

theorem processExecute_pages (s : State) (t : Tid) {m : ExecEnv} (ht : m.thread = true) :
    m.page = false ∧
      processExecute s t m = s.put t ⟨{ s.thread t with pc := .execReturn none tidError }, none, none⟩ ∨
    processExecute s t m = s.fail .panic ∨
    m.page = true ∧ m.page2 = true ∧ ∃ g, processExecute s t m = s.spawn t g (some s.nextTid) := by
  unfold processExecute
  dsimp only
  split
  next hp => exact .inl ⟨by simpa using hp, rfl⟩
  next hp =>
  split
  · exact .inr (.inl rfl)
  next h2 =>
  split
  · exact .inr (.inl rfl)
  next g _ =>
  rw [if_neg (by simp [ht])]
  split
  · exact .inr (.inl rfl)
  · exact .inr (.inr ⟨by simpa using hp, by simpa using h2, g, rfl⟩)

section

variable {s s' : PageState} {a : Label} {ch : Choice}

theorem PageInv.start : PageInv .start := by
  refine ⟨fun t c _ => ?_, fun k hk => (by cases hk), fun k hk => (by cases hk)⟩
  show (State.init.thread t).success = none
  rcases init_thread t with he | ⟨he, -⟩ <;> rw [he] <;> rfl

theorem CallPages.fail {st : State} {c : RecId} {n : Nat} (h : CallPages st c n) (e : Fault) :
    CallPages (st.fail e) c n := ⟨h.old, h.inside, h.outside⟩

theorem PageInv.fail (hi : PageInv s) (e : Fault) : PageInv { s with st := s.st.fail e } := by
  refine ⟨hi.loading, hi.early, fun k hk c hc => ?_⟩
  obtain ⟨hp, hp2, hf, hok⟩ := hi.call k hk c hc
  exact ⟨hp, hp2, hf, hok.fail e⟩

/-- A statement that does not return from a call. -/
theorem PageInv.put (hi : PageInv s) {t : Tid} {act : Act} (hstep : ExecStep (s.st.thread t) ch act)
    (hrec : ∀ r, ((s.st.put t act).recs r).owner = (s.st.recs r).owner ∧
      ((s.st.put t act).recs r).child = (s.st.recs r).child)
    (hret : ∀ c v, (s.st.thread t).pc ≠ .execReturn (some c) v) :
    PageInv { s with st := s.st.put t act } := by
  refine ⟨hi.loading.put hstep, hi.early, fun k hk c hc => ?_⟩
  obtain ⟨hp, hp2, hf, hok⟩ := hi.call k hk c hc
  exact ⟨hp, hp2, hf, hok.put hi.loading hstep hrec (hret c)⟩

/-- A call is added that has freed nothing. -/
theorem PageInv.append (hi : PageInv s) {k : Call} (hfreed : k.freed = 0 ∧ k.freed2 = 0)
    (hearly : k.cs = none → k.page = false)
    (hcall : ∀ c, k.cs = some c → k.page = true ∧ k.page2 = true ∧ CallPages s.st c 0) :
    PageInv ⟨s.st, s.calls ++ [k]⟩ := by
  refine ⟨hi.loading, fun k' hk hc => ?_, fun k' hk c hc => ?_⟩
  · rcases List.mem_append.mp hk with hk | hk
    · exact hi.early k' hk hc
    · rw [List.mem_singleton.mp hk] at hc ⊢
      exact ⟨hearly hc, hfreed⟩
  · rcases List.mem_append.mp hk with hk | hk
    · exact hi.call k' hk c hc
    · rw [List.mem_singleton.mp hk] at hc ⊢
      obtain ⟨hp, hp2, hok⟩ := hcall c hc
      refine ⟨hp, hp2, hfreed.2.trans hfreed.1.symm, ?_⟩
      rw [hfreed.1]
      exact hok

/-- `process_execute` is called. -/
theorem PageInv.enter (hi : PageInv s) (hwf : WF s.st) {t : Tid} {m : ExecEnv} (ht : m.thread = true)
    (hpc : (s.st.thread t).pc = .user) (hf : s.st.fault = none) :
    PageInv (s.enter m (processExecute s.st t m)) := by
  rcases processExecute_pages s.st t ht with ⟨hp, he⟩ | he | ⟨hp, hp2, g, he⟩ <;> rw [he]
  · let act : Act := ⟨{ s.st.thread t with pc := .execReturn none tidError }, none, none⟩
    have hstep : ExecStep (s.st.thread t) .go act := .stay (by rw [hpc]; rfl) rfl (by simp)
    have hput : PageInv { s with st := s.st.put t act } := hi.put hstep (fun _ => ⟨rfl, rfl⟩) (by simp [hpc])
    rw [PageState.enter, if_pos (show (s.st.put t _).fault = none from hf), hp]
    exact hput.append ⟨rfl, rfl⟩ (fun _ => rfl) fun c hc => (by cases hc)
  · rw [PageState.enter, if_neg (by simp [State.fail])]
    exact hi.fail .panic
  · have hlive : t < s.st.nextTid := hwf.live (by rw [hpc]; simp)
    have hspawn : PageInv { s with st := s.st.spawn t g (some s.st.nextTid) } := by
      refine ⟨fun u c hc => ?_, hi.early, fun k hk c hc => ?_⟩
      · by_cases hut : u = t
        · subst hut
          simp only [spawn_self, reduceCtorEq] at hc
        · by_cases hu : u = s.st.nextTid
          · subst hu
            simp only [spawn_child hut]
          · have hne : some s.st.nextTid ≠ some u := fun h => hu (Option.some.inj h).symm
            simp only [spawn_other hut hne] at hc ⊢
            exact hi.loading u c hc
      · obtain ⟨hp, hp2, hf, hok⟩ := hi.call k hk c hc
        exact ⟨hp, hp2, hf, hok.spawn hwf hpc⟩
    rw [PageState.enter, if_pos (show (s.st.spawn t g _).fault = none from hf), hp, hp2, if_pos rfl]
    refine hspawn.append ⟨rfl, rfl⟩ (fun hc => (by cases hc)) fun c hc => ⟨rfl, rfl, ?_⟩
    cases hc
    refine ⟨Nat.lt_succ_self _, fun _ => rfl, fun hout => absurd ?_ hout⟩
    simp only [spawn_new, Garbage.toRec, spawn_self]
    rfl

/-- A call returns. -/
theorem PageInv.leave (hi : PageInv s) (hwf : WF s.st) (hs : Handshake s.st) {t : Tid} {act : Act}
    {c : RecId} {v : Int} (hstep : ExecStep (s.st.thread t) ch act)
    (hrec : ∀ r, ((s.st.put t act).recs r).owner = (s.st.recs r).owner ∧
      ((s.st.put t act).recs r).child = (s.st.recs r).child)
    (hpc : (s.st.thread t).pc = .execReturn (some c) v) (huser : act.th.pc = .user) :
    PageInv (if v = tidError then s.freePages c (s.st.put t act)
      else { s with st := s.st.put t act }) := by
  have hother : ∀ d n, d ≠ c → CallPages s.st d n → CallPages (s.st.put t act) d n := fun d n hd hok =>
    hok.put hi.loading hstep hrec fun w hw => hd (by
      rw [hpc] at hw
      exact (Option.some.inj (Pc.execReturn.inj hw).1).symm)
  have hthis : ∀ n, CallPages s.st c n → CallPages (s.st.put t act) c (if v = tidError then n + 1 else n) :=
    fun n hok => hok.leave hwf hs hi.loading hstep hrec hpc huser
  by_cases hv : v = tidError
  · rw [if_pos hv]
    simp only [if_pos hv] at hthis
    refine ⟨hi.loading.put hstep, List.forall_mem_map.mpr fun k hk hnone => ?_,
      List.forall_mem_map.mpr fun k hk d hd => ?_⟩
    · by_cases hc : k.cs = some c
      · rw [if_pos hc] at hnone
        cases hc.symm.trans hnone
      · rw [if_neg hc] at hnone ⊢
        exact hi.early k hk hnone
    · by_cases hc : k.cs = some c
      · rw [if_pos hc] at hd ⊢
        obtain rfl : c = d := Option.some.inj (hc.symm.trans hd)
        obtain ⟨hp, hp2, hf, hok⟩ := hi.call k hk c hc
        exact ⟨hp, hp2, congrArg (· + 1) hf, hthis k.freed hok⟩
      · rw [if_neg hc] at hd ⊢
        obtain ⟨hp, hp2, hf, hok⟩ := hi.call k hk d hd
        exact ⟨hp, hp2, hf, hother d k.freed (fun he => hc (he ▸ hd)) hok⟩
  · rw [if_neg hv]
    simp only [if_neg hv] at hthis
    refine ⟨hi.loading.put hstep, hi.early, fun k hk d hd => ?_⟩
    obtain ⟨hp, hp2, hf, hok⟩ := hi.call k hk d hd
    by_cases hc : d = c
    · subst hc
      exact ⟨hp, hp2, hf, hthis k.freed hok⟩
    · exact ⟨hp, hp2, hf, hother d k.freed hc hok⟩

/-- `process_execute` is no single statement. -/
theorem move_exec {t : Tid} {th : Thread} {recs : RecId → Rec} {pc : Pc} {m : ExecEnv} :
    move t th recs pc (.exec m) = none := by
  cases pc with
  | scan x cs rest => cases cs <;> cases rest <;> rfl
  | waitRemove x found c v => cases found <;> rfl
  | loop rest del => cases rest <;> rfl
  | delete del => cases del <;> rfl
  | _ => rfl

theorem goOn_stay {pc : Pc} {st : State} (h : ∀ c v, pc ≠ .execReturn (some c) v) :
    s.goOn pc st = { s with st } := by
  unfold PageState.goOn
  split
  · next c v => exact absurd rfl (h c v)
  · rfl

/-- A statement of a process. -/
theorem PageInv.goOn (hi : PageInv s) (hwf : WF s.st) (hs : Handshake s.st) {t : Tid} {m : Move}
    (hm : move t (s.st.thread t) s.st.recs (s.st.thread t).pc ch = some m) :
    PageInv (s.goOn (s.st.thread t).pc (s.st.apply t m)) := by
  have hput : ∀ act, m.act = some act → ExecStep (s.st.thread t) ch act ∧
      ∀ r, ((s.st.put t act).recs r).owner = (s.st.recs r).owner ∧
        ((s.st.put t act).recs r).child = (s.st.recs r).child := fun act ha =>
    ⟨exec_step hm ha, (move_spec (hwf.ok t) (hwf.tid t) hm ha).2.history⟩
  by_cases hpc : ∃ c v, (s.st.thread t).pc = .execReturn (some c) v
  · obtain ⟨c, v, hpc⟩ := hpc
    have hgo : m = goto (s.st.thread t) [] .user := by
      rw [hpc] at hm
      cases ch with
      | go => exact (Option.some.inj hm).symm
      | _ => cases hm
    subst hgo
    obtain ⟨hstep, hrec⟩ := hput _ rfl
    have hleave := hi.leave hwf hs hstep hrec hpc rfl
    rw [hpc]
    exact hleave
  · rw [goOn_stay fun c v h => hpc ⟨c, v, h⟩]
    rcases apply_cases s.st t m with ⟨-, he⟩ | ⟨-, ⟨-, he⟩ | ⟨act, ha, he⟩⟩ <;> rw [he]
    · exact hi.fail _
    · exact hi.fail _
    · obtain ⟨hstep, hrec⟩ := hput act ha
      exact hi.put hstep hrec fun c v h => hpc ⟨c, v, h⟩

theorem PageInv.step (hi : PageInv s) (hwf : WF s.st) (hs : Handshake s.st) (hG : Prompt s.st a)
    (h : pageStep s a = some s') : PageInv s' := by
  obtain ⟨st, hst, rfl⟩ := Option.map_eq_some_iff.mp h
  obtain ⟨hf, hb, hcases⟩ := procStep_cases hst
  cases he : a.choice.env? with
  | some m =>
    have hch : a.choice = .exec m := by
      generalize a.choice = ch at he
      cases ch <;> cases he
      rfl
    rcases hcases with ⟨m', hm', hpc, rfl⟩ | ⟨m', hm', -⟩
    · obtain rfl : m = m' := by
        rw [hch] at hm'
        cases hm'
        rfl
      refine hi.enter hwf ?_ hpc hf
      rw [Prompt, hpc, hch] at hG
      exact hG
    · rw [hch, move_exec] at hm'
      cases hm'
  | none =>
    rcases hcases with ⟨m', hm', -⟩ | ⟨m', hm', rfl⟩
    · rw [hm'] at he
      cases he
    · exact hi.goOn hwf hs hm'

/-- The pages are counted beside the run. -/
theorem pageStep_st (h : pageStep s a = some s') : procStep s.st a = some s'.st := by
  obtain ⟨st, hst, rfl⟩ := Option.map_eq_some_iff.mp h
  rw [hst]
  apply congrArg some
  split
  · unfold PageState.enter
    split <;> rfl
  · unfold PageState.goOn
    split
    · split <;> rfl
    · rfl

/-- Nothing was loaded, and no call has the second page alone. -/
structure SpareInv (s : PageState) : Prop where
  success : ∀ t, (s.st.thread t).success ≠ some true
  early : ∀ k ∈ s.calls, k.cs = none → k.page2 = false

theorem put_success {st : State} {t u : Tid} {act : Act} : ((st.put t act).thread u).success =
    if u = t then act.th.success else (st.thread u).success := by
  by_cases hu : u = t
  · subst hu
    obtain ⟨b, he⟩ := put_self (s := st) (t := u) (a := act)
    rw [he, if_pos rfl]
  · obtain ⟨b, he⟩ := put_other (s := st) (a := act) hu
    rw [he, if_neg hu]

theorem success_step {st st' : State} (h : ∀ t, (st.thread t).success ≠ some true)
    (hload : a.choice ≠ .load true) (hstep : procStep st a = some st') :
    ∀ t, (st'.thread t).success ≠ some true := by
  have hput : ∀ act, (act.th.success = (st.thread a.t).success ∨ act.th.success = some false) →
      ∀ t, ((st.put a.t act).thread t).success ≠ some true := by
    intro act hact t
    rw [put_success]
    split
    · rcases hact with hact | hact <;> rw [hact]
      · exact h a.t
      · simp
    · exact h t
  have hspawn : ∀ g child, ∀ t, ((st.spawn a.t g child).thread t).success ≠ some true := by
    intro g child t
    by_cases ht : t = a.t
    · subst ht
      rw [spawn_self]
      exact h a.t
    · by_cases hc : child = some t
      · subst hc
        rw [spawn_child ht]
        simp
      · rw [spawn_other ht hc]
        exact h t
  obtain ⟨-, -, ⟨m, -, -, rfl⟩ | ⟨m, hm, rfl⟩⟩ := procStep_cases hstep
  · rcases processExecute_cases st a.t m with he | he | ⟨g, ⟨-, he⟩ | ⟨-, he⟩⟩ <;> rw [he]
    · exact hput _ (.inl rfl)
    · exact h
    · exact hspawn g _
    · exact hspawn g _
  · rcases apply_cases st a.t m with ⟨-, he⟩ | ⟨-, ⟨-, he⟩ | ⟨act, ha, he⟩⟩ <;> rw [he]
    · exact h
    · exact h
    · apply hput act
      rcases (exec_step hm ha).success with hs | ⟨c, b, -, hb, hs⟩
      · exact .inl hs
      · cases b with
        | true => exact absurd hb hload
        | false => exact .inr hs

theorem SpareInv.step (hi : SpareInv s) (hG : Sparing s a) (h : pageStep s a = some s') : SpareInv s' := by
  obtain ⟨-, hG⟩ := hG
  have hload : a.choice ≠ .load true := by
    intro hch
    rw [hch] at hG
    cases hG
  refine ⟨success_step hi.success hload (pageStep_st h), ?_⟩
  obtain ⟨st, -, rfl⟩ := Option.map_eq_some_iff.mp h
  cases he : a.choice.env? with
  | some m =>
    have hch : a.choice = .exec m := by
      generalize a.choice = ch at he
      cases ch <;> cases he
      rfl
    rw [hch] at hG
    show ∀ k ∈ (s.enter m st).calls, _
    unfold PageState.enter
    split
    · intro k hk hc
      rcases List.mem_append.mp hk with hk | hk
      · exact hi.early k hk hc
      · rw [List.mem_singleton.mp hk] at hc ⊢
        cases hp : m.page with
        | true =>
          rw [hp] at hc
          cases hc
        | false =>
          have hor : (m.page || !m.page2) = true := hG
          rw [hp] at hor
          simpa using hor
    · exact hi.early
  | none =>
    show ∀ k ∈ (s.goOn (s.st.thread a.t).pc st).calls, _
    unfold PageState.goOn
    split
    · split
      · refine List.forall_mem_map.mpr fun k hk hc => ?_
        split at hc <;> split
        · exact hi.early k hk hc
        · exact hi.early k hk hc
        · exact hi.early k hk hc
        · exact hi.early k hk hc
      · exact hi.early
    · exact hi.early

theorem PageInv.once (hi : PageInv s) {k : Call} (hk : k ∈ s.calls) :
    k.freed ≤ k.page.toNat ∧ k.freed2 ≤ k.page2.toNat := by
  cases hc : k.cs with
  | none =>
    obtain ⟨hp, hf, hf2⟩ := hi.early k hk hc
    rw [hf, hf2]
    exact ⟨Nat.zero_le _, Nat.zero_le _⟩
  | some c =>
    obtain ⟨hp, hp2, hf, hok⟩ := hi.call k hk c hc
    have hle : k.freed ≤ 1 := by
      by_cases hin : (s.st.thread (s.st.recs c).owner).pc.exec = some c
      · rw [hok.inside hin]
        exact Nat.zero_le 1
      · obtain ⟨u, b, -, -, hn⟩ := hok.outside hin
        rw [hn]
        cases b <;> decide
    rw [hf, hp, hp2]
    exact ⟨hle, hle⟩

end

/-- **The common path.** The initial thread executes a program and waits for it: nobody frees the pages. -/
theorem loaded_pages_leak : ¬ ∀ s, Reach pageStep Free .start s → s.Conserved := by
  intro h
  have hrun : Reach pageStep Free .start _ := reach_of_run
    (⟨1, execOk zeroed⟩ :: goes 1 7 ++ ⟨3, .load true⟩ :: goes 3 1 ++ goes 1 3 ++
      ⟨1, .wait 3⟩ :: ⟨3, .exit 7⟩ :: goes 3 10 ++ goes 1 9) rfl
  have hret := (h _ hrun).returned ⟨some 0, true, true, 0, 0⟩ (List.mem_singleton.mpr rfl) ?_
  · cases hret.1
  · rintro c hc
    cases hc
    refine ⟨by nofun, fun u hu => ?_, .inl (by nofun)⟩
    cases hu
    rfl

end Pintos.Userprog
