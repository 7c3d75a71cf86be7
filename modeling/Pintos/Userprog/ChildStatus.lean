import Pintos.Userprog.ProcessRefine

/-!
# Ownership of `child_status`

The parent and the child share the record and either may free it. No statement
touches a freed record, and a record both are through with was freed once, in every
run that frees outside the windows of `Quiet`. Inside a window the code goes wrong:
after its `ref_cnt--` the child still releases the lock and ups the semaphore, and
after a failed load it still runs `process_exit`; a parent in the loops of
`process_exit` still walks the list.
-/

namespace Pintos.Userprog

open Pintos.Base Pintos.Threads

/-! ## What a statement touches -/

/-- The thread may touch the record: as a parent that has neither freed nor left it,
or as a child that is not through with it. -/
def MayTouch (th : Thread) (r : RecId) : Prop :=
  th.Holds r ∧ (th.pstage r).Live ∨ th.csParent = some r ∧ th.pc.cstage ≠ .done

section

variable {t : Tid} {th : Thread} {recs : RecId → Rec} {c : RecId} {ch : Choice} {m : Move}

theorem MoveSpec.mayTouch {touched : List RecId} {a : Act}
    (h : MoveSpec th recs ch touched a) : ∀ r ∈ touched, MayTouch th r := by
  cases h with
  | parent c h => exact fun r hr => .inl (h.touched r hr)
  | child c h => exact fun r hr => .inr ⟨h.touched r hr ▸ h.csParent, h.busy⟩
  | quiet h => exact fun r hr => .inl (h.touched r hr)

theorem mayTouch_focus {pc : Pc} {st : PStage} (hpc : th.pc = pc) (hf : pc.focus = some (c, st))
    (hst : st.Live) : ∀ r ∈ [c], MayTouch th r := by
  subst hpc
  intro r hr
  obtain rfl := List.mem_singleton.mp hr
  exact .inl ⟨holds_of_focus hf, live_of_focus hf hst⟩

theorem mayTouch_child (hp : th.csParent = some c) (hc : th.pc.cstage ≠ .done) :
    ∀ r ∈ [c], MayTouch th r := by
  intro r hr
  obtain rfl := List.mem_singleton.mp hr
  exact .inr ⟨hp, hc⟩

theorem mayTouch_acquire {k : Site} (hok : th.Ok) (hpc : th.pc = .acquire k c) :
    ∀ r ∈ [c], MayTouch th r := by
  have hpcok := hok.pc
  rw [hpc] at hpcok
  cases k with
  | wait x found => exact mayTouch_focus hpc rfl ⟨rfl, nofun⟩
  | child => exact mayTouch_child hpcok (by rw [hpc]; nofun)
  | loop rest del => exact mayTouch_focus hpc rfl ⟨rfl, nofun⟩

theorem mayTouch_release {k : Site} {b : Bool} (hok : th.Ok)
    (hpc : th.pc = .release k c b ∨ th.pc = .releaseUp k c b) : ∀ r ∈ [c], MayTouch th r := by
  have hpcok := hok.pc
  have hfoc : th.pc.focus = k.focus c b := by rcases hpc with h | h <;> rw [h] <;> rfl
  cases k with
  | wait x found => exact mayTouch_focus rfl hfoc (live_ite ⟨rfl, nofun⟩ ⟨rfl, nofun⟩)
  | child =>
    refine mayTouch_child ?_ ?_
    · rcases hpc with h | h <;> rw [h] at hpcok <;> exact hpcok
    · rcases hpc with h | h <;> rw [h] <;> cases b <;> nofun
  | loop rest del => exact mayTouch_focus rfl hfoc (live_ite ⟨rfl, nofun⟩ ⟨rfl, nofun⟩)

/-- A statement that panics touches no more than it may. -/
theorem mayTouch_panic (hok : th.Ok) (h : move t th recs th.pc ch = some m)
    (ha : m.act = none) : ∀ r ∈ m.touched, MayTouch th r := by
  have hpcok := hok.pc
  generalize hpc : th.pc = pc at h hpcok
  unfold move at h
  split at h
  -- ack
  case h_3 =>
    obtain rfl := Option.some.inj h
    rw [up_touched]
    exact mayTouch_child hpcok (by rw [hpc]; nofun)
  -- exit
  case h_5 =>
    split at h
    · obtain rfl := Option.some.inj h
      nofun
    · obtain rfl := Option.some.inj h
      cases ha
  -- init
  case h_7 i c tid =>
    obtain rfl := Option.some.inj h
    cases i <;> cases ha
  -- execDown
  case h_8 =>
    obtain rfl := Option.some.inj h
    rw [down_touched]
    exact mayTouch_focus hpc rfl ⟨rfl, nofun⟩
  -- acquire
  case h_17 =>
    split at h
    · obtain rfl := Option.some.inj h
      exact mayTouch_acquire hok hpc
    · obtain rfl := Option.some.inj h
      rw [down_touched]
      exact mayTouch_acquire hok hpc
  -- release
  case h_21 =>
    split at h
    · obtain rfl := Option.some.inj h
      cases ha
    · obtain rfl := Option.some.inj h
      exact mayTouch_release hok (.inl hpc)
  case h_22 =>
    obtain rfl := Option.some.inj h
    rw [up_touched]
    exact mayTouch_release hok (.inr hpc)
  -- waitDown
  case h_23 =>
    obtain rfl := Option.some.inj h
    rw [down_touched]
    exact mayTouch_focus hpc rfl ⟨rfl, nofun⟩
  -- the end of the list
  case h_26 =>
    obtain rfl := Option.some.inj h
    nofun
  -- exitBegin
  case h_29 =>
    split at h <;>
    · obtain rfl := Option.some.inj h
      cases ha
  -- exitUp
  case h_30 =>
    obtain rfl := Option.some.inj h
    rw [up_touched]
    exact mayTouch_child hpcok (by rw [hpc]; nofun)
  -- enlist
  case h_34 ok =>
    cases ok with
    | true =>
      obtain rfl := Option.some.inj h
      cases ha
    | false =>
      obtain rfl := Option.some.inj h
      nofun
  all_goals first
    | obtain rfl := Option.some.inj h
      cases ha
    | cases h

end

theorem touched_alive {s : State} {t : Tid} {ch : Choice} {m : Move} (hwf : WF s)
    (howned : ∀ r < s.nextRec, Owned (s.view r))
    (h : move t (s.thread t) s.recs (s.thread t).pc ch = some m) :
    ∀ r ∈ m.touched, (s.recs r).freed = 0 := by
  intro r hr
  have hmay : MayTouch (s.thread t) r := by
    cases ha : m.act with
    | none => exact mayTouch_panic (hwf.ok t) h ha r hr
    | some a => exact (move_spec (hwf.ok t) (hwf.tid t) h ha).2.mayTouch r hr
  rcases hmay with ⟨hold, hlive⟩ | ⟨hpar, hbusy⟩
  · obtain ⟨hlt, ho⟩ := hwf.holds t r hold
    subst ho
    exact (howned r hlt).parent hlive.1 hlive.2
  · obtain ⟨hlt, hc⟩ := hwf.parent t r hpar
    have hcv : (s.view r).c = (s.thread t).pc.cstage := by
      show (s.cview r).c = _
      unfold State.cview
      rw [hc]
      rfl
    exact (howned r hlt).child (by rw [hcv]; exact hbusy)

theorem frees_le (p : PStage) (c : CStage) : frees p c ≤ 1 := by
  unfold frees
  split <;> decide

theorem owned_of_reach {s : State} (h : Reach procStep Quiet State.init s) :
    WF s ∧ ∀ r < s.nextRec, Owned (s.view r) := by
  obtain ⟨hwf, hI⟩ := view_invariant (I := Owned) (fun _ _ _ _ hf _ => hf.owned)
    (fun _ _ _ _ hq hg hi hp => hp.owned hq hg hi) h
  exact ⟨hwf, fun r hr => (hI r hr).2⟩

theorem no_use_after_free {s : State} (h : Reach procStep Quiet State.init s) :
    s.fault ≠ some .useAfterFree := by
  cases h with
  | refl => nofun
  | @next s s' a hreach hq hs =>
    obtain ⟨hwf, howned⟩ := owned_of_reach hreach
    obtain ⟨hf, -, ⟨m, -, -, rfl⟩ | ⟨m, hm, rfl⟩⟩ := procStep_cases hs
    · rcases processExecute_cases s a.t m with he | he | ⟨g, ⟨-, he⟩ | ⟨-, he⟩⟩ <;> rw [he]
      · exact fun h => nomatch hf.symm.trans h
      · nofun
      · exact fun h => nomatch hf.symm.trans h
      · exact fun h => nomatch hf.symm.trans h
    · rcases apply_cases s a.t m with ⟨⟨c, hc, hne⟩, -⟩ | ⟨-, ⟨-, he⟩ | ⟨act, -, he⟩⟩
      · exact absurd (touched_alive hwf howned hm c hc) hne
      · rw [he]
        nofun
      · rw [he]
        exact fun h => nomatch hf.symm.trans h

/-- **Ownership of `child_status`.** In every run whose frees avoid the windows of
`Quiet`: no statement touches a freed record, no record is freed twice, and a record
was freed exactly once when its parent and its child have both exited, when its
parent returns from `process_wait` for it, and ever after. -/
theorem child_status_ownership {s : State} (h : Reach procStep Quiet State.init s) :
    s.fault ≠ some .useAfterFree ∧
    (∀ r < s.nextRec, (s.recs r).freed ≤ 1) ∧
    (∀ r < s.nextRec, ∀ c, (s.recs r).child = some c →
      (s.thread (s.recs r).owner).pc = .dead → (s.thread c).pc = .dead →
      (s.recs r).freed = 1) ∧
    (∀ p x r v, (s.thread p).pc = .waitReturn x (some r) v → (s.recs r).freed = 1) ∧
    (∀ r < s.nextRec, ¬ (s.thread (s.recs r).owner).Holds r → (s.recs r).freed = 1) := by
  obtain ⟨hwf, howned⟩ := owned_of_reach h
  refine ⟨no_use_after_free h, fun r hr => ?_, fun r hr c hc hp hd => ?_, fun p x r v hpc => ?_,
    fun r hr hno => ?_⟩
  · exact Nat.le_trans (Nat.le_of_eq (howned r hr).freed) (frees_le _ _)
  · have hcv : (s.view r).c = .done := by
      show (s.cview r).c = _
      unfold State.cview
      rw [hc]
      show (s.thread c).pc.cstage = _
      rw [hd]
      rfl
    exact (howned r hr).freed_once (pstage_dead hp r) hcv
  · have hf : (s.thread p).pc.focus = some (r, .reaped v) := by rw [hpc]; rfl
    obtain ⟨hr, ho⟩ := hwf.holds p r (holds_of_focus hf)
    have := (howned r hr).freed
    subst ho
    rw [show (s.view r).p = .reaped v from pstage_focus hf] at this
    exact this
  · have hgone : (s.view r).p = .gone := by
      show (s.thread (s.recs r).owner).pstage r = _
      rw [pstage_rest fun st hst => hno (.inr ⟨st, hst⟩), if_neg fun hm => hno (.inl hm)]
    have := (howned r hr).freed
    rw [hgone] at this
    exact this

/-! ## Two runs -/

/-- `n` statements of thread `t`. -/
def goes (t : Tid) (n : Nat) : List Label := List.replicate n ⟨t, .go⟩

/-- A call of `process_execute` with every allocation granted. -/
def execOk (g : Garbage) : Choice := .exec ⟨true, true, true, some g, true, true⟩

/-- A block of zeros. -/
def zeroed : Garbage := ⟨0, 0, none, 0, false, 0, false⟩

/-- The initial thread executes a program, which exits with 7 and is waited for. -/
theorem child_status_ownership_collected : ∃ s, Reach procStep Quiet State.init s ∧
    (s.thread 1).pc = .waitReturn 3 (some 0) 7 ∧ (s.recs 0).freed = 1 := by
  have h : Reach procStep Quiet State.init _ := reach_of_guarded
    (⟨1, execOk zeroed⟩ :: goes 1 7 ++ ⟨3, .load true⟩ :: goes 3 1 ++ goes 1 3 ++
      ⟨1, .wait 3⟩ :: ⟨3, .exit 7⟩ :: goes 3 10 ++ goes 1 9) rfl
  exact ⟨_, h, rfl, (child_status_ownership h).2.2.2.1 1 3 0 7 rfl⟩

/-- **A failed load.** The parent frees the record of a child that could not be
loaded and still has `process_exit` to run. -/
theorem failed_load_use_after_free :
    ¬ ∀ s, Reach procStep Free State.init s → s.fault ≠ some .useAfterFree := by
  intro h
  have hrun : Reach procStep Free State.init _ := reach_of_run
    (⟨1, execOk zeroed⟩ :: goes 1 7 ++ ⟨3, .load false⟩ :: goes 3 2 ++ goes 1 4 ++ goes 3 2) rfl
  exact h _ hrun rfl

end Pintos.Userprog
