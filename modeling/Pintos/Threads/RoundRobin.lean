import Pintos.Threads.Scheduler

/-!
# Time slices (threads/thread.c)

`thread_tick` lets a thread run for at most four ticks while others are ready, and the ready list is
served from the front: how long a thread waits there is bounded by its place.
-/

namespace Pintos.Threads

open Pintos.Base

/-- Less than `timeSlice` ticks are ever counted. -/
def Sliced (k : Kernel) : Prop := k.threadTicks < timeSlice

/-- The thread is on the ready list, and for at most `n` more ticks. -/
structure Waits (t : Tid) (n : Nat) (k : Kernel) : Prop where
  place : ∃ before behind, k.readyList = before ++ t :: behind ∧
    timeSlice * before.length + (timeSlice - k.threadTicks) ≤ n
  sliced : Sliced k

section

variable {k k₁ k' : Kernel} {t u : Tid} {n m : Nat} {a : SchedOp} {x : SemaId}

theorem scheduleTail_some {prev : Option Tid} (h : k.scheduleTail prev = some k') :
    k'.cur = k.cur ∧ k'.readyList = k.readyList ∧ k'.threadTicks = 0 := by
  unfold Kernel.scheduleTail at h
  cases prev with
  | none =>
    obtain rfl := Option.some.inj h
    exact ⟨rfl, rfl, rfl⟩
  | some p =>
    simp only at h
    split at h
    · obtain ⟨-, h⟩ := Option.ite_none_left_eq_some.mp h
      obtain rfl := Option.some.inj h
      exact ⟨rfl, rfl, rfl⟩
    · obtain rfl := Option.some.inj h
      exact ⟨rfl, rfl, rfl⟩

/-- What `schedule` does to the ready list and the ticks. -/
theorem schedule_some (h : k.schedule = some k') :
    k'.threadTicks = 0 ∧ ∀ next ready, k.readyList = next :: ready → k'.cur = next ∧ k'.readyList = ready := by
  unfold Kernel.schedule at h
  split at h
  · cases h
  · next next ready hn =>
    obtain ⟨-, h⟩ := Option.ite_none_left_eq_some.mp h
    obtain ⟨hcur, hready, hticks⟩ := scheduleTail_some h
    refine ⟨hticks, fun next' ready' hl => ?_⟩
    unfold Kernel.nextThreadToRun at hn
    rw [hl] at hn
    obtain ⟨h₁, h₂⟩ := Prod.mk.inj hn
    exact ⟨hcur.trans (Option.some.inj h₁).symm, hready.trans h₂.symm⟩

theorem Waits.mono (h : Waits t n k) (hn : n ≤ m) : Waits t m k := by
  obtain ⟨before, behind, hl, hp⟩ := h.place
  exact ⟨⟨before, behind, hl, hp.trans hn⟩, h.sliced⟩

/-- Threads that become ready go behind it. -/
theorem Waits.append (h : Waits t n k) {l : List Tid} (hl : k'.readyList = k.readyList ++ l)
    (ht : k'.threadTicks = k.threadTicks) : Waits t n k' := by
  obtain ⟨before, behind, he, hp⟩ := h.place
  refine ⟨⟨before, behind ++ l, ?_, by rwa [ht]⟩, ?_⟩
  · rw [hl, he, List.append_assoc, List.cons_append]
  · rw [Sliced, ht]
    exact h.sliced

/-- A switch takes the first of the ready list, with a new time slice. -/
theorem Waits.schedule (h : Waits t n k) {l : List Tid} (hl : k₁.readyList = k.readyList ++ l)
    (hs : k₁.schedule = some k') : k'.cur = t ∨ Waits t (n - 1) k' := by
  obtain ⟨before, behind, he, hp⟩ := h.place
  obtain ⟨hticks, hnext⟩ := schedule_some hs
  have hsl := h.sliced
  rw [he, List.append_assoc] at hl
  cases before with
  | nil => exact .inl (hnext _ _ hl).1
  | cons u before =>
    refine .inr ⟨⟨before, behind ++ l, (hnext _ _ hl).2, ?_⟩, ?_⟩
    · rw [hticks]
      rw [List.length_cons] at hp
      unfold Sliced timeSlice at *
      omega
    · rw [Sliced, hticks]
      decide

/-- An operation other than a tick: new threads behind, a switch, or neither. -/
inductive Moves (k k' : Kernel) : Prop where
  | stays (l : List Tid) (ready : k'.readyList = k.readyList ++ l) (ticks : k'.threadTicks = k.threadTicks)
  | switches (k₁ : Kernel) (l : List Tid) (ready : k₁.readyList = k.readyList ++ l)
      (schedule : k₁.schedule = some k')

theorem Moves.refl (k : Kernel) : Moves k k := .stays [] (List.append_nil _).symm rfl

theorem Moves.of_eq (h : Moves k₁ k') (hl : k₁.readyList = k.readyList)
    (ht : k₁.threadTicks = k.threadTicks) : Moves k k' := by
  cases h with
  | stays l ready ticks => exact .stays l (hl ▸ ready) (ht ▸ ticks)
  | switches k₂ l ready schedule => exact .switches k₂ l (hl ▸ ready) schedule

theorem threadBlock_moves (h : k.threadBlock = some k') : Moves k k' :=
  .switches (k.setStatus k.cur .blocked) [] (List.append_nil _).symm h

theorem threadUnblock_moves (h : k.threadUnblock t = some k') : Moves k k' := by
  obtain ⟨-, h⟩ := Option.ite_none_right_eq_some.mp h
  obtain rfl := Option.some.inj h
  exact .stays [t] rfl rfl

theorem threadYield_moves (h : k.threadYield = some k') : ∃ (k₁ : Kernel) (l : List Tid),
    k₁.readyList = k.readyList ++ l ∧ k₁.schedule = some k' := by
  unfold Kernel.threadYield at h
  simp only at h
  split at h
  · exact ⟨k.setStatus k.cur .ready, [], (List.append_nil _).symm, h⟩
  · exact ⟨{ k with readyList := k.readyList ++ [k.cur] }.setStatus k.cur .ready, [k.cur], rfl, h⟩

theorem threadExit_moves (h : k.threadExit = some k') : Moves k k' := by
  unfold Kernel.threadExit at h
  exact .switches (Kernel.setStatus { k with exited := k.exited ++ [k.cur] } k.cur .dying) []
    (List.append_nil k.readyList).symm h

theorem semaTest_moves (h : k.semaTest x = some k') : Moves k k' := by
  unfold Kernel.semaTest at h
  split at h
  · obtain rfl := Option.some.inj h
    exact .stays [] (List.append_nil _).symm rfl
  · next s _ => exact (threadBlock_moves h).of_eq rfl rfl
  · cases h

theorem semaUp_moves (h : k.semaUp x = some k') : Moves k k' := by
  unfold Kernel.semaUp at h
  split at h
  · exact (threadUnblock_moves h).of_eq rfl rfl
  · obtain rfl := Option.some.inj h
    exact .stays [] (List.append_nil _).symm rfl
  · cases h

theorem advance_moves {c : Cont} (h : k.advance c = some k') : Moves k k' := by
  unfold Kernel.advance at h
  split at h
  · exact semaTest_moves h
  · exact semaTest_moves h
  · obtain rfl := Option.some.inj h
    exact .stays [] (List.append_nil _).symm rfl
  · exact (semaUp_moves h).of_eq rfl rfl
  · exact (threadBlock_moves h).of_eq rfl rfl
  · obtain rfl := Option.some.inj h
    exact .stays [] (List.append_nil _).symm rfl
  · cases h
  · cases h

/-- Every operation but the tick. -/
theorem schedStep_moves (ha : a ≠ .tick) (h : schedStep k a = some k') : Moves k k' := by
  unfold schedStep at h
  cases a with
  | tick => exact absurd rfl ha
  | unblock t => exact threadUnblock_moves (Option.ite_none_right_eq_some.mp h).2
  | up x => exact semaUp_moves (Option.ite_none_right_eq_some.mp h).2
  | yield =>
    obtain ⟨k₁, l, hl, hs⟩ := threadYield_moves (Option.ite_none_right_eq_some.mp h).2
    exact .switches k₁ l hl hs
  | block => exact threadBlock_moves (Option.ite_none_right_eq_some.mp h).2
  | exit =>
    exact threadExit_moves (Option.ite_none_right_eq_some.mp h).2
  | create page =>
    obtain rfl := Option.some.inj (Option.ite_none_right_eq_some.mp h).2
    cases page
    · exact .refl k
    · exact .stays [] (List.append_nil _).symm rfl
  | createEnd =>
    have h := (Option.ite_none_right_eq_some.mp h).2
    split at h
    · exact (threadUnblock_moves h).of_eq rfl rfl
    · cases h
  | down x => exact semaTest_moves (Option.ite_none_right_eq_some.mp h).2
  | advance => exact advance_moves h

theorem threadTick_cases (h : k.threadTick = some k') :
    (∃ (k₁ : Kernel) (l : List Tid), k₁.readyList = k.readyList ++ l ∧ k₁.schedule = some k') ∨
      k.threadTicks + 1 < timeSlice ∧ k' = { k with threadTicks := k.threadTicks + 1 } := by
  unfold Kernel.threadTick at h
  simp only at h
  split at h
  · exact .inl (threadYield_moves (k := { k with threadTicks := k.threadTicks + 1 }) h)
  · next hlt => exact .inr ⟨Nat.lt_of_not_le hlt, (Option.some.inj h).symm⟩

/-- **A step**: the thread runs, or waits on, after a tick for one less. -/
theorem Waits.step (h : Waits t n k) (hs : schedStep k a = some k') :
    k'.cur = t ∨ Waits t (if a = .tick then n - 1 else n) k' := by
  by_cases ha : a = .tick
  · subst ha
    rw [if_pos rfl]
    rcases threadTick_cases (Option.ite_none_right_eq_some.mp hs).2 with ⟨k₁, l, hl, hs⟩ | ⟨hlt, rfl⟩
    · exact h.schedule hl hs
    · obtain ⟨before, behind, he, hp⟩ := h.place
      refine .inr ⟨⟨before, behind, he, ?_⟩, hlt⟩
      show timeSlice * before.length + (timeSlice - (k.threadTicks + 1)) ≤ n - 1
      omega
  · rw [if_neg ha]
    cases schedStep_moves ha hs with
    | stays l ready ticks => exact .inr (h.append ready ticks)
    | switches k₁ l ready schedule =>
      exact (h.schedule ready schedule).imp_right fun h => h.mono (Nat.sub_le ..)

theorem Sliced.step (h : Sliced k) (hs : schedStep k a = some k') : Sliced k' := by
  unfold Sliced at *
  by_cases ha : a = .tick
  · subst ha
    rcases threadTick_cases (Option.ite_none_right_eq_some.mp hs).2 with ⟨k₁, l, -, hs⟩ | ⟨hlt, rfl⟩
    · rw [(schedule_some hs).1]
      decide
    · exact hlt
  · cases schedStep_moves ha hs with
    | stays l ready ticks => rwa [ticks]
    | switches k₁ l ready schedule =>
      rw [(schedule_some schedule).1]
      decide

theorem sliced_of_reach {v : SemaId → Nat} {ok : Kernel → SchedOp → Prop}
    (h : Reach schedStep ok (bootKernel v) k) : Sliced k := by
  have h₀ : Sliced (bootKernel v) := show 0 < timeSlice by decide
  exact h.invariant h₀ fun _ _ _ hI _ hs => Sliced.step hI hs

theorem Waits.run {as : List SchedOp} (h : Waits t n k) (hs : runFrom schedStep k as = some k')
    (hn : n ≤ as.count .tick) :
    ∃ bs cs k₁, as = bs ++ cs ∧ runFrom schedStep k bs = some k₁ ∧ k₁.cur = t := by
  induction as generalizing k n with
  | nil =>
    obtain ⟨before, behind, -, hp⟩ := h.place
    have hsl := h.sliced
    rw [List.count_nil] at hn
    unfold Sliced at hsl
    omega
  | cons a as ih =>
    obtain ⟨k₂, hk₂, hs⟩ := Option.bind_eq_some_iff.mp hs
    rcases h.step hk₂ with hcur | hwait
    · refine ⟨[a], as, k₂, rfl, ?_, hcur⟩
      show (schedStep k a).bind _ = some k₂
      rw [hk₂]
      rfl
    · obtain ⟨bs, cs, k₁, rfl, hbs, hcur⟩ := ih hwait hs (by
        rw [List.count_cons] at hn
        by_cases ha : a = .tick
        · rw [if_pos (beq_iff_eq.mpr ha)] at hn
          rw [if_pos ha]
          omega
        · rw [if_neg (mt beq_iff_eq.mp ha)] at hn
          rwa [if_neg ha])
      refine ⟨a :: bs, cs, k₁, rfl, ?_, hcur⟩
      show (schedStep k a).bind _ = some k₁
      rw [hk₂]
      exact hbs

/-- **Nobody starves**: whatever the threads and the interrupts do, a thread with `i` others before it
on the ready list runs before four times `i + 1` ticks have gone by, less those of the time slice that
is running. -/
theorem ready_thread_runs {v : SemaId → Nat} (h : Reach schedStep Proper (bootKernel v) k) {i : Nat}
    (hi : k.readyList[i]? = some t) {as : List SchedOp} (hs : runFrom schedStep k as = some k')
    (hn : timeSlice * (i + 1) ≤ k.threadTicks + as.count .tick) :
    ∃ bs cs k₁, as = bs ++ cs ∧ runFrom schedStep k bs = some k₁ ∧ k₁.cur = t := by
  have hsl := sliced_of_reach h
  obtain ⟨hlt, hget⟩ := List.getElem?_eq_some_iff.mp hi
  have hw : Waits t (timeSlice * i + (timeSlice - k.threadTicks)) k := by
    refine ⟨⟨k.readyList.take i, k.readyList.drop (i + 1), ?_, ?_⟩, hsl⟩
    · rw [← hget, List.getElem_cons_drop, List.take_append_drop]
    · rw [List.length_take_of_le (Nat.le_of_lt hlt)]
  refine hw.run hs ?_
  unfold Sliced timeSlice at *
  omega

/-- Two threads that never block: the second one waits for the first one's time slice. -/
def twoThreads : List SchedOp := startUp ++ [.create true, .createEnd]

theorem ready_thread_runs_example : ∃ k k', runFrom (guarded schedStep Proper) (bootKernel fun _ => 0)
      twoThreads = some k ∧ k.readyList = [3] ∧
    runFrom schedStep k [.tick, .tick, .tick, .tick] = some k' ∧
    ∃ bs cs k₁, [SchedOp.tick, .tick, .tick, .tick] = bs ++ cs ∧ runFrom schedStep k bs = some k₁ ∧
      k₁.cur = 3 := by
  refine ⟨_, _, rfl, rfl, rfl, ?_⟩
  exact ready_thread_runs (v := fun _ => 0) (reach_of_guarded twoThreads rfl) (i := 0) rfl rfl (by decide)

end

end Pintos.Threads
