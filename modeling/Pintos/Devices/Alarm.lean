import Pintos.Devices.Timer

/-!
# Runs of the alarm clock

`Inv` is what every run keeps: a listed thread is inside `timer_sleep` with its
semaphore at zero, and the only thread that ever waits on a `sleep_sema` is its
owner. `wake_spec` says once what the loop of `timer_interrupt` does, and both
results below read it:

* `no_lost_wakeup`: as long as no interrupt wakes a thread that has not yet run
  `sema_init`, no wake-up is lost and no ASSERT fails;
* `orderly_iff_sameSign`: `sleep_list` stays ordered by deadline, and every
  interrupt removes exactly the threads that are due, precisely in the runs that
  never list deadlines of both signs, since `sleep_less` compares them unsigned.
-/

namespace Pintos.Devices.Timer

open Pintos.Base Pintos.Threads

/-! ## The loop of the interrupt handler -/

/-- A thread woken by the handler. -/
def rouse (x : Thread) : Thread :=
  { x with
    sleepSema := { value := (x.sleepSema.value + 1) % 2 ^ 32, waiters := some [] }
    pc := if x.pc = .asleep then .woken else x.pc }

/-- Nobody but `t` waits on the semaphore of `t`, and `t` does while it is asleep. -/
def OwnWaiter (t : Tid) (x : Thread) : Prop :=
  x.sleepSema.waiters = some (if x.pc = .asleep then [t] else []) ∨
    x.sleepSema.waiters = none ∧ x.pc ∉ [.down, .asleep, .woken]

theorem OwnWaiter.of_ne_none {t : Tid} {x : Thread} (h : OwnWaiter t x)
    (hn : x.sleepSema.waiters ≠ none) :
    x.sleepSema.waiters = some (if x.pc = .asleep then [t] else []) :=
  h.resolve_right fun h' => hn h'.1

/-- One iteration of the loop wakes the thread at the front and no other. -/
theorem rouse_of_semaUp {th : Tid → Thread} {t : Tid} {s' : Semaphore} {w : Option Tid}
    (ho : OwnWaiter t (th t)) (hu : semaUp (th t).sleepSema = some (s', w)) :
    unblock w (Function.update th t { th t with sleepSema := s' }) =
      Function.update th t (rouse (th t)) := by
  obtain ⟨ws, hws, rfl, rfl⟩ := semaUp_some hu
  have hown := ho.of_ne_none (by rw [hws]; simp)
  rw [hws, Option.some.injEq] at hown
  subst hown
  by_cases hp : (th t).pc = .asleep
  · simp [unblock, hp, rouse]
  · simp [unblock, hp, rouse]

/-- **The wake-up loop**: it rouses a prefix of due threads with initialised
semaphores, leaves the rest of the list and all other threads alone, and stops at
the end, at a thread that is not due, or at a due thread whose semaphore is not
initialised. -/
theorem wake_spec (now : Int) : ∀ {l : List Tid} (th : Tid → Thread), l.Nodup →
    (∀ t ∈ l, OwnWaiter t (th t)) →
    ∃ pre, l = pre ++ (wake now l th).1 ∧
      (∀ t ∈ pre, (th t).sleepUntil ≤ now ∧ (th t).sleepSema.waiters ≠ none) ∧
      (∀ u, (wake now l th).2.1 u = if u ∈ pre then rouse (th u) else th u) ∧
      (match (wake now l th).2.2, (wake now l th).1 with
        | false, [] => True
        | false, t :: _ => now < (th t).sleepUntil
        | true, [] => False
        | true, t :: _ => (th t).sleepUntil ≤ now ∧ (th t).sleepSema.waiters = none)
  | [], th, _, _ => ⟨[], by simp [wake]⟩
  | t :: l, th, hnd, ho => by
    obtain ⟨htl, hnd⟩ := List.nodup_cons.mp hnd
    unfold wake
    by_cases hd : now < (th t).sleepUntil
    · exact ⟨[], by simp [hd]⟩
    simp only [hd, ↓reduceIte]
    cases hu : semaUp (th t).sleepSema with
    | none => exact ⟨[], by simp [semaUp_none.mp hu]; omega⟩
    | some r =>
      obtain ⟨s', w⟩ := r
      simp only
      have hne : (th t).sleepSema.waiters ≠ none := by
        intro h
        rw [semaUp_none.mpr h] at hu
        cases hu
      rw [rouse_of_semaUp (ho t List.mem_cons_self) hu]
      -- The remaining threads are not `t`, so their states are those of `th`.
      have hother : ∀ u ∈ l, Function.update th t (rouse (th t)) u = th u := fun u hu =>
        Function.update_of_ne (show u ≠ t from fun e => htl (e ▸ hu)) _ _
      obtain ⟨pre, hl, hpre, hth, hend⟩ := wake_spec now (Function.update th t (rouse (th t)))
        hnd fun u hu => by rw [hother u hu]; exact ho u (List.mem_cons_of_mem _ hu)
      refine ⟨t :: pre, by rw [List.cons_append, ← hl], ?_, ?_, ?_⟩
      · intro u hu
        rcases List.mem_cons.mp hu with rfl | hu
        · exact ⟨by omega, hne⟩
        · rw [← hother u (by rw [hl]; exact List.mem_append_left _ hu)]
          exact hpre u hu
      · intro u
        rw [hth u]
        by_cases hut : u = t
        · subst hut
          have : u ∉ pre := fun h => htl (by rw [hl]; exact List.mem_append_left _ h)
          simp [this]
        · simp [hut]
      · revert hend
        have hmem : ∀ u ∈ (wake now l (Function.update th t (rouse (th t)))).1, u ∈ l := fun u hu =>
          by rw [hl]; exact List.mem_append_right _ hu
        split <;> intro hend
        · trivial
        · next u _ _ e => rw [hother u (hmem u (by rw [e]; simp))] at hend; exact hend
        · exact hend
        · next u _ _ e => rw [hother u (hmem u (by rw [e]; simp))] at hend; exact hend

/-! ## Steps -/

/-- Everything a step can do. -/
inductive Step (s : State) : Label → State → Prop where
  | sleep {t : Tid} {n : Int} (hpc : (s.thread t).pc = .out) (hn : InInt64 (n + s.ticks)) :
      Step s (.sleep t n) (setThread s t { s.thread t with pc := .store (n + s.ticks) })
  | store {t : Tid} {d : Int} (hpc : (s.thread t).pc = .store d) :
      Step s (.run t) (setThread s t { s.thread t with sleepUntil := d, pc := .insert })
  | insert {t : Tid} (hpc : (s.thread t).pc = .insert) :
      Step s (.run t) { setThread s t { s.thread t with pc := .semaValue } with
        sleepList := insertBy (sleepLess s.thread) t s.sleepList }
  | semaValue {t : Tid} (hpc : (s.thread t).pc = .semaValue) :
      Step s (.run t) (setThread s t { s.thread t with
        sleepSema := { (s.thread t).sleepSema with value := 0 }, pc := .semaList })
  | semaList {t : Tid} (hpc : (s.thread t).pc = .semaList) :
      Step s (.run t) (setThread s t { s.thread t with
        sleepSema := { (s.thread t).sleepSema with waiters := some [] }, pc := .down })
  | pass {t : Tid} (hpc : (s.thread t).pc = .down ∨ (s.thread t).pc = .woken)
      (hv : 0 < (s.thread t).sleepSema.value) :
      Step s (.run t) (setThread s t { s.thread t with
        sleepSema := { (s.thread t).sleepSema with value := (s.thread t).sleepSema.value - 1 }
        pc := .out })
  | block {t : Tid} {ws : List Tid} (hpc : (s.thread t).pc = .down ∨ (s.thread t).pc = .woken)
      (hv : (s.thread t).sleepSema.value = 0) (hw : (s.thread t).sleepSema.waiters = some ws) :
      Step s (.run t) (setThread s t { s.thread t with
        sleepSema := { (s.thread t).sleepSema with waiters := some (ws ++ [t]) }, pc := .asleep })
  | fault {t : Tid} (hpc : (s.thread t).pc = .down ∨ (s.thread t).pc = .woken)
      (hw : (s.thread t).sleepSema.waiters = none) :
      Step s (.run t) { s with panic := true }
  | tick : Step s .tick (timerInterrupt s)

theorem runThread_cases {s s' : State} {t : Tid} (h : runThread s t = some s') :
    Step s (.run t) s' := by
  unfold runThread at h
  cases hpc : (s.thread t).pc with
  | out => simp [hpc] at h
  | store d => simp only [hpc, Option.some.injEq] at h; subst h; exact .store hpc
  | insert => simp only [hpc, Option.some.injEq] at h; subst h; exact .insert hpc
  | semaValue => simp only [hpc, Option.some.injEq] at h; subst h; exact .semaValue hpc
  | semaList => simp only [hpc, Option.some.injEq] at h; subst h; exact .semaList hpc
  | asleep => simp [hpc] at h
  | down =>
    cases hr : semaDown (s.thread t).sleepSema t with
    | pass x =>
      simp only [hpc, hr, Option.some.injEq] at h
      obtain ⟨hv, rfl⟩ := semaDown_pass hr
      exact h ▸ .pass (.inl hpc) hv
    | block x =>
      simp only [hpc, hr, Option.some.injEq] at h
      obtain ⟨hv, ws, hw, rfl⟩ := semaDown_block hr
      exact h ▸ .block (.inl hpc) hv hw
    | fault =>
      simp only [hpc, hr, Option.some.injEq] at h
      exact h ▸ .fault (.inl hpc) (semaDown_fault hr).2
  | woken =>
    cases hr : semaDown (s.thread t).sleepSema t with
    | pass x =>
      simp only [hpc, hr, Option.some.injEq] at h
      obtain ⟨hv, rfl⟩ := semaDown_pass hr
      exact h ▸ .pass (.inr hpc) hv
    | block x =>
      simp only [hpc, hr, Option.some.injEq] at h
      obtain ⟨hv, ws, hw, rfl⟩ := semaDown_block hr
      exact h ▸ .block (.inr hpc) hv hw
    | fault =>
      simp only [hpc, hr, Option.some.injEq] at h
      exact h ▸ .fault (.inr hpc) (semaDown_fault hr).2

theorem step_cases {s s' : State} {a : Label} (h : step s a = some s') :
    s.panic = false ∧ Step s a s' := by
  unfold step at h
  split at h
  · cases h
  · next hp =>
    refine ⟨by simpa using hp, ?_⟩
    cases a with
    | sleep t n =>
      simp only at h
      split at h
      · next hc => cases h; exact .sleep hc.1 hc.2.2
      · cases h
    | run t => exact runThread_cases h
    | tick => cases h; exact .tick

/-! ## The invariant of every run -/

/-- The points of `timer_sleep` at which a thread may be listed. -/
def Pc.queued : Pc → Bool
  | .semaValue | .semaList | .down | .asleep => true
  | _ => false

/-- What thread `t` in state `x` keeps to, `listed` or not. -/
structure ThreadOk (t : Tid) (x : Thread) (listed : Prop) : Prop where
  own : OwnWaiter t x
  queued : listed → x.pc.queued = true
  zero : listed → x.pc ≠ .semaValue → x.sleepSema.value = 0
  listed64 : listed → InInt64 x.sleepUntil
  store64 : ∀ d, x.pc = .store d → InInt64 d
  insert64 : x.pc = .insert → InInt64 x.sleepUntil

structure Inv (s : State) : Prop where
  nodup : s.sleepList.Nodup
  thread : ∀ t, ThreadOk t (s.thread t) (t ∈ s.sleepList)

theorem inv_init : Inv init where
  nodup := List.nodup_nil
  thread t := by constructor <;> simp [init, OwnWaiter]

theorem Inv.setThread {s : State} (h : Inv s) {t : Tid} {x : Thread}
    (hx : ThreadOk t x (t ∈ s.sleepList)) : Inv (setThread s t x) where
  nodup := h.nodup
  thread u := by
    by_cases hu : u = t
    · subst hu; simpa [Timer.setThread] using hx
    · simpa [Timer.setThread, hu] using h.thread u

/-- A thread at a point where it cannot be listed is not listed. -/
theorem Inv.not_mem {s : State} (h : Inv s) {t : Tid} (hq : (s.thread t).pc.queued = false) :
    t ∉ s.sleepList := by
  intro hm
  rw [(h.thread t).queued hm] at hq
  cases hq

theorem rouse_ok {t : Tid} {x : Thread} (h : ThreadOk t x True) : ThreadOk t (rouse x) False where
  own := by
    left
    by_cases hp : x.pc = .asleep <;> simp [rouse, hp]
  queued := False.elim
  zero := False.elim
  listed64 := False.elim
  store64 d hd := by
    have hq := h.queued trivial
    by_cases hp : x.pc = .asleep <;> simp_all [rouse, Pc.queued]
  insert64 hi := by
    have hq := h.queued trivial
    by_cases hp : x.pc = .asleep <;> simp_all [rouse, Pc.queued]

theorem Inv.tick {s : State} (h : Inv s) : Inv (timerInterrupt s) := by
  obtain ⟨pre, hl, -, hth, -⟩ :=
    wake_spec (s.ticks + 1) s.thread h.nodup fun t _ => (h.thread t).own
  have hnd := h.nodup
  rw [hl, List.nodup_append] at hnd
  refine ⟨hnd.2.1, fun t => ?_⟩
  show ThreadOk t ((wake _ _ _).2.1 t) (t ∈ (wake _ _ _).1)
  rw [hth t]
  have hmem : t ∈ s.sleepList ↔ t ∈ pre ∨ t ∈ (wake (s.ticks + 1) s.sleepList s.thread).1 := by
    conv_lhs => rw [hl, List.mem_append]
  split
  · next hp =>
    have hn : t ∉ (wake (s.ticks + 1) s.sleepList s.thread).1 := fun h' => hnd.2.2 t hp t h' rfl
    have ht := h.thread t
    simp only [hmem, hp, true_or] at ht
    simpa only [hn] using rouse_ok ht
  · next hp => simpa only [hmem, hp, false_or] using h.thread t

theorem Inv.step {s s' : State} {a : Label} (h : Inv s) (hs : step s a = some s') : Inv s' := by
  obtain ⟨-, hs⟩ := step_cases hs
  have keep : ∀ {t : Tid} {x : Thread}, (s.thread t).pc.queued = false →
      ThreadOk t x False → Inv (Timer.setThread s t x) := fun hq hx =>
    h.setThread (by simpa only [h.not_mem hq] using hx)
  cases hs with
  | @sleep t n hpc hn =>
    refine keep (by simp [hpc, Pc.queued]) ⟨?_, False.elim, False.elim, False.elim, ?_, by simp⟩
    · have := (h.thread t).own; simp_all [OwnWaiter]
    · rintro d ⟨⟩; exact hn
  | @store t d hpc =>
    refine keep (by simp [hpc, Pc.queued]) ⟨?_, False.elim, False.elim, False.elim, by simp, ?_⟩
    · have := (h.thread t).own; simp_all [OwnWaiter]
    · exact fun _ => (h.thread t).store64 d hpc
  | @insert t hpc =>
    have hn := h.not_mem (t := t) (by simp [hpc, Pc.queued])
    refine ⟨nodup_insertBy hn h.nodup, fun u => ?_⟩
    simp only [Timer.setThread, mem_insertBy]
    by_cases hu : u = t
    · subst hu
      have ho := (h.thread u).own
      have hi := (h.thread u).insert64 hpc
      constructor <;> simp_all [OwnWaiter, Pc.queued]
    · simpa [hu] using h.thread u
  | @semaValue t hpc =>
    refine h.setThread ⟨?_, fun _ => rfl, fun _ _ => rfl, ?_, by simp, by simp⟩
    · have := (h.thread t).own; simp_all [OwnWaiter]
    · exact (h.thread t).listed64
  | @semaList t hpc =>
    refine h.setThread ⟨by simp [OwnWaiter], fun _ => rfl, ?_, ?_, by simp, by simp⟩
    · exact fun hl _ => (h.thread t).zero hl (by simp [hpc])
    · exact (h.thread t).listed64
  | @pass t hpc hv =>
    -- A thread that passes has a unit, so it has been taken off the list.
    have hn : t ∉ s.sleepList := by
      intro hl
      have := (h.thread t).zero hl (by rcases hpc with hpc | hpc <;> simp [hpc])
      omega
    refine h.setThread ⟨?_, fun hl => absurd hl hn, fun hl => absurd hl hn,
      fun hl => absurd hl hn, by simp, by simp⟩
    have := (h.thread t).own
    rcases hpc with hpc | hpc <;> simp_all [OwnWaiter]
  | @block t ws hpc hv hw =>
    refine h.setThread ⟨?_, fun _ => rfl, fun _ _ => hv, (h.thread t).listed64, by simp, by simp⟩
    have := (h.thread t).own
    rcases hpc with hpc | hpc <;> simp_all [OwnWaiter]
  | fault => exact ⟨h.nodup, h.thread⟩
  | tick => exact h.tick

theorem reach_inv {ok : State → Label → Prop} {s : State} (h : Reach step ok init s) : Inv s :=
  h.invariant inv_init fun _ _ _ hI _ hs => hI.step hs

/-- The threads the next interrupt finds due, up to the first that is not. -/
def due (s : State) : List Tid :=
  s.sleepList.takeWhile fun t => decide ((s.thread t).sleepUntil ≤ s.ticks + 1)

/-- **An interrupt** that completes has woken exactly the due prefix; one that
does not has met a due thread with an uninitialised semaphore. -/
theorem tick_spec {s : State} (h : Inv s) :
    ((timerInterrupt s).panic = false ∧
      (timerInterrupt s).sleepList =
        s.sleepList.dropWhile (fun t => decide ((s.thread t).sleepUntil ≤ s.ticks + 1)) ∧
      (∀ t ∈ due s, (s.thread t).sleepSema.waiters ≠ none) ∧
      ∀ t, (timerInterrupt s).thread t = if t ∈ due s then rouse (s.thread t) else s.thread t) ∨
    ((timerInterrupt s).panic = true ∧
      ∃ t ∈ due s, (s.thread t).sleepSema.waiters = none) := by
  obtain ⟨pre, hl, hpre, hth, hend⟩ :=
    wake_spec (s.ticks + 1) s.thread h.nodup fun t _ => (h.thread t).own
  have hdue : ∀ t ∈ pre, decide ((s.thread t).sleepUntil ≤ s.ticks + 1) = true := fun t ht =>
    decide_eq_true (hpre t ht).1
  revert hend
  split
  · next hp hr =>
    intro _
    rw [hr, List.append_nil] at hl
    left
    refine ⟨hp, ?_, ?_, ?_⟩
    · show (wake _ _ _).1 = _
      rw [hr, hl, List.dropWhile_eq_nil_iff.mpr hdue]
    · intro t ht
      exact (hpre t (by rw [← hl]; exact List.takeWhile_sublist _ |>.subset ht)).2
    · intro t
      rw [due, hl, List.takeWhile_eq_self_iff.mpr hdue]
      exact hth t
  · next u l hp hr =>
    intro hu
    rw [hr] at hl
    have hu : decide ((s.thread u).sleepUntil ≤ s.ticks + 1) = false := decide_eq_false (by omega)
    have htake : due s = pre := by
      rw [due, hl, List.takeWhile_append_of_pos hdue]
      simp [hu]
    left
    refine ⟨hp, ?_, ?_, ?_⟩
    · show (wake _ _ _).1 = _
      rw [hr, hl, List.dropWhile_append_of_pos hdue]
      simp [hu]
    · rw [htake]; exact fun t ht => (hpre t ht).2
    · rw [htake]; exact hth
  · exact False.elim
  · next u l hp hr =>
    rintro ⟨hu, hw⟩
    right
    refine ⟨hp, u, ?_, hw⟩
    rw [due, hl, hr, List.takeWhile_append_of_pos hdue]
    simp [hu]

/-! ## Wake-ups -/

/-- Past `list_insert_ordered` and not yet returned from `timer_sleep`. -/
def Pc.sleeping : Pc → Bool
  | .semaValue | .semaList | .down | .asleep | .woken => true
  | _ => false

/-- Every sleeper still has its wake-up ahead of it or pending. -/
def NoLostWakeup (s : State) : Prop :=
  ∀ t, (s.thread t).pc.sleeping = true →
    t ∈ s.sleepList ∨ (s.thread t).sleepSema.value = 1 ∨ (s.thread t).pc = .woken

/-- The interrupt finds no due thread in the window between the list insertion
and `sema_init`: each one has stored `value`, and the list of its semaphore is
initialised, be it by an earlier sleep. -/
def SemaReady (s : State) (a : Label) : Prop :=
  a = .tick → ∀ t ∈ due s, (s.thread t).pc ≠ .semaValue ∧
    ((s.thread t).pc = .semaList → (s.thread t).sleepSema.waiters ≠ none)

/-- The wake-up of a thread, by its place in `timer_sleep`. -/
def WakeupDue (x : Thread) (listed : Prop) : Prop :=
  match x.pc with
  | .semaValue | .asleep => listed
  | .semaList | .down => listed ∨ x.sleepSema.value = 1
  | .woken => x.sleepSema.value = 1
  | _ => True

theorem due_mem {s : State} {t : Tid} (h : t ∈ due s) : t ∈ s.sleepList :=
  (List.takeWhile_sublist _).subset h

/-- A due thread outside the window has an initialised semaphore. -/
theorem SemaReady.waiters {s : State} (hI : Inv s) (h : SemaReady s .tick) {t : Tid}
    (ht : t ∈ due s) : (s.thread t).sleepSema.waiters ≠ none := by
  obtain ⟨h1, h2⟩ := h rfl t ht
  have hq := (hI.thread t).queued (due_mem ht)
  rcases (hI.thread t).own with ho | ⟨-, ho⟩
  · simp [ho]
  · cases hpc : (s.thread t).pc <;> simp_all [Pc.queued]

theorem tick_wakeups {s : State} (hI : Inv s) (hok : SemaReady s .tick)
    (h : ∀ t, WakeupDue (s.thread t) (t ∈ s.sleepList)) :
    (timerInterrupt s).panic = false ∧
      ∀ t, WakeupDue ((timerInterrupt s).thread t) (t ∈ (timerInterrupt s).sleepList) := by
  rcases tick_spec hI with ⟨hp, hl, -, hth⟩ | ⟨-, t, ht, hw⟩
  · refine ⟨hp, fun t => ?_⟩
    rw [hth t, hl]
    by_cases hd : t ∈ due s
    · have hz := (hI.thread t).zero (due_mem hd) (hok rfl t hd).1
      have hq := (hI.thread t).queued (due_mem hd)
      have hne := (hok rfl t hd).1
      cases hpc : (s.thread t).pc <;> simp_all [WakeupDue, rouse, Pc.queued]
    · have hmem : t ∈ s.sleepList ↔ t ∈ s.sleepList.dropWhile
          (fun t => decide ((s.thread t).sleepUntil ≤ s.ticks + 1)) := by
        conv_lhs => rw [← List.takeWhile_append_dropWhile
          (p := fun t => decide ((s.thread t).sleepUntil ≤ s.ticks + 1)) (l := s.sleepList)]
        rw [List.mem_append]
        exact or_iff_right hd
      simpa only [hd, ↓reduceIte, ← hmem] using h t
  · exact absurd hw (hok.waiters hI ht)

theorem step_wakeups {s s' : State} {a : Label} (hI : Inv s) (hok : SemaReady s a)
    (h : ∀ t, WakeupDue (s.thread t) (t ∈ s.sleepList)) (hs : step s a = some s') :
    s'.panic = false ∧ ∀ t, WakeupDue (s'.thread t) (t ∈ s'.sleepList) := by
  obtain ⟨hp, hs⟩ := step_cases hs
  have keep : ∀ {t : Tid} {x : Thread}, WakeupDue x (t ∈ s.sleepList) →
      ∀ u, WakeupDue ((setThread s t x).thread u) (u ∈ s.sleepList) := by
    intro t x hx u
    by_cases hu : u = t
    · subst hu; simpa [setThread] using hx
    · simpa [setThread, hu] using h u
  cases hs with
  | sleep => exact ⟨hp, keep (by simp [WakeupDue])⟩
  | store => exact ⟨hp, keep (by simp [WakeupDue])⟩
  | @insert t hpc =>
    refine ⟨hp, fun u => ?_⟩
    by_cases hu : u = t
    · subst hu; simp [setThread, WakeupDue, mem_insertBy]
    · simpa [setThread, hu, mem_insertBy] using h u
  | @semaValue t hpc =>
    have := h t
    exact ⟨hp, keep (.inl (by simpa [WakeupDue, hpc] using this))⟩
  | @semaList t hpc =>
    have := h t
    exact ⟨hp, keep (by simpa [WakeupDue, hpc] using this)⟩
  | pass => exact ⟨hp, keep (by simp [WakeupDue])⟩
  | @block t ws hpc hv hw =>
    have := h t
    exact ⟨hp, keep (by rcases hpc with hpc | hpc <;> simp_all [WakeupDue])⟩
  | @fault t hpc hw =>
    have := (hI.thread t).own
    rcases hpc with hpc | hpc <;> simp_all [OwnWaiter]
  | tick => exact tick_wakeups hI hok h

theorem reach_wakeups {s : State} (h : Reach step SemaReady init s) :
    s.panic = false ∧ ∀ t, WakeupDue (s.thread t) (t ∈ s.sleepList) := by
  have := h.invariant (I := fun s => Inv s ∧ s.panic = false ∧
      ∀ t, WakeupDue (s.thread t) (t ∈ s.sleepList))
    ⟨inv_init, rfl, fun t => by simp [init, WakeupDue]⟩
    fun s a s' hI hok hs => ⟨hI.1.step hs, step_wakeups hI.1 hok hI.2.2 hs⟩
  exact this.2

/-- **No lost wake-up**, in runs whose interrupts find no due thread before its
`sema_init`: every sleeper is listed, has its unit or has been unblocked; every
`sema_up` of the handler is on an initialised semaphore; no ASSERT fails. -/
theorem no_lost_wakeup {s : State} (h : Reach step SemaReady init s) :
    NoLostWakeup s ∧ s.panic = false ∧
      (SemaReady s .tick → ∀ t ∈ due s, (s.thread t).sleepSema.waiters ≠ none) := by
  obtain ⟨hp, hw⟩ := reach_wakeups h
  refine ⟨fun t ht => ?_, hp, fun hok t => hok.waiters (reach_inv h)⟩
  have := hw t
  cases hpc : (s.thread t).pc <;> simp_all [WakeupDue, Pc.sleeping]

instance : ∀ s a, Decidable (SemaReady s a) := fun s a =>
  inferInstanceAs (Decidable (a = .tick → ∀ t ∈ due s, (s.thread t).pc ≠ .semaValue ∧
    ((s.thread t).pc = .semaList → (s.thread t).sleepSema.waiters ≠ none)))

/-- A thread asleep, woken by an interrupt and past its `sema_down`, then asleep again. -/
theorem no_lost_wakeup_second_sleep : ∃ s, Reach step SemaReady init s ∧
    (s.thread 1).pc = .asleep ∧ NoLostWakeup s ∧ s.panic = false ∧
      (SemaReady s .tick → ∀ t ∈ due s, (s.thread t).sleepSema.waiters ≠ none) := by
  have h : Reach step SemaReady init _ := reach_of_guarded
    [.sleep 1 1, .run 1, .run 1, .run 1, .run 1, .run 1, .tick, .run 1,
      .sleep 1 5, .run 1, .run 1, .run 1, .run 1, .run 1] rfl
  exact ⟨_, h, rfl, no_lost_wakeup h⟩

/-- **The window.** An interrupt between the insertion and `sema_init` of a first
sleep fails the ASSERT in `list_remove`; in a later sleep its unit is overwritten
by `sema_init`, and the thread sleeps for ever. -/
theorem lost_wakeup_in_window :
    (∃ s, Reach step Free init s ∧ s.panic = true) ∧
      ∃ s, Reach step Free init s ∧ (s.thread 1).pc = .asleep ∧ ¬ NoLostWakeup s := by
  constructor
  · exact ⟨_, reach_of_run [.sleep 1 0, .run 1, .run 1, .tick] rfl, rfl⟩
  · refine ⟨_, reach_of_run [.sleep 1 0, .run 1, .run 1, .run 1, .run 1, .tick, .run 1,
      .sleep 1 0, .run 1, .run 1, .tick, .run 1, .run 1, .run 1] rfl, rfl, fun h => ?_⟩
    have := h 1 rfl
    revert this
    decide

/-! ## Deadlines -/

/-- The deadline of a thread. -/
def deadline (s : State) (t : Tid) : Int := (s.thread t).sleepUntil

/-- What a step must leave: an ordered list, and after an interrupt exactly the
threads that are not due, in their order. -/
def Orderly (s : State) (a : Label) (s' : State) : Prop :=
  Ordered (deadline s') s'.sleepList ∧
    (a = .tick → s'.panic = false →
      s'.sleepList = s.sleepList.filter fun t => decide (s'.ticks < deadline s' t))

/-- A thread that inserts itself has a deadline of the same sign as all listed ones. -/
def SameSign (s : State) (a : Label) (_ : State) : Prop :=
  ∀ t, a = .run t → (s.thread t).pc = .insert →
    ∀ u ∈ s.sleepList, (deadline s u < 0 ↔ deadline s t < 0)

/-- On deadlines of one sign the unsigned order is the signed one. -/
theorem toUInt64_le {x y : Int} (hx : InInt64 x) (hy : InInt64 y) (h : x < 0 ↔ y < 0) :
    toUInt64 x ≤ toUInt64 y ↔ x ≤ y := by
  unfold InInt64 at hx hy
  unfold toUInt64
  omega

/-- Deadlines of both signs are never ordered alike. -/
theorem toUInt64_le_mixed {x y : Int} (hx : InInt64 x) (hy : InInt64 y) (h : ¬ (x < 0 ↔ y < 0)) :
    ¬ (toUInt64 x ≤ toUInt64 y ∧ x ≤ y) := by
  unfold InInt64 at hx hy
  unfold toUInt64
  omega

/-- The listed deadlines are ordered and of one sign. -/
structure Uniform (s : State) : Prop where
  inv : Inv s
  ordered : Ordered (deadline s) s.sleepList
  sign : ∀ t ∈ s.sleepList, ∀ u ∈ s.sleepList, (deadline s t < 0 ↔ deadline s u < 0)

theorem ordered_unsigned {key : Tid → Int} {l : List Tid} (h64 : ∀ t ∈ l, InInt64 (key t))
    (hsign : ∀ t ∈ l, ∀ u ∈ l, (key t < 0 ↔ key u < 0)) :
    Ordered (fun t => toUInt64 (key t)) l ↔ Ordered key l := by
  apply List.Pairwise.iff_of_mem
  intro t u ht hu
  exact toUInt64_le (h64 t ht) (h64 u hu) (hsign t ht u hu)

/-- An ordered insertion puts deadlines of one sign in order, and only those. -/
theorem insert_orderly_iff {s : State} (h : Uniform s) {t : Tid} (ht64 : InInt64 (deadline s t))
    (ht : t ∉ s.sleepList) :
    Ordered (deadline s) (insertBy (sleepLess s.thread) t s.sleepList) ↔
      ∀ u ∈ s.sleepList, (deadline s u < 0 ↔ deadline s t < 0) := by
  have h64 : ∀ u ∈ s.sleepList, InInt64 (deadline s u) := fun u hu => (h.inv.thread u).listed64 hu
  have huns : Ordered (fun u => toUInt64 (deadline s u))
      (insertBy (sleepLess s.thread) t s.sleepList) :=
    ordered_insertBy ((ordered_unsigned h64 h.sign).mpr h.ordered)
  constructor
  · intro hord u hu
    by_contra hmix
    -- `t` and `u` stand in the new list in some order, which both orders agree on.
    rcases rel_or_rel_of_mem (hord.and huns) (mem_insertBy.mpr (.inr hu))
      (mem_insertBy.mpr (.inl rfl)) (fun e => ht (e ▸ hu)) with ⟨h1, h2⟩ | ⟨h1, h2⟩
    · exact toUInt64_le_mixed (h64 u hu) ht64 hmix ⟨h2, h1⟩
    · exact toUInt64_le_mixed ht64 (h64 u hu) (fun e => hmix e.symm) ⟨h2, h1⟩
  · intro hsame
    refine (ordered_unsigned ?_ ?_).mp huns
    · intro u hu
      rcases mem_insertBy.mp hu with rfl | hu
      · exact ht64
      · exact h64 u hu
    · intro u hu v hv
      rcases mem_insertBy.mp hu with rfl | hu' <;> rcases mem_insertBy.mp hv with rfl | hv'
      · rfl
      · exact (hsame v hv').symm
      · exact hsame u hu'
      · exact h.sign u hu' v hv'

theorem tick_deadline {s : State} (h : Inv s) (t : Tid) :
    deadline (timerInterrupt s) t = deadline s t := by
  obtain ⟨pre, -, -, hth, -⟩ :=
    wake_spec (s.ticks + 1) s.thread h.nodup fun t _ => (h.thread t).own
  show ((wake _ _ _).2.1 t).sleepUntil = _
  rw [hth t]
  split <;> rfl

theorem tick_sublist {s : State} (h : Inv s) :
    (timerInterrupt s).sleepList.Sublist s.sleepList := by
  obtain ⟨pre, hl, -⟩ :=
    wake_spec (s.ticks + 1) s.thread h.nodup fun t _ => (h.thread t).own
  exact hl ▸ List.sublist_append_right _ _

theorem tick_orderly {s : State} (h : Uniform s) : Orderly s .tick (timerInterrupt s) := by
  have hd : deadline (timerInterrupt s) = deadline s := funext (tick_deadline h.inv)
  refine ⟨by rw [hd]; exact h.ordered.sublist (tick_sublist h.inv), fun _ hp => ?_⟩
  rcases tick_spec h.inv with ⟨-, hl, -⟩ | ⟨hp', -⟩
  · rw [hl, hd]
    exact h.ordered.dropWhile_eq_filter (s.ticks + 1)
  · rw [hp] at hp'; cases hp'

/-- A step that changes neither the list nor a listed deadline. -/
theorem Uniform.orderly_of_eq {s s' : State} (h : Uniform s) (hl : s'.sleepList = s.sleepList)
    (hd : ∀ t ∈ s.sleepList, deadline s' t = deadline s t) :
    Ordered (deadline s') s'.sleepList := by
  rw [hl]
  exact (List.Pairwise.iff_of_mem fun {t u} ht hu => by rw [hd t ht, hd u hu]).mpr h.ordered

/-- A thread moving outside the list does not change a listed deadline. -/
theorem deadline_setThread {s : State} {t : Tid} {x : Thread}
    (hx : t ∈ s.sleepList → x.sleepUntil = (s.thread t).sleepUntil) {u : Tid}
    (hu : u ∈ s.sleepList) : deadline (setThread s t x) u = deadline s u := by
  by_cases hut : u = t
  · subst hut; simpa [deadline, setThread] using hx hu
  · simp [deadline, setThread, hut]

theorem step_deadline {s s' : State} {a : Label} (h : Inv s) (hs : Step s a s') {u : Tid}
    (hu : u ∈ s.sleepList) : deadline s' u = deadline s u := by
  cases hs with
  | @store t d hpc =>
    exact deadline_setThread (fun ht => absurd ht (h.not_mem (by simp [hpc, Pc.queued]))) hu
  | fault => rfl
  | tick => exact tick_deadline h u
  | insert => exact deadline_setThread (x := { s.thread _ with pc := .semaValue }) (fun _ => rfl) hu
  | _ => refine deadline_setThread ?_ hu; exact fun _ => rfl

theorem orderly_iff_step {s s' : State} {a : Label} (h : Uniform s) (hs : step s a = some s') :
    Orderly s a s' ↔ SameSign s a s' := by
  obtain ⟨-, hs⟩ := step_cases hs
  -- Only the insertion step can break the order; for the others both sides hold.
  have quiet : s'.sleepList = s.sleepList → a ≠ .tick →
      (∀ t, a = .run t → (s.thread t).pc ≠ .insert) → (Orderly s a s' ↔ SameSign s a s') := by
    intro hl ha hpc
    refine iff_of_true ⟨h.orderly_of_eq hl fun t ht => step_deadline h.inv hs ht,
      fun e => absurd e ha⟩ ?_
    exact fun t e hi => absurd hi (hpc t e)
  cases hs with
  | @insert t hpc =>
    have ht := h.inv.not_mem (t := t) (by simp [hpc, Pc.queued])
    have hd : deadline { setThread s t { s.thread t with pc := .semaValue } with
        sleepList := insertBy (sleepLess s.thread) t s.sleepList } = deadline s := by
      funext u
      by_cases hu : u = t
      · subst hu; simp [deadline, setThread]
      · simp [deadline, setThread, hu]
    simp only [Orderly, SameSign, hd, reduceCtorEq, false_implies, and_true, Label.run.injEq,
      forall_eq', hpc, forall_const]
    exact insert_orderly_iff h ((h.inv.thread t).insert64 hpc) ht
  | tick => exact iff_of_true (tick_orderly h) fun t e => by cases e
  | sleep => exact quiet rfl (by simp) (by simp)
  | store hpc => exact quiet rfl (by simp) (by simp [hpc])
  | semaValue hpc => exact quiet rfl (by simp) (by simp [hpc])
  | semaList hpc => exact quiet rfl (by simp) (by simp [hpc])
  | pass hpc => exact quiet rfl (by simp) (by rcases hpc with hpc | hpc <;> simp [hpc])
  | block hpc => exact quiet rfl (by simp) (by rcases hpc with hpc | hpc <;> simp [hpc])
  | fault hpc => exact quiet rfl (by simp) (by rcases hpc with hpc | hpc <;> simp [hpc])

theorem Uniform.step {s s' : State} {a : Label} (h : Uniform s) (hs : Timer.step s a = some s')
    (hok : SameSign s a s') : Uniform s' := by
  refine ⟨h.inv.step hs, ((orderly_iff_step h hs).mpr hok).1, ?_⟩
  obtain ⟨-, hs⟩ := step_cases hs
  have hd := fun {u : Tid} => step_deadline h.inv hs (u := u)
  have keep : s'.sleepList.Sublist s.sleepList → ∀ t ∈ s'.sleepList, ∀ u ∈ s'.sleepList,
      (deadline s' t < 0 ↔ deadline s' u < 0) := by
    intro hl t ht u hu
    rw [hd (hl.subset ht), hd (hl.subset hu)]
    exact h.sign t (hl.subset ht) u (hl.subset hu)
  cases hs with
  | @insert t hpc =>
    intro u hu v hv
    have hself : ∀ {w : Tid}, deadline { setThread s t { s.thread t with pc := .semaValue } with
        sleepList := insertBy (sleepLess s.thread) t s.sleepList } w = deadline s w := by
      intro w
      by_cases hw : w = t
      · subst hw; simp [deadline, setThread]
      · simp [deadline, setThread, hw]
    rw [hself, hself]
    have hs := hok t rfl hpc
    rcases mem_insertBy.mp hu with rfl | hu' <;> rcases mem_insertBy.mp hv with rfl | hv'
    · rfl
    · exact (hs v hv').symm
    · exact hs u hu'
    · exact h.sign u hu' v hv'
  | tick => exact keep (tick_sublist h.inv)
  | _ => exact keep (List.Sublist.refl _)

/-- **`sleep_list` is in order exactly when the signs agree**: in every run, every
step leaves the list ordered and every interrupt removes exactly the due threads,
if and only if every insertion meets only deadlines of its own sign. -/
theorem orderly_iff_sameSign (as : List Label) :
    Along step Orderly init as ↔ Along step SameSign init as :=
  along_iff (I := Uniform) (fun _ a _ h hs => orderly_iff_step (a := a) h hs)
    (fun _ a _ h hs hok => h.step (a := a) hs hok)
    ⟨inv_init, List.Pairwise.nil, fun _ h => absurd h List.not_mem_nil⟩

/-- A thread sleeps 1000 ticks, then another calls `timer_sleep (-100)`. -/
def negativeRun : List Label :=
  [.sleep 1 1000, .run 1, .run 1, .run 1, .run 1, .run 1, .sleep 2 (-100), .run 2]

/-- The negative deadline is listed last, and the interrupt leaves it there. -/
theorem negative_overdue :
    ¬ Along step Orderly init (negativeRun ++ [.run 2]) ∧
      ∃ s, runFrom step init (negativeRun ++ [.run 2, .tick]) = some s ∧ s.panic = false ∧
        2 ∈ s.sleepList ∧ deadline s 2 ≤ s.ticks := by
  constructor
  · intro h
    have := (h.at rfl rfl).1
    revert this
    unfold Ordered
    decide
  · exact ⟨_, rfl, rfl, by decide, by decide⟩

end Pintos.Devices.Timer
