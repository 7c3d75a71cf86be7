import Pintos.Devices.Alarm

/-!
# When and in which order sleepers wake

A run of the alarm clock is watched by a record of it: what each thread's last
call of `timer_sleep` was, and when it put itself into `sleep_list`.
`sleepers_punctual` says of every run with arguments that are not negative that
no call returns before its time, and that each interrupt performs its `sema_up`s
in the order of the deadlines, equal ones in the order of insertion.
-/

namespace Pintos.Devices.Timer

open Pintos.Base Pintos.Threads

/-! ## The `sema_up`s of an interrupt -/

/-- The threads on whose semaphores the loop of `timer_interrupt` calls `sema_up`,
in the order of the calls. -/
def wakeUps (now : Int) : List Tid → (Tid → Thread) → List Tid
  | [], _ => []
  | t :: l, th =>
    if now < (th t).sleepUntil then []
    else
      match semaUp (th t).sleepSema with
      | none => [t]
      | some (s', w) =>
        t :: wakeUps now l (unblock w (Function.update th t { th t with sleepSema := s' }))

/-- The calls follow the list. -/
theorem wakeUps_initial (now : Int) : ∀ (l : List Tid) (th : Tid → Thread), wakeUps now l th <+: l
  | [], _ => List.prefix_refl _
  | t :: l, th => by
    unfold wakeUps
    split
    · exact List.nil_prefix
    · split
      · exact List.prefix_append [t] l
      · exact List.prefix_cons_inj t |>.mpr (wakeUps_initial now l _)

/-- An interrupt that completes has taken off the list the threads it woke. -/
theorem wakeUps_append (now : Int) : ∀ (l : List Tid) (th : Tid → Thread),
    (wake now l th).2.2 = false → wakeUps now l th ++ (wake now l th).1 = l
  | [], _, _ => rfl
  | t :: l, th, h => by
    unfold wake at h ⊢
    unfold wakeUps
    by_cases hd : now < (th t).sleepUntil
    · simp [hd]
    simp only [hd, ↓reduceIte] at h ⊢
    cases hu : semaUp (th t).sleepSema with
    | none => simp [hu] at h
    | some r =>
      simp only [hu] at h ⊢
      rw [List.cons_append, wakeUps_append now l _ h]

/-! ## The record of a run -/

/-- A call of `timer_sleep`: the tick counter it read and its argument. -/
structure Call where
  start : Int
  ticks : Int

def Call.deadline (c : Call) : Int := c.start + c.ticks

structure Clock where
  st : State
  /-- The last call of each thread. -/
  call : Tid → Call
  /-- The number of the last insertion of each thread. -/
  place : Tid → Nat
  /-- How many insertions there were. -/
  inserted : Nat

def Clock.init : Clock where
  st := Timer.init
  call _ := { start := 0, ticks := 0 }
  place _ := 0
  inserted := 0

/-- What the record of the run notes of a step. -/
def Clock.note (s : Clock) (a : Label) (st' : State) : Clock :=
  match a with
  | .sleep t n => { s with st := st', call := Function.update s.call t ⟨s.st.ticks, n⟩ }
  | .run t =>
    if (s.st.thread t).pc = .insert then
      { s with st := st', place := Function.update s.place t s.inserted, inserted := s.inserted + 1 }
    else { s with st := st' }
  | .tick => { s with st := st' }

def clockStep (s : Clock) (a : Label) : Option Clock := (step s.st a).map (s.note a)

/-- The argument of a call is not negative. -/
def NonNeg (_ : Clock) : Label → Prop
  | .sleep _ n => 0 ≤ n
  | .run _ | .tick => True

instance (s : Clock) : ∀ a, Decidable (NonNeg s a)
  | .sleep _ n => inferInstanceAs (Decidable (0 ≤ n))
  | .run _ | .tick => inferInstanceAs (Decidable True)

@[simp] theorem Clock.note_st (s : Clock) (a : Label) (st' : State) : (s.note a st').st = st' := by
  unfold Clock.note
  split
  · rfl
  · split <;> rfl
  · rfl

/-- The record does not hold up the clock: every run has one. -/
theorem clock_of_run {ok : State → Label → Prop} {st : State} (h : Reach step ok Timer.init st) :
    ∃ s : Clock, s.st = st ∧ Reach clockStep (fun s a => ok s.st a) Clock.init s := by
  induction h with
  | refl => exact ⟨Clock.init, rfl, .refl⟩
  | @next st st' a _ hok hs ih =>
    obtain ⟨s, rfl, hr⟩ := ih
    exact ⟨s.note a st', s.note_st a st', .next hr hok (by simp [clockStep, hs])⟩

/-- Thread `t` is to be woken before `u`. -/
def Clock.Before (s : Clock) (t u : Tid) : Prop :=
  (s.call t).deadline < (s.call u).deadline ∨
    (s.call t).deadline = (s.call u).deadline ∧ s.place t < s.place u

/-- What a step has to keep to. -/
structure Punctual (s : Clock) (a : Label) (s' : Clock) : Prop where
  /-- A call that returns has slept until its deadline. -/
  late : ∀ t, (s.st.thread t).pc ≠ .out → (s'.st.thread t).pc = .out →
    (s.call t).start + (s.call t).ticks ≤ s'.st.ticks
  /-- An interrupt calls `sema_up` in the order of the deadlines, and of the
  insertions where these are equal. -/
  order : a = .tick → (wakeUps (s.st.ticks + 1) s.st.sleepList s.st.thread).Pairwise s.Before

/-! ## The invariant -/

/-- The points of `timer_sleep` behind the insertion. -/
def Pc.inserted : Pc → Bool
  | .semaValue | .semaList | .down | .asleep | .woken => true
  | _ => false

theorem Pc.inserted_of_queued {p : Pc} (h : p.queued = true) : p.inserted = true := by
  cases p <;> simp_all [Pc.queued, Pc.inserted]

/-- What a thread in state `x` that made the call `c` keeps to at the time `now`. -/
structure Noted (c : Call) (x : Thread) (listed : Prop) (now : Int) : Prop where
  nonneg : 0 ≤ c.deadline
  computed : ∀ d, x.pc = .store d → d = c.deadline
  stored : x.pc = .insert ∨ x.pc.inserted = true → x.sleepUntil = c.deadline
  due : x.pc.inserted = true → listed ∨ c.deadline ≤ now

structure Clock.Inv (s : Clock) : Prop where
  inv : Timer.Inv s.st
  nonneg : 0 ≤ s.st.ticks
  thread : ∀ t, Noted (s.call t) (s.st.thread t) (t ∈ s.st.sleepList) s.st.ticks
  place : ∀ t ∈ s.st.sleepList, s.place t < s.inserted
  sorted : s.st.sleepList.Pairwise s.Before

theorem Clock.inv_init : Clock.init.Inv where
  inv := Timer.inv_init
  nonneg := le_refl _
  thread t := by constructor <;> simp [Clock.init, Timer.init, Call.deadline, Pc.inserted]
  place t ht := absurd ht List.not_mem_nil
  sorted := List.Pairwise.nil

/-- A listed thread has its deadline in `sleep_until`. -/
theorem Clock.Inv.sleepUntil {s : Clock} (h : s.Inv) {t : Tid} (ht : t ∈ s.st.sleepList) :
    (s.st.thread t).sleepUntil = (s.call t).deadline :=
  (h.thread t).stored (.inr (Pc.inserted_of_queued ((h.inv.thread t).queued ht)))

/-- A step of one thread that leaves the list and the record alone. -/
theorem Clock.Inv.setThread {s : Clock} (h : s.Inv) {t : Tid} {x : Thread}
    (hI : Timer.Inv (setThread s.st t x))
    (hx : Noted (s.call t) x (t ∈ s.st.sleepList) s.st.ticks) :
    Clock.Inv { s with st := setThread s.st t x } where
  inv := hI
  nonneg := h.nonneg
  thread u := by
    by_cases hu : u = t
    · subst hu; simpa [Timer.setThread] using hx
    · simpa [Timer.setThread, hu] using h.thread u
  place := h.place
  sorted := h.sorted

theorem Clock.Inv.sleep {s : Clock} (h : s.Inv) {t : Tid} {n : Int} (hn : 0 ≤ n)
    (hpc : (s.st.thread t).pc = .out)
    (hI : Timer.Inv (Timer.setThread s.st t { s.st.thread t with pc := .store (n + s.st.ticks) })) :
    Clock.Inv { s with
      st := Timer.setThread s.st t { s.st.thread t with pc := .store (n + s.st.ticks) }
      call := Function.update s.call t ⟨s.st.ticks, n⟩ } := by
  have ht : t ∉ s.st.sleepList := h.inv.not_mem (by simp [hpc, Pc.queued])
  have hcall : ∀ u ∈ s.st.sleepList, Function.update s.call t ⟨s.st.ticks, n⟩ u = s.call u :=
    fun u hu => Function.update_of_ne (show u ≠ t from fun e => ht (e ▸ hu)) _ _
  refine ⟨hI, h.nonneg, fun u => ?_, h.place, ?_⟩
  · by_cases hu : u = t
    · subst hu
      have := h.nonneg
      constructor <;> simp [Timer.setThread, Call.deadline, Pc.inserted] <;> omega
    · simpa [Timer.setThread, hu] using h.thread u
  · refine (List.Pairwise.iff_of_mem fun {u v} hu hv => ?_).mp h.sorted
    simp only [Clock.Before, hcall u hu, hcall v hv]

/-- **Insertion**: the new thread comes behind all that are due no later. -/
theorem Clock.Inv.insert {s : Clock} (h : s.Inv) {t : Tid} (hpc : (s.st.thread t).pc = .insert)
    (hI : Timer.Inv { Timer.setThread s.st t { s.st.thread t with pc := .semaValue } with
      sleepList := insertBy (sleepLess s.st.thread) t s.st.sleepList }) :
    Clock.Inv { s with
      st := { Timer.setThread s.st t { s.st.thread t with pc := .semaValue } with
        sleepList := insertBy (sleepLess s.st.thread) t s.st.sleepList }
      place := Function.update s.place t s.inserted
      inserted := s.inserted + 1 } := by
  have ht : t ∉ s.st.sleepList := h.inv.not_mem (by simp [hpc, Pc.queued])
  have hne : ∀ u ∈ s.st.sleepList, u ≠ t := fun u hu e => ht (e ▸ hu)
  have hplace : ∀ u ∈ s.st.sleepList, Function.update s.place t s.inserted u = s.place u :=
    fun u hu => Function.update_of_ne (hne u hu) _ _
  have htu : (s.st.thread t).sleepUntil = (s.call t).deadline := (h.thread t).stored (.inl hpc)
  -- On deadlines that are not negative the unsigned comparison is the signed one.
  have hless : ∀ u ∈ s.st.sleepList, sleepLess s.st.thread t u =
      decide ((s.call t).deadline < (s.call u).deadline) := by
    intro u hu
    have ht64 := (h.inv.thread t).insert64 hpc
    have hu64 := (h.inv.thread u).listed64 hu
    have ht0 := (h.thread t).nonneg
    have hu0 := (h.thread u).nonneg
    rw [htu] at ht64
    rw [h.sleepUntil hu] at hu64
    unfold InInt64 at ht64 hu64
    simp only [sleepLess, toUInt64, htu, h.sleepUntil hu]
    rw [Int.emod_eq_of_lt ht0 (by omega), Int.emod_eq_of_lt hu0 (by omega)]
  refine ⟨hI, h.nonneg, fun u => ?_, ?_, ?_⟩
  · by_cases hu : u = t
    · subst hu
      constructor <;> simp [Timer.setThread, mem_insertBy, htu, (h.thread u).nonneg]
    · simpa [Timer.setThread, hu, mem_insertBy] using h.thread u
  · intro u hu
    rcases mem_insertBy.mp hu with rfl | hu
    · simp
    · show Function.update s.place t s.inserted u < s.inserted + 1
      rw [hplace u hu]
      exact (h.place u hu).trans (Nat.lt_succ_self _)
  · refine pairwise_insertBy ?_ ?_ ?_ ?_
    · refine (List.Pairwise.iff_of_mem fun {u v} hu hv => ?_).mp h.sorted
      simp only [Clock.Before, hplace u hu, hplace v hv]
    · intro u hu hlt
      rw [hless u hu] at hlt
      exact .inl (of_decide_eq_true hlt)
    · intro u hu hge
      rw [hless u hu] at hge
      have hge := of_decide_eq_false hge
      have := h.place u hu
      simp only [Clock.Before, hplace u hu, Function.update_self]
      omega
    · intro u hu v hv hlt huv
      rw [hless u hu] at hlt
      have hlt := of_decide_eq_true hlt
      simp only [Clock.Before] at huv ⊢
      omega

theorem rouse_ne_store {x : Thread} {d : Int} (hq : x.pc.queued = true) :
    (rouse x).pc ≠ .store d := by
  unfold rouse
  cases hpc : x.pc <;> simp_all [Pc.queued]

theorem Clock.Inv.tick {s : Clock} (h : s.Inv) :
    Clock.Inv { s with st := timerInterrupt s.st } := by
  obtain ⟨pre, hl, hpre, hth, -⟩ :=
    wake_spec (s.st.ticks + 1) s.st.thread h.inv.nodup fun t _ => (h.inv.thread t).own
  have hsub := (tick_sublist h.inv).subset
  refine ⟨h.inv.tick, ?_, fun t => ?_, fun t ht => h.place t (hsub ht), ?_⟩
  · have := h.nonneg
    show (0 : Int) ≤ s.st.ticks + 1
    omega
  · have hN := h.thread t
    show Noted _ ((wake _ _ _).2.1 t) (t ∈ (wake _ _ _).1) (s.st.ticks + 1)
    rw [hth t]
    split
    · next hp =>
      -- A thread that is woken was listed and due.
      have hmem : t ∈ s.st.sleepList := hl ▸ List.mem_append_left _ hp
      have hq := (h.inv.thread t).queued hmem
      have hd : (s.call t).deadline ≤ s.st.ticks + 1 := h.sleepUntil hmem ▸ (hpre t hp).1
      refine ⟨hN.nonneg, fun d e => ?_, fun _ => h.sleepUntil hmem, fun _ => .inr hd⟩
      exact absurd e (rouse_ne_store hq)
    · next hp =>
      refine ⟨hN.nonneg, hN.computed, hN.stored, fun hi => ?_⟩
      rcases hN.due hi with hm | hd
      · rw [hl, List.mem_append] at hm
        exact .inl (hm.resolve_left hp)
      · exact .inr (hd.trans (Int.le_of_lt (Int.lt_succ s.st.ticks)))
  · exact h.sorted.sublist (tick_sublist h.inv)

theorem Clock.Inv.step {s s' : Clock} {a : Label} (h : s.Inv) (hok : NonNeg s a)
    (hs : clockStep s a = some s') : s'.Inv := by
  simp only [clockStep, Option.map_eq_some_iff] at hs
  obtain ⟨st', hs, rfl⟩ := hs
  have hI := h.inv.step hs
  -- A thread that neither inserts itself nor starts a call keeps what was noted of it.
  have keep : ∀ {t : Tid} {x : Thread}, (s.st.thread t).pc ≠ .insert →
      Timer.Inv (Timer.setThread s.st t x) → Noted (s.call t) x (t ∈ s.st.sleepList) s.st.ticks →
      (s.note (.run t) (Timer.setThread s.st t x)).Inv := by
    intro t x hpc hI hx
    unfold Clock.note
    simp only [hpc, ↓reduceIte]
    exact h.setThread hI hx
  cases (step_cases hs).2 with
  | @sleep t n hpc hn => exact h.sleep hok hpc hI
  | @store t d hpc =>
    have hN := h.thread t
    exact keep (by simp [hpc]) hI
      ⟨hN.nonneg, by simp, fun _ => hN.computed d hpc, by simp [Pc.inserted]⟩
  | @insert t hpc =>
    unfold Clock.note
    simp only [hpc, ↓reduceIte]
    exact h.insert hpc hI
  | @semaValue t hpc =>
    have hN := h.thread t
    have hi : (s.st.thread t).pc.inserted = true := by rw [hpc]; rfl
    exact keep (by simp [hpc]) hI
      ⟨hN.nonneg, by simp, fun _ => hN.stored (.inr hi), fun _ => hN.due hi⟩
  | @semaList t hpc =>
    have hN := h.thread t
    have hi : (s.st.thread t).pc.inserted = true := by rw [hpc]; rfl
    exact keep (by simp [hpc]) hI
      ⟨hN.nonneg, by simp, fun _ => hN.stored (.inr hi), fun _ => hN.due hi⟩
  | @pass t hpc hv =>
    exact keep (by rcases hpc with hpc | hpc <;> simp [hpc]) hI
      ⟨(h.thread t).nonneg, by simp, by simp [Pc.inserted], by simp [Pc.inserted]⟩
  | @block t ws hpc hv hw =>
    have hN := h.thread t
    have hi : (s.st.thread t).pc.inserted = true := by rcases hpc with hpc | hpc <;> rw [hpc] <;> rfl
    exact keep (by rcases hpc with hpc | hpc <;> simp [hpc]) hI
      ⟨hN.nonneg, by simp, fun _ => hN.stored (.inr hi), fun _ => hN.due hi⟩
  | @fault t hpc hw =>
    have hne : (s.st.thread t).pc ≠ .insert := by rcases hpc with hpc | hpc <;> simp [hpc]
    unfold Clock.note
    simp only [hne, ↓reduceIte]
    exact ⟨hI, h.nonneg, h.thread, h.place, h.sorted⟩
  | tick => exact h.tick

theorem reach_clock {s : Clock} (h : Reach clockStep NonNeg Clock.init s) : s.Inv :=
  h.invariant Clock.inv_init fun _ _ _ hI hok hs => hI.step hok hs

/-! ## Every run -/

/-- A thread leaves `timer_sleep` only with a unit of its semaphore, which it has
only when it is off the list. -/
theorem Clock.Inv.returns {s : Clock} (h : s.Inv) {a : Label} {st' : State}
    (hs : Timer.step s.st a = some st') {t : Tid} (hpc : (s.st.thread t).pc ≠ .out)
    (hout : (st'.thread t).pc = .out) : (s.call t).deadline ≤ st'.ticks := by
  -- Only the thread's own step changes where it is, but for a wake-up by an interrupt.
  have other : ∀ {u : Tid} {x : Thread}, ((Timer.setThread s.st u x).thread t).pc = .out →
      t = u ∧ x.pc = .out := by
    intro u x ho
    by_cases htu : t = u
    · subst htu; exact ⟨rfl, by simpa [Timer.setThread] using ho⟩
    · exact absurd (by simpa [Timer.setThread, htu] using ho) hpc
  cases (step_cases hs).2 with
  | @pass u hp hv =>
    obtain ⟨rfl, -⟩ := other hout
    have hi : (s.st.thread t).pc.inserted = true := by rcases hp with hp | hp <;> rw [hp] <;> rfl
    rcases (h.thread t).due hi with hl | hd
    · have := (h.inv.thread t).zero hl (by rcases hp with hp | hp <;> simp [hp])
      omega
    · exact hd
  | fault => exact absurd hout hpc
  | tick =>
    obtain ⟨pre, -, -, hth, -⟩ :=
      wake_spec (s.st.ticks + 1) s.st.thread h.inv.nodup fun t _ => (h.inv.thread t).own
    have hout : ((wake (s.st.ticks + 1) s.st.sleepList s.st.thread).2.1 t).pc = .out := hout
    rw [hth t] at hout
    split at hout
    · unfold rouse at hout
      split at hout
      · cases hout
      · exact absurd hout hpc
    · exact absurd hout hpc
  | insert => exact absurd (other (x := { s.st.thread _ with pc := .semaValue }) hout).2 (by simp)
  | _ => exact absurd (other hout).2 (by simp)

/-- **Sleepers wake late enough and in order**, in every run of calls with
arguments that are not negative. -/
theorem sleepers_punctual {s s' : Clock} {a : Label} (h : Reach clockStep NonNeg Clock.init s)
    (hs : clockStep s a = some s') : Punctual s a s' := by
  have hI := reach_clock h
  simp only [clockStep, Option.map_eq_some_iff] at hs
  obtain ⟨st', hs, rfl⟩ := hs
  refine ⟨fun t hpc hout => ?_, fun _ => ?_⟩
  · rw [Clock.note_st] at hout ⊢
    exact hI.returns hs hpc hout
  · exact hI.sorted.sublist (wakeUps_initial _ _ _).sublist

/-- Threads 2 and 1 list themselves for the same deadline after thread 3, which is
to sleep longer; the tick that wakes the two calls `sema_up` for 2 first. -/
def equalDeadlines : List Label :=
  [.sleep 3 5, .run 3, .run 3, .run 3, .run 3, .sleep 1 2, .run 1, .tick, .sleep 2 1, .run 2, .run 2,
    .run 1, .run 2, .run 1, .run 2, .run 1, .run 1]

theorem sleepers_punctual_equal : ∃ s s', clockStep s .tick = some s' ∧ Punctual s .tick s' ∧
    wakeUps (s.st.ticks + 1) s.st.sleepList s.st.thread = [2, 1] := by
  have h : Reach clockStep NonNeg Clock.init _ := reach_of_guarded equalDeadlines rfl
  exact ⟨_, _, rfl, sleepers_punctual h rfl, rfl⟩

end Pintos.Devices.Timer
