import Pintos.Threads.Condition

/-!
# Runs of the condition variable

A thread that is in a call and not asleep always has a next statement, of which there are
eleven kinds; signals move in four of them. A broadcast takes at most three statements for
each thread that waits, and nobody begins to wait while it goes on.
-/

namespace Pintos.Threads

open Pintos.Base

/-! ## One step -/

/-- The thread has a next statement: it is in a call and not asleep. -/
def CondPc.busy : CondPc → Bool
  | .lock .out | .lock .held | .lock .asleep | .waitAsleep | .waitAcquire .asleep => false
  | _ => true

/-- What the next statement of `t` does; the signals move in `wait`, `back`, `pop` and `up` only. -/
inductive CondEffect (s : CondSys) (t : Tid) : CondSys → Prop where
  | lock {p p' : LockPc} {l : Lock} {pc' : Tid → CondPc} : s.pc t = .lock p → p.To p' →
      pc' t = .lock p' → CondEffect s t { s with lock := l, pc := pc' }
  | wait {x : Tid → Semaphore} {pc' : Tid → CondPc} : s.pc t = .wait → pc' t = .waitRelease .held →
      CondEffect s t { s with
        waiters := s.waiters ++ [t], begun := s.begun ++ [t], sema := x, pc := pc' }
  | release {p q : LockPc} {l : Lock} {pc' : Tid → CondPc} : s.pc t = .waitRelease p →
      pc' t = afterRelease q → CondEffect s t { s with lock := l, pc := pc' }
  | down {x : Tid → Semaphore} {pc' : Tid → CondPc} : s.pc t = .waitDown ∨ s.pc t = .waitWoken →
      (t ∉ s.pending ∧ pc' t = .waitAcquire .out ∨ t ∈ s.pending ∧ pc' t = .waitAsleep) →
      CondEffect s t { s with sema := x, pc := pc' }
  | acquire {p q : LockPc} {l : Lock} {pc' : Tid → CondPc} : s.pc t = .waitAcquire p →
      pc' t = .waitAcquire q → CondEffect s t { s with lock := l, pc := pc' }
  | back {l : Lock} {pc' : Tid → CondPc} : s.pc t = .waitAcquire .taken → pc' t = .lock .held →
      CondEffect s t { s with lock := l, returned := s.returned ++ [t], pc := pc' }
  | miss {c : Signaller} {pc' : Tid → CondPc} : s.pc t = .signal c → s.waiters = [] →
      pc' t = c.after → CondEffect s t { s with pc := pc' }
  | pop {c : Signaller} {w : Tid} {ws : List Tid} {pc' : Tid → CondPc} : s.pc t = .signal c →
      s.waiters = w :: ws → pc' t = .signalUp c w →
      CondEffect s t { s with waiters := ws, picked := some w, pc := pc' }
  | up {c : Signaller} {w : Tid} {x : Tid → Semaphore} {pc' : Tid → CondPc} :
      s.pc t = .signalUp c w → pc' t = c.after →
      CondEffect s t { s with sema := x, picked := none, released := s.released ++ [w], pc := pc' }
  | castEnd {before called : List Tid} {pc' : Tid → CondPc} : s.pc t = .broadcast before called →
      s.waiters = [] → pc' t = .lock .held → CondEffect s t { s with pc := pc' }
  | castNext {before called : List Tid} {pc' : Tid → CondPc} : s.pc t = .broadcast before called →
      s.waiters ≠ [] → pc' t = .signal (.broadcast before called) → CondEffect s t { s with pc := pc' }

section

variable {s : CondSys} {t : Tid}

/-- **The next statement of a thread** that is in a call and not asleep: no ASSERT fails. -/
theorem CondInv.next (hi : CondInv s) (hb : (s.pc t).busy = true) :
    ∃ s', s.next t = some s' ∧ CondInv s' ∧ Others s.pc s'.pc t ∧ CondEffect s t s' := by
  cases ht : s.pc t with
  | lock p =>
    have hne : p ≠ .out ∧ p ≠ .held ∧ p ≠ .asleep := by
      rw [ht] at hb
      refine ⟨?_, ?_, ?_⟩ <;> rintro rfl <;> cases hb
    obtain ⟨l, p', pc', hmove, hI, hto, hpc, hoth⟩ := hi.lock_move ht rfl hne.1 hne.2.1 hne.2.2
      (k := .lock) (fun _ => rfl) fun _ _ => .lock ..
    exact ⟨_, by rw [CondSys.next, ht]; exact hmove, hI, hoth, .lock ht hto hpc⟩
  | wait =>
    refine ⟨_, by rw [CondSys.next, ht], hi.wait ht, Others.update s.pc t _, .wait ht ?_⟩
    exact Function.update_self ..
  | waitRelease p =>
    have hok := hi.place t
    rw [ht] at hok
    rcases hok with rfl | hok
    · have hlock := hi.held (t := t) (by rw [ht]; rfl)
      have hI := hi.stay (q := .waitRelease .release) ht
        ⟨fun _ => .inr (.inl rfl), rfl, rfl, fun _ => .inl, fun _ _ _ => id⟩ (by decide) rfl rfl
      refine ⟨_, ?_, hI, Others.update s.pc t _, .release (l := s.lock) (q := .release) ht ?_⟩
      · simp [CondSys.next, ht, lockEnter, hlock]
      · exact Function.update_self ..
    · have hne : p ≠ .out ∧ p ≠ .held ∧ p ≠ .asleep := by rcases hok with rfl | rfl <;> decide
      obtain ⟨l, p', pc', hmove, hI, hto, hpc, hoth⟩ := hi.lock_move ht rfl hne.1 hne.2.1 hne.2.2
        (k := afterRelease) (fun p' => by cases p' <;> rfl) (fun p' hto => by
          rcases hok with rfl | rfl <;> cases hto
          · exact ⟨fun _ => .inr (.inr rfl), rfl, rfl, fun _ => .inl, fun _ _ _ => id⟩
          · exact ⟨fun _ => trivial, rfl, rfl, fun _ => .inl, fun _ _ _ => id⟩)
      refine ⟨_, ?_, hI, hoth, .release ht hpc⟩
      rcases hok with rfl | rfl <;> simp only [CondSys.next, ht] <;> exact hmove
  | waitDown | waitWoken =>
    obtain ⟨x, p, hn, hI, hp⟩ := hi.down (t := t) (by simp [ht])
    refine ⟨_, hn, hI, Others.update s.pc t _, .down (by simp [ht]) ?_⟩
    simpa only [Function.update_self] using hp
  | waitAsleep =>
    rw [ht] at hb
    cases hb
  | waitAcquire p =>
    have hok := hi.place t
    rw [ht] at hok
    have halike : ∀ p', (CondPc.waitAcquire p').Ok →
        Alike s.begun (.waitAcquire p) (.waitAcquire p') :=
      fun p' h => ⟨fun _ => h, rfl, rfl, fun _ => .inl, fun _ _ _ => id⟩
    have hmove : p = .acquire ∨ p = .woken →
        ∃ s', s.next t = some s' ∧ CondInv s' ∧ Others s.pc s'.pc t ∧ CondEffect s t s' := by
      intro hp
      have hne : p ≠ .out ∧ p ≠ .held ∧ p ≠ .asleep := by rcases hp with rfl | rfl <;> decide
      obtain ⟨l, p', pc', hmove, hI, hto, hpc, hoth⟩ := hi.lock_move ht rfl hne.1 hne.2.1 hne.2.2
        (k := .waitAcquire) (fun _ => rfl) (fun p' hto => halike p' (by
          rcases hp with rfl | rfl <;> rcases hto with rfl | rfl <;> simp [CondPc.Ok]))
      refine ⟨_, ?_, hI, hoth, .acquire ht hpc⟩
      rcases hp with rfl | rfl <;> simp only [CondSys.next, ht] <;> exact hmove
    rcases hok with rfl | hok | rfl | hok | rfl
    · have hlock := hi.not_held (t := t) (by rw [ht]; rfl)
      have hI := hi.stay (q := .waitAcquire .acquire) ht (halike _ (.inr (.inl rfl))) (by decide) rfl rfl
      refine ⟨_, ?_, hI, Others.update s.pc t _, .acquire (l := s.lock) (q := .acquire) ht ?_⟩
      · simp [CondSys.next, ht, lockEnter, hlock]
      · exact Function.update_self ..
    · exact hmove (.inl hok)
    · rw [ht] at hb
      cases hb
    · exact hmove (.inr hok)
    · obtain ⟨hn, hI⟩ := hi.back ht
      refine ⟨_, hn, hI, Others.update s.pc t _, .back ht ?_⟩
      exact Function.update_self ..
  | signal c =>
    cases hw : s.waiters with
    | nil =>
      obtain ⟨hafter, hawait, haup, haok, hasema, hacast⟩ := c.after_spec
      have hI := hi.stay_held (q := c.after) ht ⟨fun _ => haok, hawait, haup,
        fun x hc => .inl ?_, fun u x due => (hasema u x due).mpr⟩ rfl hafter
      · refine ⟨_, ?_, hI, Others.update s.pc t _, .miss ht hw ?_⟩
        · simp only [CondSys.next, ht, hw]
        · exact Function.update_self ..
      · rw [hacast 0] at hc
        cases c with
        | thread => cases hc
        | broadcast b d => exact hc
    | cons w ws =>
      refine ⟨_, ?_, hi.pop ht hw, Others.update s.pc t _, .pop ht hw ?_⟩
      · simp only [CondSys.next, ht, hw]
      · exact Function.update_self ..
  | signalUp c w =>
    obtain ⟨hn, hI⟩ := hi.sema_up ht
    have hwt := (hi.picked_sema ht).1
    refine ⟨_, hn, hI, fun u hu => ?_, .up ht ?_⟩
    · by_cases huw : u = w
      · subst huw
        simp only [Function.update_self]
        exact CondPc.upped_cases _
      · exact .inl ((Function.update_of_ne huw ..).trans (Function.update_of_ne hu ..))
    · rw [Function.update_of_ne hwt.symm, Function.update_self]
  | broadcast before called =>
    have hlock := hi.held (t := t) (by rw [ht]; rfl)
    by_cases hw : s.waiters = []
    · have hI := hi.stay_held (q := .lock .held) ht
        ⟨fun _ => trivial, rfl, rfl, fun _ hc => (by cases hc), fun _ _ _ => id⟩ rfl rfl
      refine ⟨_, ?_, hI, Others.update s.pc t _, .castEnd ht hw ?_⟩
      · simp only [CondSys.next, ht, hw, if_pos]
      · exact Function.update_self ..
    · have hI := hi.stay_held (q := .signal (.broadcast before called)) ht
        ⟨fun _ => trivial, rfl, rfl, fun _ => .inl, fun _ _ _ => id⟩ rfl rfl
      refine ⟨_, ?_, hI, Others.update s.pc t _, .castNext ht hw ?_⟩
      · simp only [CondSys.next, ht, if_neg hw, hlock, if_true]
      · exact Function.update_self ..

theorem CondSys.next_idle (hb : (s.pc t).busy = false) : s.next t = none := by
  cases ht : s.pc t with
  | lock p | waitAcquire p =>
    rw [ht] at hb
    cases p <;> first | (simp [CondSys.next, ht, CondSys.lockMove, lockNext]; done) | cases hb
  | waitAsleep => rw [CondSys.next, ht]
  | wait | waitRelease p | waitDown | waitWoken | signal c | signalUp c w | broadcast before called =>
    rw [ht] at hb
    cases hb

theorem CondInv.next_effect (hi : CondInv s) {s' : CondSys} (h : s.next t = some s') :
    CondInv s' ∧ Others s.pc s'.pc t ∧ CondEffect s t s' := by
  cases hb : (s.pc t).busy with
  | false => rw [CondSys.next_idle hb] at h; cases h
  | true =>
    obtain ⟨s'', hn, hI⟩ := hi.next hb
    cases hn.symm.trans h
    exact hI

theorem CondInv.step (hi : CondInv s) {a : CondOp} {s' : CondSys} (hok : Required s a)
    (h : condStep s a = some s') : CondInv s' := by
  cases a with
  | call t c =>
    obtain ⟨hs, hI⟩ := hi.enter hok
    cases hs.symm.trans h
    exact hI
  | next t => exact (hi.next_effect h).1

theorem CondInv.reach (h : Reach condStep Required condStart s) : CondInv s :=
  h.invariant .start fun _ _ _ hi hok hs => hi.step hok hs

/-! ## Broadcasts -/

/-- A bound on the statements that are left of a broadcast, with `n` threads waiting. -/
def CondPc.work (n : Nat) : CondPc → Nat
  | .broadcast _ _ => 3 * n + 1
  | .signal _ => max (3 * n) 2
  | .signalUp _ _ => 3 * n + 2
  | _ => 0

/-- A statement of a broadcast: it returns, with those released that were waiting, or less is
left. -/
theorem CondInv.cast_next (hi : CondInv s) {x : List Tid × List Tid} (hc : (s.pc t).cast = some x)
    {s' : CondSys} (h : s.next t = some s') :
    s'.pc t = .lock .held ∧ s'.released = x.1 ++ x.2 ∨
      (s'.pc t).cast = some x ∧ (s'.pc t).work s'.waiters.length < (s.pc t).work s.waiters.length := by
  obtain ⟨-, -, heff⟩ := hi.next_effect h
  have hheld := CondPc.held_of_cast hc
  cases heff with
  | lock ht _ _ | wait ht _ | release ht _ | acquire ht _ | back ht _ =>
    rw [ht] at hc
    cases hc
  | down ht _ => rcases ht with ht | ht <;> rw [ht] at hc <;> cases hc
  | miss ht hw hpc =>
    right
    rw [ht] at hc
    rename_i c _
    cases c with
    | thread => cases hc
    | broadcast b d =>
      cases hc
      simp [hpc, ht, hw, Signaller.after, CondPc.cast, CondPc.work]
  | pop ht hw hpc =>
    right
    rw [ht] at hc
    rename_i c w ws _
    cases c with
    | thread => cases hc
    | broadcast b d =>
      cases hc
      refine ⟨by simp [hpc, CondPc.cast], ?_⟩
      simp only [hpc, ht, hw, CondPc.work, List.length_cons]
      omega
  | up ht hpc =>
    right
    rw [ht] at hc
    rename_i c w _ _
    cases c with
    | thread => cases hc
    | broadcast b d =>
      cases hc
      simp [hpc, ht, Signaller.after, CondPc.cast, CondPc.work]
  | castEnd ht hw hpc =>
    left
    have hno := hi.not_picked hheld (by rw [ht]; rfl)
    have hbegun := hi.cast t _ _ hc
    have hfifo := hi.fifo
    rw [CondSys.pending, hno, hw] at hfifo
    refine ⟨hpc, ?_⟩
    show s.released = _
    rw [← hbegun, hfifo]
    simp
  | castNext ht hw hpc =>
    right
    rw [ht] at hc
    cases hc
    refine ⟨by simp [hpc, CondPc.cast], ?_⟩
    have : s.waiters.length ≠ 0 := by simpa using hw
    simp only [hpc, ht, CondPc.work]
    omega

/-- During a broadcast the steps of other threads leave the waiters alone. -/
theorem CondInv.cast_other (hi : CondInv s) {x : List Tid × List Tid} (hc : (s.pc t).cast = some x)
    {a : CondOp} (ha : a ≠ .next t) {s' : CondSys} (hok : Required s a) (h : condStep s a = some s') :
    s'.pc t = s.pc t ∧ s'.waiters = s.waiters := by
  have hheld := CondPc.held_of_cast hc
  cases a with
  | call u c =>
    obtain ⟨hs, -⟩ := hi.enter hok
    have hut : t ≠ u := by
      rintro rfl
      simp only [condStep, Option.ite_none_right_eq_some] at h
      rcases h.1 with hp | hp <;> rw [hp] at hc <;> cases hc
    cases hs.symm.trans h
    exact ⟨Function.update_of_ne hut .., rfl⟩
  | next u =>
    have hut : t ≠ u := by
      rintro rfl
      exact ha rfl
    obtain ⟨-, hoth, heff⟩ := hi.next_effect h
    refine ⟨(hoth t hut).resolve_right fun hw => ?_, ?_⟩
    · rw [CondPc.unblock_of_held hheld] at hw
      cases hw
    · have hno : (s.pc u).lockPc ≠ .held := fun hu => hut (hi.alone hu hheld)
      cases heff with
      | wait hu _ | pop hu _ _ => exact absurd (by rw [hu]; rfl) hno
      | lock | release | down | acquire | back | miss | up | castEnd | castNext => rfl

/-- **A broadcast comes to its end** in every run in which its thread runs often enough. -/
theorem CondInv.cast_ends {x : List Tid × List Tid} :
    ∀ {as : List CondOp} {s s' : CondSys}, CondInv s → (s.pc t).cast = some x →
      runFrom (guarded condStep Required) s as = some s' →
      (s.pc t).work s.waiters.length ≤ as.count (.next t) →
      ∃ pre s1, pre <+: as ∧ runFrom (guarded condStep Required) s pre = some s1 ∧
        s1.pc t = .lock .held ∧ s1.released = x.1 ++ x.2
  | [], s, s', hi, hc, _, hn => by
    cases hp : s.pc t with
    | broadcast b d =>
      rw [hp] at hn
      simp [CondPc.work] at hn
    | signal c =>
      rw [hp] at hn
      simp [CondPc.work] at hn
    | signalUp c w =>
      rw [hp] at hn
      simp [CondPc.work] at hn
    | lock p | wait | waitRelease p | waitDown | waitAsleep | waitWoken | waitAcquire p =>
      rw [hp] at hc
      cases hc
  | a :: as, s, s', hi, hc, hr, hn => by
    simp only [runFrom, guarded, Option.bind_eq_some_iff] at hr
    obtain ⟨s1, h1, hr⟩ := hr
    split at h1
    · next hok =>
      have hrun : guarded condStep Required s a = some s1 := by rw [guarded, if_pos hok, h1]
      have hcons : ∀ {pre s2}, runFrom (guarded condStep Required) s1 pre = some s2 →
          runFrom (guarded condStep Required) s (a :: pre) = some s2 := by
        intro pre s2 h2
        rw [runFrom, hrun]
        exact h2
      have hi1 := hi.step hok h1
      by_cases ha : a = .next t
      · subst ha
        rcases hi.cast_next hc h1 with ⟨hpc, hrel⟩ | ⟨hc1, hless⟩
        · exact ⟨[.next t], s1, by simp, hcons rfl, hpc, hrel⟩
        · rw [List.count_cons_self] at hn
          obtain ⟨pre, s2, hpre, h2, hend⟩ := hi1.cast_ends hc1 hr (by omega)
          exact ⟨_, s2, by simpa using hpre, hcons h2, hend⟩
      · obtain ⟨hpc, hw⟩ := hi.cast_other hc ha hok h1
        rw [List.count_cons_of_ne ha] at hn
        obtain ⟨pre, s2, hpre, h2, hend⟩ := hi1.cast_ends (by rwa [hpc]) hr (by rwa [hpc, hw])
        exact ⟨_, s2, by simpa using hpre, hcons h2, hend⟩
    · cases h1

end

/-! ## The condition variable -/

/-- What a reader of `synch.c` expects of `cond_signal`: the element of the thread that has
waited longest comes out, its semaphore goes from 0 to 1, and no other thread is touched. -/
structure SignalOk (s : CondSys) : Prop where
  first : ∀ t c w ws, s.pc t = .signal c → s.waiters = w :: ws →
    ∃ s', s.next t = some s' ∧ s'.pc t = .signalUp c w ∧ s'.waiters = ws ∧ s'.released = s.released
  release : ∀ t c w, s.pc t = .signalUp c w →
    ∃ s', s.next t = some s' ∧ s'.pc t = c.after ∧ s'.released = s.released ++ [w] ∧
      (s.sema w).value = 0 ∧ (s'.sema w).value = 1 ∧ s'.pc w ≠ .waitAsleep ∧
      ∀ u, u ≠ w → s'.sema u = s.sema u ∧ (u ≠ t → s'.pc u = s.pc u)
  none : ∀ t c, s.pc t = .signal c → s.waiters = [] →
    ∃ s', s.next t = some s' ∧ s'.pc t = c.after ∧ s'.released = s.released

section

variable {s : CondSys} {t : Tid}

theorem CondInv.signal_ok (hi : CondInv s) : SignalOk s where
  first t c w ws ht hw := by
    refine ⟨{ s with waiters := ws, picked := some w, pc := Function.update s.pc t (.signalUp c w) },
      by simp only [CondSys.next, ht, hw], ?_, rfl, rfl⟩
    exact Function.update_self ..
  release t c w ht := by
    obtain ⟨hwt, -, -, hsema⟩ := hi.picked_sema ht
    refine ⟨_, (hi.sema_up ht).1, ?_, rfl, ?_, ?_, ?_, fun u hu => ⟨?_, fun hut => ?_⟩⟩
    · exact (Function.update_of_ne hwt.symm ..).trans (Function.update_self ..)
    · rcases hsema with ⟨-, hx, -⟩ | ⟨-, hx⟩ <;> rw [hx]
    · show (Function.update s.sema w _ w).value = 1
      rw [Function.update_self]
    · simp only [Function.update_self]
      cases s.pc w <;> simp [CondPc.upped]
    · exact Function.update_of_ne hu ..
    · exact (Function.update_of_ne hu ..).trans (Function.update_of_ne hut ..)
  none t c ht hw := by
    refine ⟨s.setPc t c.after, by simp only [CondSys.next, ht, hw], ?_, rfl⟩
    exact Function.update_self ..

/-- How many signals a thread has been sent: one for each time it has returned, and one more
from then on when its signal has gone out. -/
theorem CondInv.released_count (hi : CondInv s) (t : Tid) :
    s.released.count t = s.returned.count t + if (s.pc t).waiting ∧ t ∉ s.pending then 1 else 0 := by
  have hc := hi.count t
  rw [hi.fifo, List.count_append] at hc
  by_cases hp : t ∈ s.pending
  · have hone := List.count_eq_one_of_mem hi.nodup hp
    have hw : (s.pc t).waiting = true := by
      have hs := hi.sema t
      cases ht : s.pc t with
      | waitRelease p | waitDown | waitAsleep | waitWoken | waitAcquire p => rfl
      | lock p | wait | signal c | signalUp c w | broadcast before called =>
        rw [ht] at hs
        exact absurd hp hs
    simp only [hw, hp, not_true_eq_false, and_false, if_false, if_true] at hc ⊢
    omega
  · have hzero := List.count_eq_zero.mpr hp
    simp only [hp, not_false_eq_true, and_true]
    omega

/-- **Condition variables.** In every interleaving of calls that hold the lock as required,
signals go out in the order in which threads began to wait, one for each of them; a thread
comes back from `cond_wait` after one signal and with the lock, and once its signal is sent
it does not sleep on its semaphore; a broadcast comes to its end and releases those that
were waiting. -/
theorem condition_correct {s : CondSys} (h : Reach condStep Required condStart s) :
    s.begun = s.released ++ s.picked.toList ++ s.waiters ∧ SignalOk s ∧
    (∀ t s', s.next t = some s' → s'.returned ≠ s.returned → s'.returned = s.returned ++ [t] ∧
      s'.pc t = .lock .held ∧ s'.lock.holder = some t ∧
      s'.begun.count t = s'.returned.count t ∧ s'.released.count t = s'.returned.count t) ∧
    (∀ t, (s.pc t).waiting = true → t ∉ s.pending → s.released.count t = s.returned.count t + 1 ∧
      s.pc t ≠ .waitAsleep ∧ (s.pc t = .waitDown ∨ s.pc t = .waitWoken →
        ∃ s', s.next t = some s' ∧ s'.pc t = .waitAcquire .out)) ∧
    (∀ t p, s.pc t = .waitAcquire p → t ∉ s.pending) ∧
    (∀ t, s.pc t = .lock .held → ∃ s0, condStep s (.call t .broadcast) = some s0 ∧
      ∀ as s', runFrom (guarded condStep Required) s0 as = some s' →
        3 * s.waiters.length + 1 ≤ as.count (.next t) →
        ∃ pre s1, pre <+: as ∧ runFrom (guarded condStep Required) s0 pre = some s1 ∧
          s1.pc t = .lock .held ∧ s1.released = s.released ++ s.waiters) ∧
    (∀ t c, Required s (.call t c) → (condStep s (.call t c)).isSome = true) ∧
    ∀ t, (s.pc t).busy = true → (s.next t).isSome = true := by
  have hi := CondInv.reach h
  refine ⟨?_, hi.signal_ok, fun t s' hs hne => ?_, fun t hw hp => ⟨?_, fun ht => ?_, fun ht => ?_⟩,
    fun t p ht => ?_, fun t ht => ?_, fun t c hok => ?_, fun t hb => ?_⟩
  · rw [hi.fifo, CondSys.pending, List.append_assoc]
  · obtain ⟨hI, -, heff⟩ := hi.next_effect hs
    have hcount := hI.count t
    have hrel := hI.released_count t
    have hlock := hI.lock.holder t
    cases heff with
    | back ht hpc =>
      simp only [hpc, CondPc.waiting] at hcount hrel
      refine ⟨rfl, hpc, hlock.mpr ?_, by simpa using hcount, by simpa using hrel⟩
      simp [hpc, CondPc.lockPc, LockPc.named]
    | lock | wait | release | down | acquire | miss | pop | up | castEnd | castNext =>
      exact absurd rfl hne
  · rw [hi.released_count, hw, if_pos ⟨rfl, hp⟩]
  · have hs := hi.sema t
    rw [ht] at hs
    exact hp hs.1
  · obtain ⟨x, p, hn, -, ⟨-, rfl⟩ | ⟨hmem, -⟩⟩ := hi.down ht
    · exact ⟨_, hn, Function.update_self ..⟩
    · exact absurd hmem hp
  · have hs := hi.sema t
    rwa [ht] at hs
  · obtain ⟨hs, hI⟩ := hi.enter (c := .broadcast) (t := t) ht
    refine ⟨_, hs, fun as s' hr hn => ?_⟩
    have hpc : (s.setPc t (CondCall.broadcast.entry s)).pc t = .broadcast s.released s.waiters :=
      Function.update_self ..
    refine hI.cast_ends (x := (s.released, s.waiters)) (by rw [hpc]; rfl) hr ?_
    rw [hpc]
    exact hn
  · rw [(hi.enter hok).1]
    rfl
  · obtain ⟨s', hs, -⟩ := hi.next hb
    rw [hs]
    rfl

end

/-- Thread 2 signals when thread 1 has given the lock back and does not sleep yet: thread 1
goes on. -/
theorem signal_before_sleep :
    ∃ s, runFrom (guarded condStep Required) condStart
        [.call 1 (.lock .acquire), .next 1, .next 1, .call 1 .wait, .next 1, .next 1, .next 1, .next 1,
          .call 2 (.lock .acquire), .next 2, .next 2, .call 2 .signal, .next 2, .next 2] = some s ∧
      s.pc 1 = .waitDown ∧ s.released = [1] ∧
      ∃ s', s.next 1 = some s' ∧ s'.pc 1 = .waitAcquire .out := by
  refine ⟨_, rfl, rfl, rfl, ?_⟩
  have h := condition_correct (reach_of_guarded
    [.call 1 (.lock .acquire), .next 1, .next 1, .call 1 .wait, .next 1, .next 1, .next 1, .next 1,
      .call 2 (.lock .acquire), .next 2, .next 2, .call 2 .signal, .next 2, .next 2] rfl)
  exact (h.2.2.2.1 1 rfl (by decide)).2.2 (.inl rfl)

end Pintos.Threads
