import Pintos.Kernel.Console

/-!
# What the console lock is good for

Each statement of a call keeps the invariant: the depth follows the calls inside of the holder, so
that the lock goes with the outermost of them, and what one outermost call writes stays together.
-/

namespace Pintos.Kernel.Console

open Pintos.Base Pintos.Threads

section

variable {s s' : Sys} {t u : Tid} {f : Frame} {below l : List Frame}

/-! ## Statements -/

/-- What is known of the innermost call. -/
theorem Inv.frame (hi : Inv s) (h : s.stack t = f :: below) :
    FrameOk f.pc (nesting below) ∧ StackOk below := by
  have hok := hi.stack t
  rwa [h] at hok

theorem Inv.test (hi : Inv s) (h : s.stack t = f :: below) (hpc : f.pc = .test) :
    Inv (s.goto t (if lockHeldByCurrentThread s.consoleLock t then .incr else .lock .out)) := by
  have hcount : nesting (s.stack t) = nesting below := by
    rw [h, nesting_cons, hpc]
    rfl
  have hheld := hi.phase.holder_iff t
  rw [hcount] at hheld
  split
  · next hcur =>
    refine hi.goto h (by rw [hpc]; simp) .incr (by rw [hpc]; rfl) (by rw [hpc]; rfl) ?_
    exact hheld.mp (of_decide_eq_true hcur)
  · next hcur =>
    refine hi.goto h (by rw [hpc]; simp) (.lock .out) (by rw [hpc]; rfl) (by rw [hpc]; rfl) ⟨?_, .inl rfl⟩
    by_contra hne
    exact hcur (decide_eq_true (hheld.mpr (Nat.pos_of_ne_zero hne)))

theorem Inv.incr (hi : Inv s) (h : s.stack t = f :: below) (hpc : f.pc = .incr) :
    Inv (({ s with consoleLockDepth := s.consoleLockDepth + 1 } : Sys).goto t .putc) := by
  obtain ⟨hok, hbelow⟩ := hi.frame h
  have hcount : nesting (s.stack t) = nesting below := by
    rw [h, nesting_cons, hpc]
    rfl
  rw [hpc] at hok
  obtain ⟨value, holder, depth, mine, away⟩ := hi.phase.inside (t := t) (by rw [hcount]; exact hok)
  have hgoto := goto_eq (s := { s with consoleLockDepth := s.consoleLockDepth + 1 }) h .putc
  have hnest : nesting ({ f with pc := .putc } :: below) = nesting below + 1 := nesting_cons _ _
  have hbt : betweens ({ f with pc := .putc } :: below) = 0 := by
    rw [h, betweens_cons, hpc] at mine
    exact mine
  rw [hgoto]
  refine ⟨.held t value holder ?_ ?_ (away_of_ne _ _ away), stackOk_set hi.stack ⟨trivial, hbelow⟩,
    waiters_set hi.waiters (not_asleep h (by rw [hpc]; simp)) _, ⟨hi.output.order, hi.output.calls⟩, hi.failed⟩
  · rw [stack_self, hnest, ← hcount]
    push_cast
    rw [← depth]
    rfl
  · rw [stack_self, hnest, hbt]
    exact ⟨Nat.succ_pos _, rfl⟩

theorem Inv.emit (hi : Inv s) (h : s.stack t = f :: below) (hpc : f.pc = .emit) :
    Inv (emitStep s t f below) := by
  obtain ⟨hok, hbelow⟩ := hi.frame h
  have hne : f.pc ≠ .lock .asleep := by
    rw [hpc]
    simp
  unfold emitStep
  split
  · exact hi.goto h hne .leave (by rw [hpc]; rfl) (by rw [hpc]; rfl) trivial
  · next c rest hrest =>
    have hin : 0 < nesting (s.stack t) := by
      rw [h, nesting_cons, hpc]
      exact Nat.succ_pos _
    obtain ⟨-, holder, -, -, -⟩ := hi.phase.inside hin
    have hlocal : Inv (s.setStack t (⟨.putc, rest⟩ :: below)) := by
      refine hi.local (not_asleep h hne) ⟨trivial, hbelow⟩ ?_ ?_
      · rw [h, nesting_cons, nesting_cons, hpc]
        rfl
      · rw [h, betweens_cons, betweens_cons, hpc]
        rfl
    refine ⟨hlocal.phase.congr rfl rfl rfl fun _ => ⟨rfl, rfl⟩, hlocal.stack, hlocal.waiters, ⟨?_, ?_⟩, hi.failed⟩
    · refine List.pairwise_append.mpr ⟨hi.output.order, List.pairwise_singleton .., ?_⟩
      intro x hx y hy t' n u m hsx hsy
      obtain rfl := List.mem_singleton.mp hy
      obtain ⟨rfl, rfl⟩ := Prod.mk.inj (Option.some.inj hsy)
      obtain ⟨hle, hlast⟩ := hi.output.calls x hx t' n hsx
      exact ⟨hle, fun he => hlast he _ holder⟩
    · intro x hx t' n hsx
      rcases List.mem_append.mp hx with hx | hx
      · exact hi.output.calls x hx t' n hsx
      · obtain rfl := List.mem_singleton.mp hx
        obtain ⟨rfl, rfl⟩ := Prod.mk.inj (Option.some.inj hsx)
        refine ⟨Nat.le_refl _, fun _ u hu => ?_⟩
        exact Option.some.inj (holder.symm.trans hu)

theorem Inv.depth (hi : Inv s) (h : s.stack t = f :: below) (hpc : f.pc = .depth) :
    Inv (s.goto t (if 0 < s.consoleLockDepth then .decr else .unlock .held)) := by
  have hcount : nesting (s.stack t) = nesting below + 1 := by
    rw [h, nesting_cons, hpc]
    rfl
  obtain ⟨-, -, depth, -, -⟩ := hi.phase.inside (t := t) (by rw [hcount]; exact Nat.succ_pos _)
  rw [hcount] at depth
  have hne : f.pc ≠ .lock .asleep := by
    rw [hpc]
    simp
  split
  · refine hi.goto h hne .decr (by rw [hpc]; rfl) (by rw [hpc]; rfl) ?_
    show 0 < nesting below
    omega
  · refine hi.goto h hne (.unlock .held) (by rw [hpc]; rfl) (by rw [hpc]; rfl) ⟨?_, .inl rfl⟩
    omega

theorem Inv.decr (hi : Inv s) (h : s.stack t = f :: below) (hpc : f.pc = .decr) :
    Inv (({ s with consoleLockDepth := s.consoleLockDepth - 1 } : Sys).ret t) := by
  obtain ⟨hok, hbelow⟩ := hi.frame h
  have hcount : nesting (s.stack t) = nesting below + 1 := by
    rw [h, nesting_cons, hpc]
    rfl
  obtain ⟨value, holder, depth, mine, away⟩ := hi.phase.inside (t := t) (by rw [hcount]; exact Nat.succ_pos _)
  rw [hcount] at depth
  rw [h, betweens_cons, hpc] at mine
  rw [hpc] at hok
  have hret := ret_eq (s := { s with consoleLockDepth := s.consoleLockDepth - 1 }) h
  rw [hret]
  refine ⟨.held t value holder ?_ ?_ (away_of_ne _ _ away), stackOk_set hi.stack hbelow,
    waiters_set hi.waiters (not_asleep h (by rw [hpc]; simp)) _, ⟨hi.output.order, hi.output.calls⟩, hi.failed⟩
  · rw [stack_self]
    push_cast at depth
    show s.consoleLockDepth - 1 + 1 = _
    omega
  · rw [stack_self]
    exact ⟨hok, mine⟩

/-! ## The lock -/

theorem lock_held (hi : Inv s) : lockHeldByCurrentThread s.consoleLock t = true ↔ 0 < nesting (s.stack t) := by
  rw [lockHeldByCurrentThread, decide_eq_true_iff]
  exact hi.phase.holder_iff t

/-- One pass of `sema_down` in `lock_acquire`. -/
theorem Inv.acquireDown {p : LockPc} (hi : Inv s) (h : s.stack t = f :: below) (hpc : f.pc = .lock p)
    (hp : p = .acquire ∨ p = .woken) (hnone : nesting below = 0) (hs : acquireStep s t p = some s') :
    Inv s' := by
  obtain ⟨-, hbelow⟩ := hi.frame h
  have hplace : p ≠ .out ∧ f.pc ≠ .lock .asleep ∧ f.pc.inside = false ∧ f.pc.between = false := by
    rw [hpc]
    rcases hp with rfl | rfl <;> exact ⟨by simp, by simp, rfl, rfl⟩
  have hawake := not_asleep h hplace.2.1
  unfold acquireStep at hs
  rw [if_neg hplace.1] at hs
  cases hdown : semaDown s.consoleLock.semaphore t with
  | pass x =>
    have hnext : lockNext s.consoleLock t p = some (⟨s.consoleLock.holder, x⟩, .taken, none) := by
      rcases hp with rfl | rfl <;> simp only [lockNext, hdown]
    rw [hnext] at hs
    dsimp only at hs
    rw [if_neg (by decide)] at hs
    cases hs
    obtain ⟨hpos, rfl⟩ := semaDown_pass hdown
    cases hi.phase with
    | held v value => omega
    | between v value => omega
    | free value holder depth away =>
      have haway := away t
      rw [h, Away, nesting_cons, betweens_cons, hplace.2.2.1, hplace.2.2.2] at haway
      have hn : nesting ({ f with pc := .lock .taken } :: below) = 0 := by
        rw [nesting_cons, hnone]
        rfl
      have hb : betweens ({ f with pc := .lock .taken } :: below) = 1 := by
        rw [betweens_cons]
        exact congrArg (· + 1) (show betweens below = 0 from haway.2)
      let s1 : Sys := { s with consoleLock := ⟨s.consoleLock.holder,
        { s.consoleLock.semaphore with value := s.consoleLock.semaphore.value - 1 }⟩ }
      have hgoto := goto_eq (s := s1) h (.lock .taken)
      show Inv (s1.goto t (.lock .taken))
      rw [hgoto]
      refine ⟨.between t ?_ holder depth ?_ (away_of_ne _ _ fun u _ => away u),
        stackOk_set hi.stack ⟨⟨hnone, by simp⟩, hbelow⟩, waiters_set (s := s1) hi.waiters hawake _,
        ⟨hi.output.order, hi.output.calls⟩, hi.failed⟩
      · show s.consoleLock.semaphore.value - 1 = 0
        omega
      · rw [stack_self]
        exact ⟨hn, hb⟩
  | block x =>
    have hnext : lockNext s.consoleLock t p = some (⟨s.consoleLock.holder, x⟩, .asleep, none) := by
      rcases hp with rfl | rfl <;> simp only [lockNext, hdown]
    rw [hnext] at hs
    dsimp only at hs
    rw [if_neg (by decide)] at hs
    cases hs
    obtain ⟨-, ws, hws, rfl⟩ := semaDown_block hdown
    obtain ⟨ws', hws', hnd, hall⟩ := hi.waiters
    obtain rfl : ws = ws' := Option.some.inj (hws.symm.trans hws')
    have hlocal : Inv (s.goto t (.lock .asleep)) :=
      hi.goto h hplace.2.1 _ hplace.2.2.1.symm hplace.2.2.2.symm ⟨hnone, by simp⟩
    let s1 : Sys := { s with consoleLock := ⟨s.consoleLock.holder,
      { s.consoleLock.semaphore with waiters := some (ws ++ [t]) }⟩ }
    have hgoto := goto_eq h (.lock .asleep)
    have hgoto1 := goto_eq (s := s1) h (.lock .asleep)
    rw [hgoto] at hlocal
    show Inv (s1.goto t (.lock .asleep))
    rw [hgoto1]
    refine ⟨hlocal.phase.congr rfl rfl rfl fun _ => ⟨rfl, rfl⟩, hlocal.stack, ⟨ws ++ [t], rfl, ?_, fun u hu => ?_⟩,
      ⟨hi.output.order, hi.output.calls⟩, hi.failed⟩
    · have hnot : t ∉ ws := fun hmem => hawake (hall t hmem)
      exact List.nodup_append.mpr ⟨hnd, List.nodup_singleton t, by
        rintro a ha b hb rfl
        exact hnot (List.mem_singleton.mp hb ▸ ha)⟩
    · by_cases hut : u = t
      · rw [hut, stack_self]
        rfl
      · rw [stack_of_ne s1 _ hut]
        exact hall u ((List.mem_append.mp hu).resolve_right fun hmem => hut (List.mem_singleton.mp hmem))
  | fault =>
    have hnext : lockNext s.consoleLock t p = none := by
      rcases hp with rfl | rfl <;> simp only [lockNext, hdown]
    rw [hnext] at hs
    cases hs

/-- The store to `holder` in `lock_acquire`: an outermost call begins. -/
theorem Inv.acquireTaken (hi : Inv s) (h : s.stack t = f :: below) (hpc : f.pc = .lock .taken)
    (hnone : nesting below = 0) (hs : acquireStep s t .taken = some s') : Inv s' := by
  obtain ⟨-, hbelow⟩ := hi.frame h
  have hb : betweens (s.stack t) = betweens below + 1 := by
    rw [h, betweens_cons, hpc]
    rfl
  obtain ⟨value, holder, depth, -, mine, away⟩ := hi.phase.taken (t := t) (by rw [hb]; exact Nat.succ_pos _)
  rw [hb] at mine
  let s1 : Sys := { s with consoleLock := ⟨some t, s.consoleLock.semaphore⟩, calls := s.calls + 1 }
  have hgoto := goto_eq (s := s1) h .putc
  obtain rfl : s1.goto t .putc = s' := Option.some.inj hs
  rw [hgoto]
  have hn : nesting ({ f with pc := .putc } :: below) = 1 := by
    rw [nesting_cons, hnone]
    rfl
  have hb : betweens ({ f with pc := .putc } :: below) = 0 := by
    rw [betweens_cons]
    show betweens below + 0 = 0
    omega
  refine ⟨.held t value rfl ?_ ?_ (away_of_ne _ _ away), stackOk_set hi.stack ⟨trivial, hbelow⟩,
    waiters_set (s := s1) hi.waiters (not_asleep h (by rw [hpc]; simp)) _, ⟨hi.output.order, ?_⟩, hi.failed⟩
  · rw [stack_self, hn]
    show s.consoleLockDepth + 1 = 1
    rw [depth]
    rfl
  · rw [stack_self, hn]
    exact ⟨Nat.one_pos, hb⟩
  · intro x hx t' n hsx
    have hle : n ≤ s.calls := (hi.output.calls x hx t' n hsx).1
    exact ⟨Nat.le_succ_of_le hle, fun he => absurd (he ▸ hle) (Nat.not_succ_le_self _)⟩

theorem Inv.acquire {p : LockPc} (hi : Inv s) (h : s.stack t = f :: below) (hpc : f.pc = .lock p)
    (hs : acquireStep s t p = some s') : Inv s' := by
  obtain ⟨hok, -⟩ := hi.frame h
  rw [hpc] at hok
  obtain ⟨hnone, hp⟩ := hok
  rcases hp with rfl | rfl | rfl | rfl | rfl
  · -- the ASSERT
    have hcount : nesting (s.stack t) = 0 := by
      rw [h, nesting_cons, hpc, hnone]
      rfl
    have hnot : ¬ lockHeldByCurrentThread s.consoleLock t = true := by
      rw [lock_held hi, hcount]
      exact Nat.lt_irrefl 0
    unfold acquireStep at hs
    simp only [lockEnter, if_neg hnot, ↓reduceIte] at hs
    cases hs
    exact hi.goto h (by rw [hpc]; simp) (.lock .acquire) (by rw [hpc]; rfl) (by rw [hpc]; rfl)
      ⟨hnone, .inr (.inl rfl)⟩
  · exact hi.acquireDown h hpc (.inl rfl) hnone hs
  · cases hs
  · exact hi.acquireDown h hpc (.inr rfl) hnone hs
  · exact hi.acquireTaken h hpc hnone hs

/-- A thread is unblocked. -/
theorem Inv.wake (hi : Inv s) (hu : asleep (s.stack u))
    (hnot : ∀ ws, s.consoleLock.semaphore.waiters = some ws → u ∉ ws) : Inv (s.wake (some u)) := by
  obtain ⟨ws, hws, hnd, hall⟩ := hi.waiters
  cases h : s.stack u with
  | nil =>
    rw [h] at hu
    cases hu
  | cons f below =>
    rw [h] at hu
    have hpc : f.pc = .lock .asleep := Option.some.inj hu
    obtain ⟨hok, hbelow⟩ := hi.frame h
    rw [hpc] at hok
    have hgoto := goto_eq h (.lock .woken)
    show Inv (s.goto u (.lock .woken))
    rw [hgoto]
    refine ⟨hi.phase.congr rfl rfl rfl fun v => ?_, stackOk_set hi.stack ⟨⟨hok.1, by simp⟩, hbelow⟩,
      ⟨ws, hws, hnd, fun v hv => ?_⟩, ⟨hi.output.order, hi.output.calls⟩, hi.failed⟩
    · by_cases hvu : v = u
      · rw [hvu, stack_self, h, nesting_cons, nesting_cons, betweens_cons, betweens_cons, hpc]
        exact ⟨rfl, rfl⟩
      · rw [stack_of_ne s _ hvu]
        exact ⟨rfl, rfl⟩
    · have hvu : v ≠ u := by
        rintro rfl
        exact hnot ws hws hv
      rw [stack_of_ne s _ hvu]
      exact hall v hv

/-- `sema_up` in `lock_release`: the outermost call returns. -/
theorem Inv.releaseUp (hi : Inv s) (h : s.stack t = f :: below) (hpc : f.pc = .unlock .cleared)
    (hnone : nesting below = 0) (hs : releaseStep s t .cleared = some s') : Inv s' := by
  obtain ⟨-, hbelow⟩ := hi.frame h
  have hb : betweens (s.stack t) = betweens below + 1 := by
    rw [h, betweens_cons, hpc]
    rfl
  obtain ⟨value, holder, depth, -, mine, away⟩ := hi.phase.taken (t := t) (by rw [hb]; exact Nat.succ_pos _)
  rw [hb] at mine
  obtain ⟨ws, hws, hnd, hall⟩ := hi.waiters
  have hawake := not_asleep h (show f.pc ≠ .lock .asleep by rw [hpc]; simp)
  have hother : ∀ u ∈ ws, u ≠ t := by
    rintro u hu rfl
    exact hawake (hall u hu)
  let s1 : Sys := { s with consoleLock := ⟨s.consoleLock.holder, ⟨1, some ws.tail⟩⟩ }
  have hret := ret_eq (s := s1) h
  have hfree : Inv (s1.setStack t below) := by
    refine ⟨.free rfl holder depth fun u => ?_, stackOk_set hi.stack hbelow,
      ⟨ws.tail, rfl, hnd.sublist (List.tail_sublist ws), fun u hu => ?_⟩,
      ⟨hi.output.order, hi.output.calls⟩, hi.failed⟩
    · by_cases hut : u = t
      · rw [hut, stack_self]
        exact ⟨hnone, by omega⟩
      · rw [stack_of_ne s1 _ hut]
        exact away u hut
    · have hmem := List.mem_of_mem_tail hu
      rw [stack_of_ne s1 _ (hother u hmem)]
      exact hall u hmem
  have hup : semaUp s.consoleLock.semaphore = some (⟨1, some ws.tail⟩, ws.head?) := by
    unfold semaUp
    rw [hws, value]
    cases ws <;> rfl
  have hrun : releaseStep s t .cleared = some ((s1.ret t).wake ws.head?) := by
    unfold releaseStep
    simp only [lockNext, hup]
    rfl
  rw [hrun, hret] at hs
  obtain rfl := Option.some.inj hs
  cases ws with
  | nil => exact hfree
  | cons u ws =>
    refine hfree.wake ?_ fun ws' hws' => ?_
    · rw [stack_of_ne s1 _ (hother u (List.mem_cons_self ..))]
      exact hall u (List.mem_cons_self ..)
    · obtain rfl : ws = ws' := Option.some.inj hws'
      exact (List.nodup_cons.mp hnd).1

theorem Inv.release {p : LockPc} (hi : Inv s) (h : s.stack t = f :: below) (hpc : f.pc = .unlock p)
    (hs : releaseStep s t p = some s') : Inv s' := by
  obtain ⟨hok, hbelow⟩ := hi.frame h
  rw [hpc] at hok
  obtain ⟨hnone, hp⟩ := hok
  have hne : f.pc ≠ .lock .asleep := by
    rw [hpc]
    simp
  rcases hp with rfl | rfl | rfl
  · -- the ASSERT
    have hheld : lockHeldByCurrentThread s.consoleLock t = true := by
      rw [lock_held hi, h, nesting_cons, hpc]
      exact Nat.succ_pos _
    unfold releaseStep at hs
    simp only [lockEnter, if_pos hheld, ↓reduceIte] at hs
    cases hs
    exact hi.goto h hne (.unlock .release) (by rw [hpc]; rfl) (by rw [hpc]; rfl) ⟨hnone, .inr (.inl rfl)⟩
  · -- the store to the holder
    have hcount : nesting (s.stack t) = 1 := by
      rw [h, nesting_cons, hpc, hnone]
      rfl
    obtain ⟨value, -, depth, mine, away⟩ := hi.phase.inside (t := t) (by rw [hcount]; exact Nat.one_pos)
    rw [hcount] at depth
    rw [h, betweens_cons, hpc] at mine
    let s1 : Sys := { s with consoleLock := ⟨none, s.consoleLock.semaphore⟩ }
    have hgoto := goto_eq (s := s1) h (.unlock .cleared)
    obtain rfl : s1.goto t (.unlock .cleared) = s' := Option.some.inj hs
    rw [hgoto]
    have hb : betweens ({ f with pc := .unlock .cleared } :: below) = 1 := by
      rw [betweens_cons]
      show betweens below + 1 = 1
      exact congrArg (· + 1) mine
    have hn : nesting ({ f with pc := .unlock .cleared } :: below) = 0 := by
      rw [nesting_cons, hnone]
      rfl
    refine ⟨.between t value rfl ?_ ?_ (away_of_ne _ _ away), stackOk_set hi.stack ⟨⟨hnone, by simp⟩, hbelow⟩,
      waiters_set (s := s1) hi.waiters (not_asleep h hne) _, ⟨hi.output.order, ?_⟩, hi.failed⟩
    · show s.consoleLockDepth = 0
      omega
    · rw [stack_self]
      exact ⟨hn, hb⟩
    · intro x hx t' n hsx
      refine ⟨(hi.output.calls x hx t' n hsx).1, fun _ u hu => ?_⟩
      cases hu
  · exact hi.releaseUp h hpc hnone hs

/-! ## Runs -/

theorem Inv.next (hi : Inv s) (huse : s.useConsoleLock = true) (hs : nextStep s t = some s') : Inv s' := by
  unfold nextStep at hs
  split at hs
  · cases hs
  · next f below h =>
    have hgoto : ∀ pc, f.pc.inside = pc.inside → f.pc.between = pc.between → (∀ n, FrameOk pc n) →
        f.pc ≠ .lock .asleep → Inv (s.goto t pc) :=
      fun pc hin hbt hok hne => hi.goto h hne pc hin.symm hbt.symm (hok _)
    have hheld : f.pc.inside = true → lockHeldByCurrentThread s.consoleLock t = true := by
      intro hin
      rw [lock_held hi, h, nesting_cons, if_pos hin]
      exact Nat.succ_pos _
    cases hpc : f.pc with
    | enter =>
      rw [hpc] at hs hgoto
      dsimp only at hs
      rw [if_pos huse] at hs
      cases hs
      exact hgoto .test rfl rfl (fun _ => trivial) (by simp)
    | test =>
      rw [hpc] at hs
      cases hs
      exact hi.test h hpc
    | incr =>
      rw [hpc] at hs
      cases hs
      exact hi.incr h hpc
    | lock p =>
      rw [hpc] at hs
      exact hi.acquire h hpc hs
    | putc =>
      rw [hpc] at hs hgoto hheld
      dsimp only at hs
      have hlocked : consoleLockedByCurrentThread s t = true := by
        rw [consoleLockedByCurrentThread, hheld rfl, Bool.or_true]
      rw [if_pos hlocked] at hs
      split at hs
      · cases hs
        exact hgoto .leave rfl rfl (fun _ => trivial) (by simp)
      · cases hs
        exact hgoto .emit rfl rfl (fun _ => trivial) (by simp)
    | emit =>
      rw [hpc] at hs
      cases hs
      exact hi.emit h hpc
    | leave =>
      rw [hpc] at hs hgoto
      dsimp only at hs
      rw [if_pos huse] at hs
      cases hs
      exact hgoto .depth rfl rfl (fun _ => trivial) (by simp)
    | depth =>
      rw [hpc] at hs
      cases hs
      exact hi.depth h hpc
    | decr =>
      rw [hpc] at hs
      cases hs
      exact hi.decr h hpc
    | unlock p =>
      rw [hpc] at hs
      exact hi.release h hpc hs

end

/-! ## What a statement leaves alone -/

section

variable {s s' : Sys} {t : Tid}

@[simp] theorem goto_use (s : Sys) (t : Tid) (pc : Pc) :
    (s.goto t pc).useConsoleLock = s.useConsoleLock := by
  unfold Sys.goto
  split <;> rfl

@[simp] theorem goto_lock (s : Sys) (t : Tid) (pc : Pc) : (s.goto t pc).consoleLock = s.consoleLock := by
  unfold Sys.goto
  split <;> rfl

@[simp] theorem ret_use (s : Sys) (t : Tid) : (s.ret t).useConsoleLock = s.useConsoleLock := rfl

@[simp] theorem ret_lock (s : Sys) (t : Tid) : (s.ret t).consoleLock = s.consoleLock := rfl

@[simp] theorem wake_use (s : Sys) (w : Option Tid) : (s.wake w).useConsoleLock = s.useConsoleLock := by
  cases w
  · rfl
  · exact goto_use ..

@[simp] theorem wake_lock (s : Sys) (w : Option Tid) : (s.wake w).consoleLock = s.consoleLock := by
  cases w
  · rfl
  · exact goto_lock ..

theorem lockNext_holder {l l' : Lock} {p p' : LockPc} {w : Option Tid}
    (h : lockNext l t p = some (l', p', w)) : l'.holder = l.holder ∨ p = .taken ∨ p = .release := by
  cases p with
  | taken => exact .inr (.inl rfl)
  | release => exact .inr (.inr rfl)
  | acquire | woken | tryAcquire | cleared =>
    simp only [lockNext] at h
    split at h <;> cases h <;> exact .inl rfl
  | out | held | asleep => cases h

/-- Statements change neither `use_console_lock` nor, but for two of them, the holder. -/
def Leaves (s s' : Sys) (p : LockPc) : Prop :=
  s'.useConsoleLock = s.useConsoleLock ∧
    (s'.consoleLock.holder = s.consoleLock.holder ∨ p = .taken ∨ p = .release)

theorem acquireStep_leaves {p : LockPc} (hs : acquireStep s t p = some s') : Leaves s s' p := by
  unfold acquireStep at hs
  split at hs
  · split at hs <;> cases hs
    · exact ⟨goto_use .., .inl (by rw [goto_lock])⟩
    · exact ⟨rfl, .inl rfl⟩
  · split at hs
    · next l p' w hn =>
      cases hs
      have hh := lockNext_holder hn
      split
      · exact ⟨by simp, by simpa using hh⟩
      · exact ⟨by simp, by simpa using hh⟩
    · cases hs

theorem releaseStep_leaves {p : LockPc} (hs : releaseStep s t p = some s') : Leaves s s' p := by
  unfold releaseStep at hs
  split at hs
  · split at hs <;> cases hs
    · exact ⟨goto_use .., .inl (by rw [goto_lock])⟩
    · exact ⟨rfl, .inl rfl⟩
  · split at hs
    · next l p' w hn =>
      cases hs
      have hh := lockNext_holder hn
      split
      · exact ⟨by simp, by simpa using hh⟩
      · exact ⟨by simp, by simpa using hh⟩
    · cases hs

theorem nextStep_leaves (hs : nextStep s t = some s') : ∃ f below p, s.stack t = f :: below ∧
    (f.pc = .lock p ∨ f.pc = .unlock p ∨ p = .out) ∧ Leaves s s' p := by
  unfold nextStep at hs
  split at hs
  · cases hs
  · next f below h =>
    cases hpc : f.pc with
    | lock p =>
      rw [hpc] at hs
      exact ⟨f, below, p, h, .inl hpc, acquireStep_leaves hs⟩
    | unlock p =>
      rw [hpc] at hs
      exact ⟨f, below, p, h, .inr (.inl hpc), releaseStep_leaves hs⟩
    | enter | test | incr | depth | decr =>
      rw [hpc] at hs
      cases hs
      exact ⟨f, below, .out, h, .inr (.inr rfl), by simp, .inl (by simp)⟩
    | putc =>
      rw [hpc] at hs
      dsimp only at hs
      refine ⟨f, below, .out, h, .inr (.inr rfl), ?_⟩
      split at hs
      · cases hs
        exact ⟨by simp, .inl (by simp)⟩
      · split at hs <;> cases hs
        · exact ⟨by simp, .inl (by simp)⟩
        · exact ⟨rfl, .inl rfl⟩
    | emit =>
      rw [hpc] at hs
      cases hs
      refine ⟨f, below, .out, h, .inr (.inr rfl), ?_⟩
      unfold emitStep
      split
      · exact ⟨by simp, .inl (by simp)⟩
      · exact ⟨rfl, .inl rfl⟩
    | leave =>
      rw [hpc] at hs
      cases hs
      refine ⟨f, below, .out, h, .inr (.inr rfl), ?_⟩
      split
      · exact ⟨by simp, .inl (by simp)⟩
      · exact ⟨rfl, .inl rfl⟩

/-! ## Runs -/

/-- **One step**, as long as the lock is used. -/
theorem consoleStep_inv {a : Label} (hi : s.useConsoleLock = true → Inv s) (hs : consoleStep s a = some s')
    (huse : s'.useConsoleLock = true) : Inv s' := by
  unfold consoleStep at hs
  split at hs
  · cases hs
  · cases a with
    | call t c =>
      dsimp only at hs
      split at hs
      · cases hs
      · next ht =>
        cases hs
        have hi := hi huse
        refine hi.local ht ⟨trivial, hi.stack t⟩ ?_ ?_
        · rw [nesting_cons]
          rfl
        · rw [betweens_cons]
          rfl
    | next t =>
      obtain ⟨-, -, -, -, -, hsame, -⟩ := nextStep_leaves hs
      rw [hsame] at huse
      exact (hi huse).next huse hs
    | interrupt c =>
      cases hs
      have hi := hi huse
      have hnone : ∀ x ∈ c.chars.map (Output.mk none), x.source = none := by
        intro x hx
        obtain ⟨_, -, rfl⟩ := List.mem_map.mp hx
        rfl
      refine ⟨hi.phase.congr rfl rfl rfl fun _ => ⟨rfl, rfl⟩, hi.stack, hi.waiters, ⟨?_, ?_⟩, hi.failed⟩
      · refine List.pairwise_append.mpr ⟨hi.output.order, ?_, ?_⟩
        · refine List.pairwise_of_forall_mem_list fun x hx y hy t n u m hsx => ?_
          rw [hnone x hx] at hsx
          cases hsx
        · intro x hx y hy t n u m hsx hsy
          rw [hnone y hy] at hsy
          cases hsy
      · intro x hx t n hsx
        rcases List.mem_append.mp hx with hx | hx
        · exact hi.output.calls x hx t n hsx
        · rw [hnone x hx] at hsx
          cases hsx
    | consolePanic =>
      cases hs
      cases huse

theorem inv_of_reach (h : Reach consoleStep Free consoleStart s) (huse : s.useConsoleLock = true) : Inv s := by
  have hrun : s.useConsoleLock = true → Inv s :=
    h.invariant (fun _ => .start) fun _ _ _ hi _ hs => consoleStep_inv hi hs
  exact hrun huse

/-- What holds of the console as long as its lock is used. -/
structure Consistent (s : Sys) : Prop where
  depth : ∀ t, s.consoleLock.holder = some t → s.consoleLockDepth = nesting (s.stack t) - 1
  free : s.consoleLock.holder = none → s.consoleLockDepth = 0
  /-- The lock is held by a thread as long as a call of it is inside. -/
  holder : ∀ t, s.consoleLock.holder = some t ↔ 0 < nesting (s.stack t)
  /-- No ASSERT has failed. -/
  asserts : s.failed = false
  /-- Between two characters of one outermost call there is none of another thread. -/
  unmixed : ∀ (i j k : Nat) (x y z : Output), i < j → j < k → s.output[i]? = some x →
    s.output[j]? = some y → s.output[k]? = some z → ∀ t n u m, x.source = some (t, n) → z.source = some (t, n) →
      y.source = some (u, m) → u = t

theorem Inv.consistent (hi : Inv s) : Consistent s where
  depth t ht := by
    obtain ⟨-, -, depth, -, -⟩ := hi.phase.inside ((hi.phase.holder_iff t).mp ht)
    omega
  free hnone := by
    cases hi.phase with
    | free _ _ depth => exact depth
    | between _ _ _ depth => exact depth
    | held v _ holder =>
      rw [holder] at hnone
      cases hnone
  holder := hi.phase.holder_iff
  asserts := hi.failed
  unmixed i j k x y z hij hjk hx hy hz t n u m hsx hsz hsy := by
    obtain ⟨hj, rfl⟩ := List.getElem?_eq_some_iff.mp hy
    obtain ⟨hi', rfl⟩ := List.getElem?_eq_some_iff.mp hx
    obtain ⟨hk, rfl⟩ := List.getElem?_eq_some_iff.mp hz
    have hpair := List.pairwise_iff_getElem.mp hi.output.order
    have h1 := hpair i j hi' hj hij t n u m hsx hsy
    have h2 := hpair j k hj hk hjk u m t n hsy hsz
    exact h2.2 (Nat.le_antisymm h2.1 h1.1)

/-- The statement that clears `holder` in the `lock_release` of an outermost call of `t`. -/
def OutermostRelease (s : Sys) (a : Label) (t : Tid) : Prop :=
  a = .next t ∧ ∃ f below, s.stack t = f :: below ∧ f.pc = .unlock .release ∧ nesting below = 0

/-- The holder gives the lock up in the release of its outermost call, and there it does. -/
theorem Inv.released_iff {a : Label} (hi : Inv s) (hs : consoleStep s a = some s')
    (ht : s.consoleLock.holder = some t) :
    s'.consoleLock.holder ≠ some t ↔ OutermostRelease s a t := by
  unfold consoleStep at hs
  rw [hi.failed, if_neg Bool.false_ne_true] at hs
  have hno : s'.consoleLock.holder = s.consoleLock.holder → (∀ u, a ≠ .next u) →
      (s'.consoleLock.holder ≠ some t ↔ OutermostRelease s a t) :=
    fun he hne => iff_of_false (fun h => h (he.trans ht)) fun h => hne t h.1
  cases a with
  | call u c =>
    dsimp only at hs
    split at hs <;> cases hs
    exact hno rfl fun _ => by simp
  | interrupt c =>
    cases hs
    exact hno rfl fun _ => by simp
  | consolePanic =>
    cases hs
    exact hno rfl fun _ => by simp
  | next u =>
    constructor
    · intro hne
      obtain ⟨f, below, p, h, hpc, -, hh⟩ := nextStep_leaves hs
      have hp := hh.resolve_left fun he => hne (he.trans ht)
      have hout : p ≠ .out := by
        rcases hp with rfl | rfl <;> simp
      obtain ⟨hok, -⟩ := hi.frame h
      have hmine : 0 < nesting (s.stack t) := (hi.phase.holder_iff t).mp ht
      obtain ⟨-, -, -, hbt, haway⟩ := hi.phase.inside hmine
      rcases hpc with hpc | hpc | hpc
      · rw [hpc] at hok
        rcases hp with rfl | rfl
        · -- a thread between the semaphore and the store excludes a holder
          have hpos : 0 < betweens (s.stack u) := by
            rw [h, betweens_cons, hpc]
            exact Nat.succ_pos _
          obtain ⟨-, hnone, -⟩ := hi.phase.taken hpos
          rw [ht] at hnone
          cases hnone
        · simp [FrameOk] at hok
      · rw [hpc] at hok
        rcases hp with rfl | rfl
        · simp [FrameOk] at hok
        · have hin : 0 < nesting (s.stack u) := by
            rw [h, nesting_cons, hpc]
            exact Nat.succ_pos _
          obtain rfl : u = t := by
            by_contra hut
            exact absurd (haway u hut).1 (Nat.ne_of_gt hin)
          exact ⟨rfl, f, below, h, hpc, hok.1⟩
      · exact absurd hpc hout
    · rintro ⟨hu, f, below, h, hpc, -⟩
      obtain rfl : u = t := by cases hu; rfl
      have hrun : nextStep s u = some (({ s with consoleLock := ⟨none, s.consoleLock.semaphore⟩ } : Sys).goto u
          (.unlock .cleared)) := by
        unfold nextStep
        rw [h]
        dsimp only
        rw [hpc]
        rfl
      obtain rfl := Option.some.inj (hrun.symm.trans hs)
      rw [goto_lock]
      simp

/-- **The console lock**: in every interleaving of threads, of their nested calls and of interrupt
handlers, as long as `use_console_lock` is true, the depth counts the nesting of the holder's calls,
the lock is released exactly in an outermost release, no ASSERT fails and the characters of outermost
calls are not mixed. -/
theorem console_lock_works (h : Reach consoleStep Free consoleStart s) (huse : s.useConsoleLock = true) :
    Consistent s ∧ ∀ a s' t, consoleStep s a = some s' → s.consoleLock.holder = some t →
      (s'.consoleLock.holder ≠ some t ↔ OutermostRelease s a t) :=
  have hi := inv_of_reach h huse
  ⟨hi.consistent, fun _ _ _ hs ht => hi.released_iff hs ht⟩

end

/-- Thread 1 calls `puts` in the middle of its `putchar`, and thread 2 waits. -/
def nestedLabels : List Label :=
  ([Label.call 1 (.putchar 'a')] : List Label) ++ List.replicate 6 (Label.next 1) ++
    [Label.call 2 (.putchar 'c')] ++ List.replicate 4 (Label.next 2) ++ [Label.call 1 (.puts ['b'])] ++
    List.replicate 5 (Label.next 1) ++ [Label.interrupt (.putchar 'i')]

theorem nested_calls : ∃ s, runFrom consoleStep consoleStart nestedLabels = some s ∧
    s.output.map Output.char = ['b', 'i'] ∧ s.consoleLock.holder = some 1 ∧ nesting (s.stack 1) = 2 ∧
    s.consoleLockDepth = 1 ∧ Consistent s :=
  ⟨_, rfl, rfl, rfl, rfl, rfl, (console_lock_works (reach_of_run nestedLabels rfl) rfl).1⟩

end Pintos.Kernel.Console
