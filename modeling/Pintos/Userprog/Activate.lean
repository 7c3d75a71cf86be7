import Pintos.Base.Reach
import Mathlib.Logic.Function.Basic
import Mathlib.Tactic.Common

/-!
# Page directories and thread switches (userprog/process.c, userprog/tss.c, threads/thread.c)

The statements of `load` and `process_exit` that change the page directory of a thread or the one in
use, with a switch of threads before any of them. `schedule_tail` runs with interrupts off and is one
step with the switch. A thread is the address of its page, a directory that of its own; the base page
directory is `none`.
-/

namespace Pintos.Userprog.Activate

open Pintos.Base

abbrev Thread := Nat

abbrev Dir := Nat

/-- Where a thread stands. -/
inductive Pc where
  /-- A thread of the kernel, or one that has yet to load its program. -/
  | kernel
  /-- `load`, past `t->pagedir = pagedir_create ()`. -/
  | created
  /-- `process_activate`, with the argument of `pagedir_activate`. -/
  | activating (pd : Option Dir)
  /-- Before `tss_update`. -/
  | activated
  /-- In `load` from there on, or in the program or a system call of it. -/
  | process
  /-- `process_exit`, past `pd = cur->pagedir`. -/
  | leaving (pd : Dir)
  /-- Past `cur->pagedir = NULL`. -/
  | cleared (pd : Dir)
  /-- Past `pagedir_activate (NULL)`. -/
  | detached (pd : Dir)
  /-- Behind `process_exit`. -/
  | done
  deriving DecidableEq, Repr

structure Th where
  pc : Pc
  pagedir : Option Dir
  deriving DecidableEq, Repr

structure Sys where
  cur : Thread
  thread : Thread → Option Th
  /-- The page directories that `pagedir_create` has returned and `pagedir_destroy` has not freed. -/
  live : Dir → Bool
  /-- The directory in CR3. -/
  cr3 : Option Dir
  /-- The kernel stack in the TSS. -/
  esp0 : Nat

inductive Act where
  | create (t : Thread)
  /-- `schedule`, `switch_threads` and `schedule_tail`. -/
  | switch (next : Thread)
  /-- `t->pagedir = pagedir_create ()`, which returns NULL when there is no page. -/
  | pagedirCreate (pd : Option Dir)
  /-- `process_exit` begins. -/
  | exit
  /-- The next statement. -/
  | statement

def pgSize : Nat := 4096

namespace Sys

def setCur (s : Sys) (th : Th) : Sys := { s with thread := Function.update s.thread s.cur (some th) }

/-- `none`: the step is not enabled, or a directory would be freed that is not there. -/
def statement (s : Sys) (th : Th) : Option Sys :=
  match th.pc with
  | .created => some (s.setCur { th with pc := .activating th.pagedir })
  | .activating pd => some { s.setCur { th with pc := .activated } with cr3 := pd }
  | .activated => some { s.setCur { th with pc := .process } with esp0 := s.cur + pgSize }
  | .leaving pd => some (s.setCur ⟨.cleared pd, none⟩)
  | .cleared pd => some { s.setCur { th with pc := .detached pd } with cr3 := none }
  | .detached pd =>
    if s.live pd then
      some { s.setCur { th with pc := .done } with live := Function.update s.live pd false }
    else none
  | .kernel | .process | .done => none

def exit (s : Sys) (th : Th) : Option Sys :=
  if th.pc = .kernel ∨ th.pc = .process then
    match th.pagedir with
    | none => some (s.setCur { th with pc := .done })
    | some pd => some (s.setCur { th with pc := .leaving pd })
  else none

def pagedirCreate (s : Sys) (th : Th) (pd : Option Dir) : Option Sys :=
  if th.pc = .kernel then
    match pd with
    | none => some s
    | some pd =>
      -- A page that is in use is not returned.
      if s.live pd then none
      else some { s.setCur ⟨.created, some pd⟩ with live := Function.update s.live pd true }
  else none

/-- The thread that was switched from is freed when it is dying. -/
def switch (s : Sys) (th : Th) (next : Thread) : Option Sys :=
  match s.thread next with
  | some n =>
    if n.pc = .done then none
    else some { s with
      cur := next
      thread := if th.pc = .done then Function.update s.thread s.cur none else s.thread
      cr3 := n.pagedir
      esp0 := next + pgSize }
  | none => none

end Sys

def step (s : Sys) : Act → Option Sys
  | .create t =>
    if s.thread t = none then some { s with thread := Function.update s.thread t (some ⟨.kernel, none⟩) }
    else none
  | .switch next => (s.thread s.cur).bind fun th => s.switch th next
  | .pagedirCreate pd => (s.thread s.cur).bind fun th => s.pagedirCreate th pd
  | .exit => (s.thread s.cur).bind s.exit
  | .statement => (s.thread s.cur).bind s.statement

/-- After `tss_init`. -/
def start (t : Thread) : Sys where
  cur := t
  thread := Function.update (fun _ => none) t (some ⟨.kernel, none⟩)
  live _ := false
  cr3 := none
  esp0 := t + pgSize

/-! ## The invariant -/

/-- The directory that a thread has or is about to free. -/
def Th.holds (th : Th) : Option Dir :=
  match th.pc with
  | .cleared pd | .detached pd => some pd
  | _ => th.pagedir

/-- The member `pagedir` fits where the thread stands. -/
def Th.Ok (th : Th) : Prop :=
  match th.pc with
  | .kernel | .cleared _ | .detached _ | .done => th.pagedir = none
  | .created | .activated | .process => th.pagedir ≠ none
  | .activating pd => th.pagedir = pd ∧ pd ≠ none
  | .leaving pd => th.pagedir = some pd

/-- The directory in use is that of the running thread, except between two statements that change the
one and the other. -/
def Th.Uses (th : Th) (cr3 : Option Dir) : Prop :=
  match th.pc with
  | .kernel | .activated | .process | .leaving _ => cr3 = th.pagedir
  | .created | .activating _ => cr3 = none ∨ cr3 = th.pagedir
  | .cleared pd => cr3 = none ∨ cr3 = some pd
  | .detached _ | .done => cr3 = none

structure Inv (s : Sys) : Prop where
  ok : ∀ t th, s.thread t = some th → th.Ok
  live : ∀ pd, s.live pd = true ↔ ∃ t th, s.thread t = some th ∧ th.holds = some pd
  alone : ∀ t t' th th' pd, s.thread t = some th → s.thread t' = some th' → th.holds = some pd →
    th'.holds = some pd → t = t'
  uses : ∃ th, s.thread s.cur = some th ∧ th.Uses s.cr3
  esp0 : s.esp0 = s.cur + pgSize

section

variable {s s' : Sys} {t u next : Thread} {th q th₁ : Th} {pd : Dir} {a : Act}

theorem start_thread (t u : Thread) (h : (start t).thread u = some th) : u = t ∧ th = ⟨.kernel, none⟩ := by
  simp only [start, Function.update_apply] at h
  obtain ⟨hu, h⟩ := Option.ite_none_right_eq_some.mp h
  exact ⟨hu, (Option.some.inj h).symm⟩

theorem inv_start (t : Thread) : Inv (start t) where
  ok u th h := by
    obtain ⟨-, rfl⟩ := start_thread t u h
    rfl
  live pd := by
    refine ⟨fun h => absurd h Bool.false_ne_true, ?_⟩
    rintro ⟨u, th, h, hd⟩
    obtain ⟨-, rfl⟩ := start_thread t u h
    cases hd
  alone u u' _ _ _ h h' _ _ := (start_thread t u h).1.trans (start_thread t u' h').1.symm
  uses := by
    refine ⟨⟨.kernel, none⟩, ?_, rfl⟩
    simp only [start, Function.update_self]
  esp0 := rfl

/-- Where threads come and go that hold no directory. -/
theorem Inv.threads (h : Inv s) {f : Thread → Option Th}
    (hok : ∀ t th, f t = some th → th.Ok)
    (hsome : ∀ t th, f t = some th → ∀ pd, th.holds = some pd → s.thread t = some th ∧ th.holds = some pd)
    (hkeep : ∀ t th, s.thread t = some th → ∀ pd, th.holds = some pd → f t = some th)
    {cur : Thread} {cr3 : Option Dir} (huses : ∃ th, f cur = some th ∧ th.Uses cr3) :
    Inv { s with thread := f, cur := cur, cr3 := cr3, esp0 := cur + pgSize } := by
  refine ⟨hok, fun pd => (h.live pd).trans ⟨?_, ?_⟩, fun t t' th th' pd ht ht' hd hd' => ?_, huses, rfl⟩
  · rintro ⟨t, th, ht, hd⟩
    exact ⟨t, th, hkeep t th ht pd hd, hd⟩
  · rintro ⟨t, th, ht, hd⟩
    exact ⟨t, th, hsome t th ht pd hd⟩
  · exact h.alone t t' th th' pd (hsome t th ht pd hd).1 (hsome t' th' ht' pd hd').1 hd hd'

theorem setCur_self : (s.setCur th).thread s.cur = some th := Function.update_self ..

theorem setCur_of_ne (h : u ≠ s.cur) : (s.setCur th).thread u = s.thread u := Function.update_of_ne h ..

/-- What the other threads hold is there. -/
theorem Inv.other (h : Inv s) (hth : s.thread s.cur = some th) (ht : (s.setCur q).thread t = some th₁)
    (hc : t ≠ s.cur) (hp : th₁.holds = some pd) :
    s.thread t = some th₁ ∧ s.live pd = true ∧ th.holds ≠ some pd := by
  have ht := (setCur_of_ne hc).symm.trans ht
  exact ⟨ht, (h.live pd).mpr ⟨t, th₁, ht, hp⟩, fun hd => hc (h.alone t s.cur th₁ th pd ht hth hp hd)⟩

/-- A statement of the running thread, with which the directory it holds may come or go. -/
theorem Inv.replace (h : Inv s) (hth : s.thread s.cur = some th) (hok : q.Ok) {l : Dir → Bool}
    (hl : ∀ p, l p = true ↔ q.holds = some p ∨ th.holds ≠ some p ∧ s.live p = true)
    (hnew : ∀ p, q.holds = some p → th.holds = some p ∨ s.live p = false) {c : Option Dir}
    (hu : q.Uses c) :
    Inv { s.setCur q with live := l, cr3 := c, esp0 := s.cur + pgSize } where
  ok t th₁ ht := by
    by_cases hc : t = s.cur
    · subst hc
      obtain rfl := Option.some.inj (setCur_self.symm.trans ht)
      exact hok
    · exact h.ok t th₁ ((setCur_of_ne hc).symm.trans ht)
  live p := by
    refine (hl p).trans ⟨?_, ?_⟩
    · rintro (hp | ⟨hne, hp⟩)
      · exact ⟨s.cur, q, setCur_self, hp⟩
      · obtain ⟨t, th₁, ht, hd⟩ := (h.live p).mp hp
        have hc : t ≠ s.cur := by
          rintro rfl
          obtain rfl := Option.some.inj (hth.symm.trans ht)
          exact hne hd
        exact ⟨t, th₁, (setCur_of_ne hc).trans ht, hd⟩
    · rintro ⟨t, th₁, ht, hd⟩
      by_cases hc : t = s.cur
      · subst hc
        obtain rfl := Option.some.inj (setCur_self.symm.trans ht)
        exact .inl hd
      · obtain ⟨-, hlive, hne⟩ := h.other hth ht hc hd
        exact .inr ⟨hne, hlive⟩
  alone t t' th₁ th₂ p ht ht' hp hp' := by
    -- Another thread cannot hold what the running one has only now.
    have hcur : ∀ u thᵤ, (s.setCur q).thread u = some thᵤ → thᵤ.holds = some p → q.holds = some p →
        u = s.cur := by
      intro u thᵤ hu hp hd
      by_contra hc
      obtain ⟨-, hlive, hne⟩ := h.other hth hu hc hp
      rcases hnew p hd with hd | hd
      · exact hne hd
      · rw [hlive] at hd
        cases hd
    by_cases hc : t = s.cur
    · subst hc
      obtain rfl := Option.some.inj (setCur_self.symm.trans ht)
      exact (hcur t' th₂ ht' hp' hp).symm
    · by_cases hc' : t' = s.cur
      · subst hc'
        obtain rfl := Option.some.inj (setCur_self.symm.trans ht')
        exact hcur t th₁ ht hp hp'
      · exact h.alone t t' th₁ th₂ p ((setCur_of_ne hc).symm.trans ht)
          ((setCur_of_ne hc').symm.trans ht') hp hp'
  uses := ⟨q, setCur_self (s := s), hu⟩
  esp0 := rfl

/-- What the running thread holds is there. -/
theorem Inv.live_of_holds (h : Inv s) (hth : s.thread s.cur = some th) (hd : th.holds = some pd) :
    s.live pd = true := (h.live pd).mpr ⟨_, th, hth, hd⟩

theorem Inv.usesOf (h : Inv s) (hth : s.thread s.cur = some th) : th.Uses s.cr3 := by
  obtain ⟨th₀, hth₀, hu⟩ := h.uses
  obtain rfl := Option.some.inj (hth.symm.trans hth₀)
  exact hu

/-- A statement after which the running thread holds what it held. -/
theorem Inv.setCur (h : Inv s) (hth : s.thread s.cur = some th) (hok : q.Ok)
    (hd : q.holds = th.holds) {cr3 : Option Dir} (hu : q.Uses cr3) :
    Inv { s.setCur q with cr3 := cr3, esp0 := s.cur + pgSize } := by
  refine h.replace (l := s.live) hth hok (fun p => ⟨fun hp => ?_, ?_⟩) (fun p hp => .inl (hd ▸ hp)) hu
  · rw [hd]
    exact (em _).imp_right fun hne => ⟨hne, hp⟩
  · rintro (hp | ⟨-, hp⟩)
    · exact h.live_of_holds hth (hd ▸ hp)
    · exact hp

/-- `load` gets a directory of its own. -/
theorem Inv.gain (h : Inv s) (hth : s.thread s.cur = some th) (hpc : th.pc = .kernel)
    (hfree : s.live pd = false) :
    Inv { s.setCur ⟨.created, some pd⟩ with live := Function.update s.live pd true } := by
  have hnone : th.pagedir = none := by
    have := h.ok _ th hth
    rwa [Th.Ok, hpc] at this
  have hholds : th.holds = none := by rw [Th.holds, hpc, hnone]
  have hu := h.usesOf hth
  rw [Th.Uses, hpc, hnone] at hu
  have hinv := h.replace (q := ⟨.created, some pd⟩) (l := Function.update s.live pd true) (c := s.cr3)
    hth (Option.some_ne_none pd) (fun p => ?_) (fun p hp => ?_) (.inl hu)
  · rwa [← h.esp0] at hinv
  · show Function.update s.live pd true p = true ↔ some pd = some p ∨ _
    rw [hholds]
    by_cases hp : p = pd
    · subst hp
      simp
    · simp [Function.update_of_ne hp, Ne.symm hp]
  · obtain rfl := Option.some.inj hp
    exact .inr hfree

/-- `pagedir_destroy` frees a directory that is there and not in use. -/
theorem Inv.free (h : Inv s) (hth : s.thread s.cur = some th) (hpc : th.pc = .detached pd) :
    s.live pd = true ∧
      Inv { s.setCur { th with pc := .done } with live := Function.update s.live pd false } := by
  have hholds : th.holds = some pd := by rw [Th.holds, hpc]
  have hnone : th.pagedir = none := by
    have := h.ok _ th hth
    rwa [Th.Ok, hpc] at this
  have hu := h.usesOf hth
  rw [Th.Uses, hpc] at hu
  refine ⟨h.live_of_holds hth hholds, ?_⟩
  have hinv := h.replace (q := { th with pc := .done }) (l := Function.update s.live pd false)
    (c := s.cr3) hth hnone (fun p => ?_) (fun p hp => ?_) hu
  · rwa [← h.esp0] at hinv
  · show Function.update s.live pd false p = true ↔ th.pagedir = some p ∨ _
    rw [hholds, hnone]
    by_cases hp : p = pd
    · subst hp
      simp
    · simp [Function.update_of_ne hp, Ne.symm hp]
  · have hp : th.pagedir = some p := hp
    rw [hnone] at hp
    cases hp

/-- With the stack in the TSS as it is. -/
theorem Inv.setCur' (h : Inv s) (hth : s.thread s.cur = some th) (hok : q.Ok)
    (hd : q.holds = th.holds) {cr3 : Option Dir} (hu : q.Uses cr3) :
    Inv { s.setCur q with cr3 := cr3 } := by
  have h' := h.setCur hth hok hd hu
  rwa [← h.esp0] at h'

theorem Inv.statement (h : Inv s) (hth : s.thread s.cur = some th) (hs : s.statement th = some s') :
    Inv s' := by
  have hok := h.ok _ th hth
  have hu := h.usesOf hth
  unfold Th.Ok at hok
  unfold Th.Uses at hu
  obtain ⟨pc, dir⟩ := th
  cases pc with
  | created =>
    obtain rfl := Option.some.inj hs
    exact h.setCur' hth (q := ⟨.activating dir, dir⟩) ⟨rfl, hok⟩ rfl hu
  | activating pd =>
    obtain rfl := Option.some.inj hs
    obtain ⟨hdir, hpd⟩ := hok
    have hdir : dir = pd := hdir
    exact h.setCur' hth (q := ⟨.activated, dir⟩) (hdir ▸ hpd) rfl hdir.symm
  | activated =>
    obtain rfl := Option.some.inj hs
    exact h.setCur hth (q := ⟨.process, dir⟩) hok rfl hu
  | leaving pd =>
    obtain rfl := Option.some.inj hs
    obtain rfl : dir = some pd := hok
    exact h.setCur' hth (q := ⟨.cleared pd, none⟩) rfl rfl (.inr hu)
  | cleared pd =>
    obtain rfl := Option.some.inj hs
    exact h.setCur' hth (q := ⟨.detached pd, dir⟩) hok rfl rfl
  | detached pd =>
    obtain ⟨-, hs⟩ := Option.ite_none_right_eq_some.mp hs
    obtain rfl := Option.some.inj hs
    exact (h.free hth rfl).2
  | kernel | process | done => cases hs

theorem Inv.exit (h : Inv s) (hth : s.thread s.cur = some th) (hs : s.exit th = some s') : Inv s' := by
  obtain ⟨hpc, hs⟩ := Option.ite_none_right_eq_some.mp hs
  have hu := h.usesOf hth
  obtain ⟨pc, dir⟩ := th
  have hcr3 : s.cr3 = dir := by
    rcases hpc with rfl | rfl <;> exact hu
  have hd : (⟨pc, dir⟩ : Th).holds = dir := by
    rcases hpc with rfl | rfl <;> rfl
  cases dir with
  | none =>
    obtain rfl := Option.some.inj hs
    exact h.setCur' hth (q := ⟨.done, none⟩) rfl hd.symm hcr3
  | some pd =>
    obtain rfl := Option.some.inj hs
    exact h.setCur' hth (q := ⟨.leaving pd, some pd⟩) rfl hd.symm hcr3

/-- `schedule_tail` puts in use what the next thread has, whichever statement that stands before. -/
theorem Th.Ok.uses (h : th.Ok) (hpc : th.pc ≠ .done) : th.Uses th.pagedir := by
  obtain ⟨pc, dir⟩ := th
  cases pc with
  | done => exact absurd rfl hpc
  | kernel | activated | process | leaving _ => rfl
  | created | activating _ => exact .inr rfl
  | cleared _ => exact .inl h
  | detached _ => exact h

/-- A directory in use is held. -/
theorem Th.Ok.holds {cr3 : Option Dir} (h : th.Ok) (hu : th.Uses cr3) (hp : cr3 = some pd) :
    th.holds = some pd := by
  subst hp
  obtain ⟨pc, dir⟩ := th
  cases pc with
  | kernel | activated | process | leaving _ => exact hu.symm
  | created | activating _ => exact (hu.resolve_left (Option.some_ne_none pd)).symm
  | cleared _ => exact (hu.resolve_left (Option.some_ne_none pd)).symm
  | detached _ | done => cases hu

theorem Inv.switch (h : Inv s) (hth : s.thread s.cur = some th) (hs : s.switch th next = some s') :
    Inv s' := by
  unfold Sys.switch at hs
  cases hn : s.thread next with
  | none =>
    rw [hn] at hs
    cases hs
  | some n =>
    rw [hn] at hs
    obtain ⟨hnd, hs⟩ := Option.ite_none_left_eq_some.mp hs
    obtain rfl := Option.some.inj hs
    have hdone : th.pc = .done → th.holds = none := fun hpc => by
      have hok := h.ok _ th hth
      unfold Th.Ok at hok
      rw [hpc] at hok
      rw [Th.holds, hpc]
      exact hok
    have hmap : ∀ t th₁, (if th.pc = .done then Function.update s.thread s.cur none else s.thread) t =
        some th₁ → s.thread t = some th₁ := by
      intro t th₁ ht
      split at ht
      · by_cases hc : t = s.cur
        · subst hc
          rw [Function.update_self] at ht
          cases ht
        · rwa [Function.update_of_ne hc] at ht
      · exact ht
    refine h.threads (fun t th₁ ht => h.ok t th₁ (hmap t th₁ ht))
      (fun t th₁ ht pd hp => ⟨hmap t th₁ ht, hp⟩) (fun t th₁ ht pd hp => ?_)
      ⟨n, ?_, (h.ok _ n hn).uses hnd⟩
    · split
      · next hpc =>
        have hc : t ≠ s.cur := by
          rintro rfl
          obtain rfl := Option.some.inj (hth.symm.trans ht)
          rw [hdone hpc] at hp
          cases hp
        rwa [Function.update_of_ne hc]
      · exact ht
    · split
      · next hpc =>
        have hc : next ≠ s.cur := by
          rintro rfl
          obtain rfl := Option.some.inj (hth.symm.trans hn)
          exact hnd hpc
        rwa [Function.update_of_ne hc]
      · exact hn

theorem Inv.step (h : Inv s) (hs : step s a = some s') : Inv s' := by
  obtain ⟨th, hth, -⟩ := h.uses
  cases a with
  | create t =>
    obtain ⟨hnone, hs⟩ := Option.ite_none_right_eq_some.mp hs
    obtain rfl := Option.some.inj hs
    have hnew : ∀ u th₁, Function.update s.thread t (some ⟨.kernel, none⟩) u = some th₁ →
        s.thread u = some th₁ ∨ th₁ = ⟨.kernel, none⟩ := by
      intro u th₁ hu
      by_cases hut : u = t
      · subst hut
        rw [Function.update_self] at hu
        exact .inr (Option.some.inj hu).symm
      · exact .inl ((Function.update_of_ne hut ..).symm.trans hu)
    have hold : ∀ u th₁, s.thread u = some th₁ →
        Function.update s.thread t (some ⟨.kernel, none⟩) u = some th₁ := by
      intro u th₁ hu
      have hut : u ≠ t := by
        rintro rfl
        rw [hnone] at hu
        cases hu
      rwa [Function.update_of_ne hut]
    have hinv := h.threads (fun u th₁ hu => ?_) (fun u th₁ hu pd hp => ?_)
      (fun u th₁ hu _ _ => hold u th₁ hu) ⟨th, hold _ th hth, h.usesOf hth⟩
    · rwa [← h.esp0] at hinv
    · rcases hnew u th₁ hu with hu | rfl
      · exact h.ok u th₁ hu
      · rfl
    · rcases hnew u th₁ hu with hu | rfl
      · exact ⟨hu, hp⟩
      · cases hp
  | switch next =>
    simp only [Activate.step, hth, Option.bind_some] at hs
    exact h.switch hth hs
  | pagedirCreate pd =>
    simp only [Activate.step, hth, Option.bind_some] at hs
    obtain ⟨hpc, hs⟩ := Option.ite_none_right_eq_some.mp hs
    cases pd with
    | none =>
      obtain rfl := Option.some.inj hs
      exact h
    | some pd =>
      obtain ⟨hfree, hs⟩ := Option.ite_none_left_eq_some.mp hs
      obtain rfl := Option.some.inj hs
      exact h.gain hth hpc (Bool.eq_false_iff.mpr hfree)
  | exit =>
    simp only [Activate.step, hth, Option.bind_some] at hs
    exact h.exit hth hs
  | statement =>
    simp only [Activate.step, hth, Option.bind_some] at hs
    exact h.statement hth hs

/-- **In every run, with a switch of threads before any statement**: the directory in CR3 is the base
one or one that has not been freed; a process in its program runs on its own, with its own kernel stack
in the TSS; each directory belongs to one thread, and `pagedir_destroy` frees one that is there and not
in use. -/
theorem page_directory_in_use {t : Thread} (h : Reach step Free (start t) s) :
    (∀ pd, s.cr3 = some pd → s.live pd = true) ∧
    (∃ th, s.thread s.cur = some th ∧
      (th.pc = .process → th.pagedir ≠ none ∧ s.cr3 = th.pagedir) ∧
      (∀ pd, th.pc = .detached pd → s.cr3 = none ∧ (step s .statement).isSome)) ∧
    s.esp0 = s.cur + pgSize ∧
    ∀ pd, s.live pd = true → ∃! t, ∃ th, s.thread t = some th ∧ th.holds = some pd := by
  have hI : Inv s := h.invariant (inv_start t) fun _ _ _ hI _ hs => hI.step hs
  obtain ⟨th, hth, hu⟩ := hI.uses
  have hok := hI.ok _ th hth
  refine ⟨fun pd hcr3 => ?_, ⟨th, hth, fun hpc => ?_, fun pd hpc => ?_⟩, hI.esp0, fun pd hl => ?_⟩
  · exact hI.live_of_holds hth (hok.holds hu hcr3)
  · rw [Th.Ok, hpc] at hok
    rw [Th.Uses, hpc] at hu
    exact ⟨hok, hu⟩
  · rw [Th.Uses, hpc] at hu
    refine ⟨hu, ?_⟩
    simp only [step, hth, Option.bind_some, Sys.statement, hpc, (hI.free hth hpc).1, if_true,
      Option.isSome_some]
  · obtain ⟨t, th₁, ht, hd⟩ := (hI.live pd).mp hl
    refine ⟨t, ⟨th₁, ht, hd⟩, ?_⟩
    rintro t' ⟨th₂, ht', hd'⟩
    exact hI.alone t' t th₂ th₁ pd ht' ht hd' hd

/-- A process that is switched from in `process_exit`, between the two statements that must be in this
order. -/
def exitSwitched : List Act :=
  [ .create 0x2000, .switch 0x2000, .pagedirCreate (some 0x8000), .statement, .statement, .statement,
    .exit, .statement, .switch 0x1000, .switch 0x2000, .statement ]

theorem page_directory_in_use_example : ∃ s, runFrom step (start 0x1000) exitSwitched = some s ∧
    s.thread 0x2000 = some ⟨.detached 0x8000, none⟩ ∧ s.cr3 = none ∧ (step s .statement).isSome := by
  have hrun : (runFrom step (start 0x1000) exitSwitched).map (fun s => (s.cur, s.thread 0x2000)) =
      some (0x2000, some ⟨.detached 0x8000, none⟩) := by decide
  obtain ⟨s, hs, he⟩ := Option.map_eq_some_iff.mp hrun
  obtain ⟨hcur, hth⟩ := Prod.ext_iff.mp he
  obtain ⟨-, ⟨th, hth', -, hdet⟩, -⟩ := page_directory_in_use (reach_of_run _ hs)
  obtain rfl := Option.some.inj ((congrArg s.thread hcur).symm.trans hth' |>.symm.trans hth)
  exact ⟨s, hs, hth, hdet 0x8000 rfl⟩

end

end Pintos.Userprog.Activate
