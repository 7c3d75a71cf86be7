import Pintos.Threads.Idt

/-!
# Handling interrupts (threads/interrupt.c)

`intr_handler` on every thread, with the two interrupt controllers. A thread has the interrupts it is
handling on its stack, the innermost first; a thread that has been switched from keeps them there.
Between two steps of the kernel's own functions any code may run, take an exception, change the
interrupt level or switch threads, each within the ASSERTs of the functions it does so by; the code
of the stubs and of `intr_handler` itself takes no exceptions, and the interrupt that cannot be
masked is left out.
-/

namespace Pintos.Threads.Intr

open Pintos.Base Pintos.Base.Ia32

abbrev Thread := Nat

/-- How far an interrupt has been handled. -/
inductive Phase where
  /-- `intr_handler` has yet to begin. -/
  | entry
  /-- In the handler. -/
  | handler
  /-- `intr_handler` is done with it. -/
  | leaving
  deriving DecidableEq, Repr

structure Activation where
  vec : BitVec 8
  phase : Phase
  /-- Interrupts were on. -/
  old : Bool
  deriving DecidableEq, Repr

structure IntrSys (H : Type) where
  tables : Tables H
  cur : Thread
  stack : Thread → List Activation
  /-- IF. -/
  intrOn : Bool
  inExternalIntr : Bool
  yieldOnReturn : Bool
  /-- The lines in service at the two controllers, the first one lowest. -/
  master : BitVec 8
  slave : BitVec 8

inductive IntrStep (H : Type) where
  /-- An interrupt from a device; a spurious one is not in service. -/
  | irq (line : Fin 16) (spurious : Bool)
  /-- An exception, or `int`. -/
  | exc (vec : BitVec 8)
  /-- `intr_handler` up to its call of the handler. -/
  | begin
  /-- `intr_handler` from there on, with the thread that `thread_yield` would choose. -/
  | done (next : Thread)
  | iret
  /-- `intr_enable` -/
  | enable
  /-- `intr_disable` -/
  | disable
  /-- `intr_yield_on_return` -/
  | yieldOnReturn
  /-- `thread_block`, `thread_yield` or `thread_exit`, past its `intr_disable`. -/
  | switch (next : Thread)
  /-- `intr_register_ext` or `intr_register_int` -/
  | register (r : Registration H)

/-- How a step ends. -/
inductive Outcome (σ : Type) where
  | go (s : σ)
  | assertion
  /-- `PANIC ("Unexpected interrupt")` -/
  | unexpected

/-- A controller takes the highest line out of service, if there is any, when it is sent 0x20. -/
def eoi (lines : BitVec 8) : BitVec 8 := lines &&& (lines - 1)

namespace IntrSys

variable {H : Type}

/-- What goes into service at the controllers; the second one is on line 2 of the first. -/
def serve (s : IntrSys H) (line : Fin 16) (spurious : Bool) : IntrSys H :=
  if line.val < 8 then
    if spurious then s else { s with master := s.master ||| (1#8 <<< line.val) }
  else
    let s := { s with master := s.master ||| (1#8 <<< 2) }
    if spurious then s else { s with slave := s.slave ||| (1#8 <<< (line.val - 8)) }

/-- `pic_end_of_interrupt` -/
def picEndOfInterrupt (s : IntrSys H) (irq : BitVec 8) : Option (IntrSys H) :=
  if 0x20 ≤ irq ∧ irq < 0x30 then
    let s := { s with master := eoi s.master }
    some (if 0x28 ≤ irq then { s with slave := eoi s.slave } else s)
  else none

/-- The gate of the vector is a trap gate. -/
def isTrap (s : IntrSys H) (vec : BitVec 8) : Bool :=
  match Gate.decode (s.tables.idt vec) with
  | some g => g.trap
  | none => false

def push (s : IntrSys H) (vec : BitVec 8) : IntrSys H :=
  { s with
    stack := Function.update s.stack s.cur (⟨vec, .entry, s.intrOn⟩ :: s.stack s.cur)
    intrOn := s.intrOn && s.isTrap vec }

/-- The innermost interrupt of the current thread comes to a phase. -/
def setTop (s : IntrSys H) (a : Activation) (as : List Activation) (phase : Phase) : IntrSys H :=
  { s with stack := Function.update s.stack s.cur ({ a with phase := phase } :: as) }

/-- The code that runs is that of a thread or of a handler. -/
def inCode (s : IntrSys H) : Bool :=
  match s.stack s.cur with
  | [] => true
  | a :: _ => a.phase == .handler

end IntrSys

variable {H : Type}

/-- A line of the first controller from 7 on, or of the second one from 15 on, may be spurious. -/
def canBeSpurious (line : Fin 16) : Bool := line == 7 || line == 15

/-- `none`: the step is not enabled. -/
def intrStep (intrStubs : BitVec 8 → Word) (s : IntrSys H) : IntrStep H → Option (Outcome (IntrSys H))
  | .irq line spurious =>
    if s.intrOn ∧ (spurious → canBeSpurious line) then
      some (.go ((s.serve line spurious).push (0x20 + BitVec.ofNat 8 line.val)))
    else none
  | .exc vec => if s.inCode ∧ ¬ External vec then some (.go (s.push vec)) else none
  | .begin =>
    match s.stack s.cur with
    | ⟨vec, .entry, old⟩ :: as =>
      if External vec ∧ (s.intrOn ∨ s.inExternalIntr) then some .assertion
      else
        let s' := if External vec then { s with inExternalIntr := true, yieldOnReturn := false } else s
        if (s.tables.intrHandlers vec).isSome ∨ vec = 0x27 ∨ vec = 0x2f then
          some (.go (s'.setTop ⟨vec, .entry, old⟩ as .handler))
        else some .unexpected
    | _ => none
  | .done next =>
    match s.stack s.cur with
    | ⟨vec, .handler, old⟩ :: as =>
      let s' := s.setTop ⟨vec, .handler, old⟩ as .leaving
      if External vec then
        if s.intrOn ∨ ¬ s.inExternalIntr then some .assertion
        else
          match { s' with inExternalIntr := false }.picEndOfInterrupt vec with
          | none => some .assertion
          | some s' => some (.go (if s'.yieldOnReturn then { s' with cur := next } else s'))
      else some (.go s')
    | _ => none
  | .iret =>
    match s.stack s.cur with
    | ⟨_, .leaving, old⟩ :: as =>
      some (.go { s with stack := Function.update s.stack s.cur as, intrOn := old })
    | _ => none
  | .enable =>
    if s.inCode then
      if s.inExternalIntr then some .assertion else some (.go { s with intrOn := true })
    else none
  | .disable => if s.inCode then some (.go { s with intrOn := false }) else none
  | .yieldOnReturn =>
    if s.inCode then
      if s.inExternalIntr then some (.go { s with yieldOnReturn := true }) else some .assertion
    else none
  | .switch next =>
    if s.inCode then
      if s.inExternalIntr ∨ s.intrOn then some .assertion else some (.go { s with cur := next })
    else none
  | .register r =>
    match register intrStubs s.tables r with
    | some t => some (.go { s with tables := t })
    | none => some .assertion

/-- A step that goes on. -/
def intrNext (intrStubs : BitVec 8 → Word) (s : IntrSys H) (a : IntrStep H) : Option (IntrSys H) :=
  match intrStep intrStubs s a with
  | some (.go s') => some s'
  | _ => none

/-- After `intr_init`, which ends with all lines unmasked and interrupts off. -/
structure IntrBoot (intrStubs : BitVec 8 → Word) (s : IntrSys H) : Prop where
  tables : TablesOk intrStubs s.tables
  stack : ∀ t, s.stack t = []
  intrOn : s.intrOn = false
  outside : s.inExternalIntr = false
  lines : s.master = 0 ∧ s.slave = 0

/-! ## One external interrupt at a time -/

/-- An interrupt of a device that has yet to be acknowledged. -/
def Activation.Live (a : Activation) : Prop := External a.vec ∧ a.phase ≠ .leaving

instance (a : Activation) : Decidable a.Live := inferInstanceAs (Decidable (_ ∧ _))

/-- No external interrupt is being handled. -/
structure Quiet (s : IntrSys H) : Prop where
  dead : ∀ t, ∀ a ∈ s.stack t, ¬ a.Live
  outside : s.inExternalIntr = false
  master : s.master = 0
  slave : s.slave = 0

/-- The controllers are done once both, or for a line of the first one it alone, have been told. -/
structure InService (master slave vec : BitVec 8) : Prop where
  master : eoi master = 0
  slave : if 0x28 ≤ vec then eoi slave = 0 else slave = 0

/-- The current thread handles the external interrupt `a`, with exceptions of the handler above. -/
structure Busy (s : IntrSys H) (above : List Activation) (a : Activation)
    (below : List Activation) : Prop where
  stack : s.stack s.cur = above ++ a :: below
  live : a.Live
  exceptions : ∀ b ∈ above, ¬ External b.vec ∧ b.old = false
  entry : a.phase = .entry → above = []
  dead : ∀ b ∈ below, ¬ b.Live
  others : ∀ t ≠ s.cur, ∀ b ∈ s.stack t, ¬ b.Live
  off : s.intrOn = false
  inside : s.inExternalIntr = (a.phase == .handler)
  lines : InService s.master s.slave a.vec

structure IntrInv (intrStubs : BitVec 8 → Word) (s : IntrSys H) : Prop where
  tables : TablesOk intrStubs s.tables
  quiet_or_busy : Quiet s ∨ ∃ above a below, Busy s above a below

section

variable {intrStubs : BitVec 8 → Word} {s s' : IntrSys H} {a b : Activation}
  {as above below : List Activation} {vec : BitVec 8}

theorem IntrBoot.inv (h : IntrBoot intrStubs s) : IntrInv intrStubs s where
  tables := h.tables
  quiet_or_busy := .inl {
    dead := by
      intro t a ha
      rw [h.stack t] at ha
      cases ha
    outside := h.outside
    master := h.lines.1
    slave := h.lines.2 }

theorem eoi_zero : eoi 0 = 0 := by decide

/-- A line that comes into service with no other is all there is to acknowledge. -/
theorem InService.of_serve (line : Fin 16) (spurious : Bool) (hm : s.master = 0)
    (hs : s.slave = 0) :
    InService (s.serve line spurious).master (s.serve line spurious).slave
      (0x20 + BitVec.ofNat 8 line.val) := by
  have key : ∀ line : Fin 16, ∀ spurious : Bool,
      let m := if line.val < 8 then if spurious then 0 else 1#8 <<< line.val else 1#8 <<< 2
      let l := if line.val < 8 ∨ spurious then 0#8 else 1#8 <<< (line.val - 8)
      eoi m = 0 ∧ if (0x28 : BitVec 8) ≤ 0x20 + BitVec.ofNat 8 line.val then eoi l = 0 else l = 0 := by
    decide
  obtain ⟨h₁, h₂⟩ := key line spurious
  have hmaster : (s.serve line spurious).master =
      if line.val < 8 then if spurious then 0 else 1#8 <<< line.val else 1#8 <<< 2 := by
    unfold IntrSys.serve
    by_cases h : line.val < 8 <;> cases spurious <;> simp [h, hm]
  have hslave : (s.serve line spurious).slave =
      if line.val < 8 ∨ spurious then 0#8 else 1#8 <<< (line.val - 8) := by
    unfold IntrSys.serve
    by_cases h : line.val < 8 <;> cases spurious <;> simp [h, hs]
  exact ⟨hmaster ▸ h₁, hslave ▸ h₂⟩

theorem external_line (line : Fin 16) : External (0x20 + BitVec.ofNat 8 line.val) := by
  revert line
  decide

theorem pushed_stack (s : IntrSys H) (vec : BitVec 8) :
    (s.push vec).stack s.cur = ⟨vec, .entry, s.intrOn⟩ :: s.stack s.cur :=
  Function.update_self ..

theorem pushed_others (s : IntrSys H) (vec : BitVec 8) {t : Thread} (h : t ≠ s.cur) :
    (s.push vec).stack t = s.stack t := Function.update_of_ne h ..

theorem Quiet.not_live_top (h : Quiet s) (hs : s.stack s.cur = b :: as) : ¬ b.Live :=
  h.dead s.cur b (hs ▸ List.mem_cons_self ..)

/-- What is on top while an external interrupt is handled: it, or an exception of its handler. -/
theorem Busy.top (h : Busy s above a below) (hs : s.stack s.cur = b :: as) :
    above = [] ∧ b = a ∧ as = below ∨
      ∃ above', above = b :: above' ∧ as = above' ++ a :: below ∧ ¬ External b.vec ∧
        b.old = false := by
  have hst := h.stack
  rw [hs] at hst
  cases above with
  | nil =>
    obtain ⟨rfl, rfl⟩ := List.cons.inj hst
    exact .inl ⟨rfl, rfl, rfl⟩
  | cons c above =>
    obtain ⟨rfl, rfl⟩ := List.cons.inj hst
    obtain ⟨h₁, h₂⟩ := h.exceptions b (List.mem_cons_self ..)
    exact .inr ⟨above, rfl, rfl, h₁, h₂⟩

/-- While code runs, the external interrupt being handled is with its handler. -/
theorem Busy.inside_of_inCode (h : Busy s above a below) (hc : s.inCode = true) :
    a.phase = .handler ∧ s.inExternalIntr = true := by
  have hp : a.phase = .handler := by
    cases hp : a.phase with
    | handler => rfl
    | leaving => exact absurd hp h.live.2
    | entry =>
      obtain rfl := h.entry hp
      have hst := h.stack
      simp only [IntrSys.inCode, hst, List.nil_append, hp] at hc
      cases hc
  exact ⟨hp, by rw [h.inside, hp]; rfl⟩

/-! Each step from a state in which no external interrupt is being handled. -/

theorem Quiet.update (h : Quiet s) (hs : ∀ t, ∀ b ∈ s'.stack t, b ∈ s.stack t ∨ ¬ b.Live)
    (ho : s'.inExternalIntr = false) (hm : s'.master = s.master) (hl : s'.slave = s.slave) :
    Quiet s' where
  dead t b hb := (hs t b hb).elim (h.dead t b) id
  outside := ho
  master := hm.trans h.master
  slave := hl.trans h.slave

theorem Quiet.push (h : Quiet s) (hv : ¬ External vec) : Quiet (s.push vec) :=
  h.update (fun t b hb => by
    by_cases ht : t = s.cur
    · subst ht
      rw [pushed_stack] at hb
      rcases List.mem_cons.mp hb with rfl | hb
      · exact .inr fun hl => hv hl.1
      · exact .inl hb
    · exact .inl (pushed_others s vec ht ▸ hb)) h.outside rfl rfl

theorem mem_setTop {phase : Phase} {t : Thread} (hs : s.stack s.cur = a :: as)
    (hb : b ∈ (s.setTop a as phase).stack t) :
    b ∈ s.stack t ∨ t = s.cur ∧ b = { a with phase := phase } := by
  by_cases ht : t = s.cur
  · subst ht
    have hb : b ∈ { a with phase := phase } :: as := by
      simpa only [IntrSys.setTop, Function.update_self] using hb
    rcases List.mem_cons.mp hb with rfl | hb
    · exact .inr ⟨rfl, rfl⟩
    · exact .inl (hs ▸ List.mem_cons_of_mem _ hb)
  · exact .inl (by simpa only [IntrSys.setTop, Function.update_of_ne ht] using hb)

theorem setTop_cur {phase : Phase} :
    (s.setTop a as phase).stack s.cur = { a with phase := phase } :: as := Function.update_self ..

theorem setTop_others {phase : Phase} {t : Thread} (h : t ≠ s.cur) :
    (s.setTop a as phase).stack t = s.stack t := Function.update_of_ne h ..

/-- An external interrupt comes in only when none is being handled. -/
theorem Quiet.irq (h : Quiet s) (ht : TablesOk intrStubs s.tables) (line : Fin 16)
    (spurious : Bool) (hon : s.intrOn = true) :
    Busy ((s.serve line spurious).push (0x20 + BitVec.ofNat 8 line.val)) []
      ⟨0x20 + BitVec.ofNat 8 line.val, .entry, true⟩ (s.stack s.cur) := by
  have hserve : (s.serve line spurious).stack = s.stack ∧ (s.serve line spurious).cur = s.cur ∧
      (s.serve line spurious).intrOn = s.intrOn ∧ (s.serve line spurious).tables = s.tables ∧
        (s.serve line spurious).inExternalIntr = s.inExternalIntr := by
    unfold IntrSys.serve
    by_cases hl : line.val < 8 <;> cases spurious <;> simp [hl]
  obtain ⟨hst, hcur, hio, htab, hin⟩ := hserve
  have hext := external_line line
  exact {
    stack := by
      show ((s.serve line spurious).push _).stack (s.serve line spurious).cur = _
      rw [pushed_stack, hio, hon, hst, hcur, List.nil_append]
    live := ⟨hext, by simp⟩
    exceptions := fun _ hb => absurd hb List.not_mem_nil
    entry := fun _ => rfl
    dead := h.dead s.cur
    others := fun t hne => by
      rw [pushed_others (s.serve line spurious) _ hne, hst]
      exact h.dead t
    off := by
      obtain ⟨g, hg⟩ := ht (0x20 + BitVec.ofNat 8 line.val)
      show ((s.serve line spurious).intrOn && (s.serve line spurious).isTrap _) = false
      unfold IntrSys.isTrap
      rw [htab, hg.decode, Bool.and_eq_false_iff]
      exact .inr (hg.kernel (.inl hext)).2
    inside := hin.trans h.outside
    lines := .of_serve line spurious h.master h.slave }

/-! And while one is. -/

/-- An exception in its handler. -/
theorem Busy.exc (h : Busy s above a below) (hc : s.inCode = true) (hv : ¬ External vec) :
    Busy (s.push vec) (⟨vec, .entry, s.intrOn⟩ :: above) a below where
  stack := by
    show (s.push vec).stack s.cur = _
    rw [pushed_stack, h.stack, List.cons_append]
  live := h.live
  exceptions b hb := by
    rcases List.mem_cons.mp hb with rfl | hb
    · exact ⟨hv, h.off⟩
    · exact h.exceptions b hb
  entry he := by
    rw [(h.inside_of_inCode hc).1] at he
    cases he
  dead := h.dead
  others t hne := by
    rw [pushed_others s vec hne]
    exact h.others t hne
  off := by
    show (s.intrOn && s.isTrap vec) = false
    rw [h.off, Bool.false_and]
  inside := h.inside
  lines := h.lines

/-- Its handler is called. -/
theorem Busy.begin (h : Busy s [] a below) :
    Busy ({ s with inExternalIntr := true, yieldOnReturn := false }.setTop a below .handler) []
      { a with phase := .handler } below where
  stack := setTop_cur
  live := ⟨h.live.1, by simp⟩
  exceptions := h.exceptions
  entry _ := rfl
  dead := h.dead
  others t hne := by
    rw [setTop_others (s := { s with inExternalIntr := true, yieldOnReturn := false }) hne]
    exact h.others t hne
  off := h.off
  inside := rfl
  lines := h.lines

/-- An exception above it goes on to another phase. -/
theorem Busy.setTop {above' : List Activation} {phase : Phase} (h : Busy s (b :: above') a below) :
    Busy (s.setTop b (above' ++ a :: below) phase) ({ b with phase := phase } :: above') a below where
  stack := setTop_cur
  live := h.live
  exceptions c hc := by
    rcases List.mem_cons.mp hc with rfl | hc
    · exact h.exceptions b (List.mem_cons_self ..)
    · exact h.exceptions c (List.mem_cons_of_mem _ hc)
  entry he := by cases h.entry he
  dead := h.dead
  others t hne := by
    rw [setTop_others (s := s) hne]
    exact h.others t hne
  off := h.off
  inside := h.inside
  lines := h.lines

/-- An exception above it returns. -/
theorem Busy.iret {above' : List Activation} (h : Busy s (b :: above') a below) :
    Busy { s with stack := Function.update s.stack s.cur (above' ++ a :: below), intrOn := b.old }
      above' a below where
  stack := Function.update_self ..
  live := h.live
  exceptions c hc := h.exceptions c (List.mem_cons_of_mem _ hc)
  entry he := by cases h.entry he
  dead := h.dead
  others t hne := by
    show ∀ c ∈ Function.update s.stack s.cur _ t, _
    rw [Function.update_of_ne hne]
    exact h.others t hne
  off := (h.exceptions b (List.mem_cons_self ..)).2
  inside := h.inside
  lines := h.lines

/-- It is acknowledged. -/
theorem Busy.acknowledge (h : Busy s [] a below) :
    ∃ s', { s.setTop a below .leaving with inExternalIntr := false }.picEndOfInterrupt a.vec =
      some s' ∧ Quiet s' ∧ s'.tables = s.tables := by
  obtain ⟨hlo, hhi⟩ := h.live.1
  have hhi : a.vec < 0x30 := by
    have h30 : ∀ v : BitVec 8, v ≤ 0x2f → v < 0x30 := by decide
    exact h30 _ hhi
  have hdead : ∀ t, ∀ b ∈ (s.setTop a below .leaving).stack t, ¬ b.Live := by
    intro t b hb
    by_cases ht : t = s.cur
    · subst ht
      rw [setTop_cur] at hb
      rcases List.mem_cons.mp hb with rfl | hb
      · exact fun hl => hl.2 rfl
      · exact h.dead b hb
    · rw [setTop_others ht] at hb
      exact h.others t ht b hb
  have hslave := h.lines.slave
  refine ⟨_, if_pos ⟨hlo, hhi⟩, ?_, ?_⟩
  · by_cases hv : 0x28 ≤ a.vec
    · rw [if_pos hv]
      rw [if_pos hv] at hslave
      exact ⟨hdead, rfl, h.lines.master, hslave⟩
    · rw [if_neg hv]
      rw [if_neg hv] at hslave
      exact ⟨hdead, rfl, h.lines.master, hslave⟩
  · split <;> rfl

/-! The steps. -/

theorem intrNext_some {st : IntrStep H} :
    intrNext intrStubs s st = some s' ↔ intrStep intrStubs s st = some (.go s') := by
  unfold intrNext
  constructor
  · intro h
    split at h
    · next h' => rw [h', Option.some.inj h]
    · cases h
  · intro h
    rw [h]

/-- `intr_handler` begins. -/
theorem IntrInv.begin (h : IntrInv intrStubs s) {old : Bool}
    (hs : s.stack s.cur = ⟨vec, .entry, old⟩ :: as) :
    (External vec → s.intrOn = false ∧ s.inExternalIntr = false) ∧
      IntrInv intrStubs ((if External vec then
        { s with inExternalIntr := true, yieldOnReturn := false } else s).setTop
          ⟨vec, .entry, old⟩ as .handler) := by
  rcases h.quiet_or_busy with hq | ⟨above, a, below, hb⟩
  · have hv : ¬ External vec := fun hv => hq.not_live_top hs ⟨hv, by simp⟩
    refine ⟨fun hv' => absurd hv' hv, ?_⟩
    rw [if_neg hv]
    refine ⟨h.tables, .inl (hq.update (fun t b hm => ?_) hq.outside rfl rfl)⟩
    exact (mem_setTop hs hm).imp_right fun ⟨_, he⟩ hl => hv (he ▸ hl).1
  · rcases hb.top hs with ⟨rfl, rfl, rfl⟩ | ⟨above', rfl, rfl, hv, -⟩
    · have hv := hb.live.1
      refine ⟨fun _ => ⟨hb.off, hb.inside⟩, ?_⟩
      rw [if_pos hv]
      exact ⟨h.tables, .inr ⟨_, _, _, hb.begin⟩⟩
    · refine ⟨fun hv' => absurd hv' hv, ?_⟩
      rw [if_neg hv]
      exact ⟨h.tables, .inr ⟨_, _, _, hb.setTop⟩⟩

/-- `intr_handler` completes an external interrupt. -/
theorem IntrInv.complete (h : IntrInv intrStubs s) {old : Bool}
    (hs : s.stack s.cur = ⟨vec, .handler, old⟩ :: as) (hv : External vec) :
    s.intrOn = false ∧ s.inExternalIntr = true ∧
      ∃ s', { s.setTop ⟨vec, .handler, old⟩ as .leaving with
        inExternalIntr := false }.picEndOfInterrupt vec = some s' ∧ Quiet s' ∧
          s'.tables = s.tables := by
  rcases h.quiet_or_busy with hq | ⟨above, a, below, hb⟩
  · exact absurd ⟨hv, by simp⟩ (hq.not_live_top hs)
  · rcases hb.top hs with ⟨rfl, rfl, rfl⟩ | ⟨-, -, -, hv', -⟩
    · exact ⟨hb.off, hb.inside, hb.acknowledge⟩
    · exact absurd hv hv'

theorem Quiet.switch (h : Quiet s) (next : Thread) : Quiet { s with cur := next } :=
  h.update (fun _ _ => .inl) h.outside rfl rfl

theorem IntrInv.done (h : IntrInv intrStubs s) {next : Thread}
    (hs : intrStep intrStubs s (.done next) = some (.go s')) : IntrInv intrStubs s' := by
  simp only [intrStep] at hs
  split at hs
  · next vec old as hst =>
    by_cases hv : External vec
    · obtain ⟨hoff, hin, s₁, hpic, hq, ht⟩ := h.complete hst hv
      rw [if_pos hv, if_neg (by rw [hoff, hin]; simp), hpic] at hs
      obtain rfl := Outcome.go.inj (Option.some.inj hs)
      split
      · exact ⟨ht ▸ h.tables, .inl (hq.switch next)⟩
      · exact ⟨ht ▸ h.tables, .inl hq⟩
    · rw [if_neg hv] at hs
      obtain rfl := Outcome.go.inj (Option.some.inj hs)
      refine ⟨h.tables, ?_⟩
      rcases h.quiet_or_busy with hq | ⟨above, a, below, hb⟩
      · refine .inl (hq.update (fun t b hm => ?_) hq.outside rfl rfl)
        exact (mem_setTop hst hm).imp_right fun ⟨_, he⟩ hl => hv (he ▸ hl).1
      · rcases hb.top hst with ⟨rfl, rfl, rfl⟩ | ⟨above', rfl, rfl, -, -⟩
        · exact absurd hb.live.1 hv
        · exact .inr ⟨_, _, _, hb.setTop⟩
  · cases hs

theorem IntrInv.iret (h : IntrInv intrStubs s)
    (hs : intrStep intrStubs s .iret = some (.go s')) : IntrInv intrStubs s' := by
  simp only [intrStep] at hs
  split at hs
  · next vec old as hst =>
    obtain rfl := Outcome.go.inj (Option.some.inj hs)
    refine ⟨h.tables, ?_⟩
    rcases h.quiet_or_busy with hq | ⟨above, a, below, hb⟩
    · refine .inl (hq.update (fun t b hm => .inl ?_) hq.outside rfl rfl)
      by_cases ht : t = s.cur
      · subst ht
        have hm : b ∈ as := by simpa only [Function.update_self] using hm
        exact hst ▸ List.mem_cons_of_mem _ hm
      · simpa only [Function.update_of_ne ht] using hm
    · rcases hb.top hst with ⟨-, rfl, -⟩ | ⟨above', rfl, rfl, -, -⟩
      · exact absurd rfl hb.live.2
      · exact .inr ⟨_, _, _, hb.iret⟩
  · cases hs

/-- Only the flag, the yield at the end or the tables change, in code. -/
theorem IntrInv.flags (h : IntrInv intrStubs s) {on yield : Bool} {t : Tables H}
    (ht : TablesOk intrStubs t) (hon : on = true → s.inExternalIntr = false ∧ s.inCode = true ∨
      s.intrOn = true) :
    IntrInv intrStubs { s with intrOn := on, yieldOnReturn := yield, tables := t } := by
  refine ⟨ht, ?_⟩
  rcases h.quiet_or_busy with hq | ⟨above, a, below, hb⟩
  · exact .inl ⟨hq.dead, hq.outside, hq.master, hq.slave⟩
  · refine .inr ⟨above, a, below, hb.stack, hb.live, hb.exceptions, hb.entry, hb.dead, hb.others, ?_,
      hb.inside, hb.lines⟩
    cases on with
    | false => rfl
    | true =>
      exfalso
      rcases hon rfl with ⟨hin, hc⟩ | hon
      · rw [(hb.inside_of_inCode hc).2] at hin
        cases hin
      · rw [hb.off] at hon
        cases hon

theorem IntrInv.switch (h : IntrInv intrStubs s) (hc : s.inCode = true)
    (hin : s.inExternalIntr = false) (next : Thread) :
    IntrInv intrStubs { s with cur := next } := by
  rcases h.quiet_or_busy with hq | ⟨above, a, below, hb⟩
  · exact ⟨h.tables, .inl (hq.switch next)⟩
  · rw [(hb.inside_of_inCode hc).2] at hin
    cases hin

theorem IntrInv.step (h : IntrInv intrStubs s) {st : IntrStep H}
    (hs : intrStep intrStubs s st = some (.go s')) : IntrInv intrStubs s' := by
  cases st with
  | irq line spurious =>
    obtain ⟨⟨hon, -⟩, hs⟩ := Option.ite_none_right_eq_some.mp hs
    obtain rfl := Outcome.go.inj (Option.some.inj hs)
    have htab : (s.serve line spurious).tables = s.tables := by
      unfold IntrSys.serve
      by_cases hl : line.val < 8 <;> cases spurious <;> simp [hl]
    rcases h.quiet_or_busy with hq | ⟨_, _, _, hb⟩
    · exact ⟨htab ▸ h.tables, .inr ⟨_, _, _, hq.irq h.tables line spurious hon⟩⟩
    · rw [hb.off] at hon
      cases hon
  | exc vec =>
    obtain ⟨⟨hc, hv⟩, hs⟩ := Option.ite_none_right_eq_some.mp hs
    obtain rfl := Outcome.go.inj (Option.some.inj hs)
    refine ⟨h.tables, ?_⟩
    rcases h.quiet_or_busy with hq | ⟨_, _, _, hb⟩
    · exact .inl (hq.push hv)
    · exact .inr ⟨_, _, _, hb.exc hc hv⟩
  | begin =>
    simp only [intrStep] at hs
    split at hs
    · next vec old as hst =>
      obtain ⟨hok, hnext⟩ := h.begin hst
      split at hs
      · cases hs
      · split at hs
        · obtain rfl := Outcome.go.inj (Option.some.inj hs)
          exact hnext
        · cases hs
    · cases hs
  | done next => exact h.done hs
  | iret => exact h.iret hs
  | enable =>
    obtain ⟨hc, hs⟩ := Option.ite_none_right_eq_some.mp hs
    split at hs
    · cases hs
    · next hin =>
      obtain rfl := Outcome.go.inj (Option.some.inj hs)
      exact h.flags h.tables fun _ => .inl ⟨Bool.eq_false_iff.mpr hin, hc⟩
  | disable =>
    obtain ⟨-, hs⟩ := Option.ite_none_right_eq_some.mp hs
    obtain rfl := Outcome.go.inj (Option.some.inj hs)
    exact h.flags h.tables fun hon => absurd hon Bool.false_ne_true
  | yieldOnReturn =>
    obtain ⟨-, hs⟩ := Option.ite_none_right_eq_some.mp hs
    split at hs
    · obtain rfl := Outcome.go.inj (Option.some.inj hs)
      exact h.flags h.tables .inr
    · cases hs
  | switch next =>
    obtain ⟨hc, hs⟩ := Option.ite_none_right_eq_some.mp hs
    split at hs
    · cases hs
    · next hin =>
      obtain rfl := Outcome.go.inj (Option.some.inj hs)
      exact h.switch hc (Bool.eq_false_iff.mpr fun he => hin (.inl he)) next
  | register r =>
    simp only [intrStep] at hs
    split at hs
    · next t ht =>
      obtain rfl := Outcome.go.inj (Option.some.inj hs)
      exact h.flags (h.tables.register ht) .inr
    · cases hs

theorem IntrInv.reached {s₀ : IntrSys H} (h₀ : IntrBoot intrStubs s₀)
    (h : Reach (intrNext intrStubs) Free s₀ s) : IntrInv intrStubs s :=
  h.invariant h₀.inv fun _ _ _ hI _ hs => hI.step (intrNext_some.mp hs)

theorem Quiet.countP (h : Quiet s) (t : Thread) : (s.stack t).countP (·.Live) = 0 :=
  List.countP_eq_zero.mpr fun b hb => by simpa using h.dead t b hb

theorem Busy.countP (h : Busy s above a below) (t : Thread) :
    (s.stack t).countP (·.Live) = if t = s.cur then 1 else 0 := by
  by_cases ht : t = s.cur
  · subst ht
    have habove : above.countP (·.Live) = 0 :=
      List.countP_eq_zero.mpr fun b hb => by simpa using fun hl : b.Live => (h.exceptions b hb).1 hl.1
    have hbelow : below.countP (·.Live) = 0 :=
      List.countP_eq_zero.mpr fun b hb => by simpa using h.dead b hb
    rw [h.stack, List.countP_append, List.countP_cons_of_pos (by simpa using h.live), habove, hbelow,
      if_pos rfl]
  · rw [if_neg ht]
    exact List.countP_eq_zero.mpr fun b hb => by simpa using h.others t ht b hb

/-- An external interrupt in its handler is what `intr_context` tells. -/
theorem IntrInv.intrContext (h : IntrInv intrStubs s) :
    s.inExternalIntr = true ↔ ∃ b ∈ s.stack s.cur, External b.vec ∧ b.phase = .handler := by
  rcases h.quiet_or_busy with hq | ⟨above, a, below, hb⟩
  · rw [hq.outside]
    refine ⟨fun h => absurd h Bool.false_ne_true, ?_⟩
    rintro ⟨b, hm, hv, hp⟩
    exact absurd ⟨hv, by rw [hp]; simp⟩ (hq.dead s.cur b hm)
  · rw [hb.inside, beq_iff_eq, hb.stack]
    constructor
    · exact fun hp => ⟨a, List.mem_append_right _ (List.mem_cons_self ..), hb.live.1, hp⟩
    · rintro ⟨b, hm, hv, hp⟩
      rcases List.mem_append.mp hm with hm | hm
      · exact absurd hv (hb.exceptions b hm).1
      · rcases List.mem_cons.mp hm with rfl | hm
        · exact hp
        · exact absurd ⟨hv, by rw [hp]; simp⟩ (hb.dead b hm)

/-- **`intr_handler` in every run**, whatever the devices, the exceptions, the handlers and the
scheduler do: its ASSERTs hold; at most one external interrupt is being handled in the whole system,
and that by the running thread; `intr_context` tells exactly whether one is in its handler; and
whenever interrupts are on, none is being handled and every line has been acknowledged. -/
theorem intr_handler_reached {s₀ : IntrSys H} (h₀ : IntrBoot intrStubs s₀)
    (h : Reach (intrNext intrStubs) Free s₀ s) :
    (intrStep intrStubs s .begin ≠ some .assertion ∧
      ∀ next, intrStep intrStubs s (.done next) ≠ some .assertion) ∧
    (∀ t, (s.stack t).countP (·.Live) ≤ if t = s.cur then 1 else 0) ∧
    (s.inExternalIntr = true ↔ ∃ b ∈ s.stack s.cur, External b.vec ∧ b.phase = .handler) ∧
    (s.intrOn = true → (∀ t, ∀ b ∈ s.stack t, ¬ b.Live) ∧ s.master = 0 ∧ s.slave = 0) := by
  have hI := IntrInv.reached h₀ h
  refine ⟨⟨fun hb => ?_, fun next hd => ?_⟩, fun t => ?_, hI.intrContext, fun hon => ?_⟩
  · simp only [intrStep] at hb
    split at hb
    · next vec old as hst =>
      split at hb
      · next hbad =>
        obtain ⟨hoff, hin⟩ := (hI.begin hst).1 hbad.1
        rw [hoff, hin] at hbad
        exact hbad.2.elim Bool.false_ne_true Bool.false_ne_true
      · split at hb <;> cases hb
    · cases hb
  · simp only [intrStep] at hd
    split at hd
    · next vec old as hst =>
      split at hd
      · next hv =>
        obtain ⟨hoff, hin, s₁, hpic, -⟩ := hI.complete hst hv
        rw [if_neg (by rw [hoff, hin]; simp), hpic] at hd
        cases hd
      · cases hd
    · cases hd
  · rcases hI.quiet_or_busy with hq | ⟨above, a, below, hb⟩
    · exact (hq.countP t).trans_le (Nat.zero_le _)
    · exact (hb.countP t).le
  · rcases hI.quiet_or_busy with hq | ⟨above, a, below, hb⟩
    · exact ⟨hq.dead, hq.master, hq.slave⟩
    · rw [hb.off] at hon
      cases hon

/-- The timer's interrupt in its handler. -/
theorem intr_handler_reached_example : ∃ s₀ s : IntrSys Unit, IntrBoot imageExample.intrStubs s₀ ∧
    runFrom (intrNext imageExample.intrStubs) s₀
      [.register (.ext 0x20 () "8254 Timer"), .enable, .irq 0 false, .begin] = some s ∧
    s.inExternalIntr = true ∧ ∃ b ∈ s.stack s.cur, External b.vec ∧ b.phase = .handler := by
  have hall : ∀ vec, (makeIntrGate (imageExample.intrStubs vec) 0).isSome := by decide
  have hinit : intrInit Unit imageExample.intrStubs = some _ := if_pos hall
  let s₀ : IntrSys Unit := {
    tables := {
      idt := fun vec => (makeIntrGate (imageExample.intrStubs vec) 0).getD 0
      intrHandlers := fun _ => none
      intrNames := exceptionName }
    cur := 0, stack := fun _ => [], intrOn := false, inExternalIntr := false
    yieldOnReturn := false, master := 0, slave := 0 }
  have h₀ : IntrBoot imageExample.intrStubs s₀ :=
    ⟨intrInit_ok hinit, fun _ => rfl, rfl, rfl, rfl, rfl⟩
  have hrun : ((runFrom (intrNext imageExample.intrStubs) s₀
      [.register (.ext 0x20 () "8254 Timer"), .enable, .irq 0 false, .begin]).map
        (·.inExternalIntr)) = some true := by decide
  obtain ⟨s, hs, hin⟩ := Option.map_eq_some_iff.mp hrun
  exact ⟨s₀, s, h₀, hs, hin, (intr_handler_reached h₀ (reach_of_run _ hs)).2.2.1.mp hin⟩

end

end Pintos.Threads.Intr
