import Pintos.Userprog.Process

/-!
# The protocol of one `child_status`

What the two parties do to one record, without the rest of the system: the parent
that allocated it and the child created for it each move through their stages, and
the record changes with them. `Proto G v v'` is one action of one party. Its last
arguments are the scheduling conditions under which the claims of ownership, of the
exec handshake and of the exit status hold; the gates hold without them.
-/

namespace Pintos.Userprog

/-- The parent and the record. -/
inductive PStage where
  /-- allocated; `sema_exec` holds garbage -/
  | made
  /-- `sema_exec.value` is set, `pid` is not -/
  | init
  /-- `pid` is set; before or in `sema_down` of `process_execute` -/
  | stored
  | passed
  /-- `process_execute` returns `v` for it -/
  | opened (v : Int)
  | failed
  /-- freed; `process_execute` returns -1 -/
  | refused
  /-- in `cs_list` -/
  | listed
  /-- `process_wait` has seen that the child is through its `ref_cnt--` -/
  | gated
  /-- `process_wait` has read `exit_status` -/
  | collected (v : Int)
  /-- freed; `process_wait` returns `v` -/
  | reaped (v : Int)
  /-- after the parent's `ref_cnt--`, before its test -/
  | decd
  /-- left to the child to free -/
  | dropped
  /-- in `children_to_delete` -/
  | deleting
  /-- `dropped`, and the parent is through with its list -/
  | left
  | gone
  deriving DecidableEq, Repr

/-- The child and the record. -/
inductive CStage where
  | nobody
  | loading
  /-- `load` failed, before `pid = -1` -/
  | erring
  /-- before `sema_up` of `start_process` -/
  | acking
  /-- running, or in `process_exit` before its `ref_cnt--` -/
  | acked
  /-- after `ref_cnt--`, before its test -/
  | dec
  | upping
  | freeing
  | done
  deriving DecidableEq, Repr

/-- How often the child has upped `sema_exec`. -/
def CStage.ups : CStage → Nat
  | .nobody | .loading | .erring | .acking => 0
  | .acked | .dec | .upping | .freeing => 1
  | .done => 2

/-- How often the child has decremented `ref_cnt`. -/
def CStage.decs : CStage → Nat
  | .dec | .upping | .freeing | .done => 1
  | _ => 0

/-- How often the parent has decremented `ref_cnt`. -/
def PStage.decs : PStage → Nat
  | .decd | .dropped | .deleting | .left => 1
  | _ => 0

/-- The parent has set the semaphore up and not yet passed it. -/
def PStage.waiting : PStage → Bool
  | .init | .stored => true
  | _ => false

/-- The parent has passed the semaphore once. -/
def PStage.once : PStage → Bool
  | .passed | .opened _ | .failed | .listed => true
  | _ => false

/-- The parent is past the gate of `process_wait`, or going to delete the record. -/
def PStage.behind : PStage → Bool
  | .gated | .collected _ | .reaped _ | .deleting => true
  | _ => false

/-- The parent has freed the record. -/
def PStage.hasFreed : PStage → Bool
  | .refused | .reaped _ | .gone => true
  | _ => false

theorem CStage.decs_of_ups : ∀ {c : CStage}, 1 < c.ups → c.decs = 1
  | .done, _ => rfl

theorem CStage.ups_of_decs : ∀ {c : CStage}, c.decs = 1 → 1 ≤ c.ups
  | .dec, _ | .upping, _ | .freeing, _ | .done, _ => by decide

theorem CStage.decs_le (c : CStage) : c.decs ≤ 1 := by
  cases c <;> decide

structure View where
  ref : Int
  value : Nat
  freed : Nat
  pid : Int
  status : Int
  p : PStage
  /-- the tid of the child, or `TID_ERROR` -/
  tid : Int
  c : CStage
  /-- `success` of the child -/
  ok : Option Bool
  fate : Option Fate
  deriving DecidableEq

/-- The scheduling conditions an action may be taken under. -/
structure Guards where
  /-- A record is freed outside the other party's windows. -/
  calm : Prop
  /-- The child stores and ups what the parent has initialised. -/
  prompt : Prop
  /-- A process is killed with -1 in `exit_status`. -/
  settled : Prop

/-- One action of the parent or of the child. -/
inductive Proto (G : Guards) (v : View) : View → Prop where
  | semaValue : v.p = .made → Proto G v { v with p := .init, value := 0 }
  | storePid : v.p = .init → Proto G v { v with p := .stored, pid := v.tid }
  | pass : v.p = .stored → 0 < v.value → Proto G v { v with p := .passed, value := v.value - 1 }
  | readPid : v.p = .passed → v.pid ≠ tidError → Proto G v { v with p := .opened v.pid }
  | readErr : v.p = .passed → v.pid = tidError → Proto G v { v with p := .failed }
  | return {x : Int} : v.p = .opened x → Proto G v { v with p := .listed }
  | refuse : v.p = .failed → (G.calm → v.c = .done) →
      Proto G v { v with p := .refused, freed := v.freed + 1 }
  | returnErr : v.p = .refused → Proto G v { v with p := .gone }
  | gateRef : v.p = .listed → v.ref ≠ 2 → Proto G v { v with p := .gated }
  | gateDown : v.p = .listed → 0 < v.value →
      Proto G v { v with p := .gated, value := v.value - 1 }
  | collect : v.p = .gated → Proto G v { v with p := .collected v.status }
  | reap {x : Int} : v.p = .collected x → (G.calm → v.c = .done) →
      Proto G v { v with p := .reaped x, freed := v.freed + 1 }
  | returnStatus {x : Int} : v.p = .reaped x → Proto G v { v with p := .gone }
  | parentDec : v.p = .listed → Proto G v { v with p := .decd, ref := v.ref - 1 }
  | drop : v.p = .decd → v.ref ≠ 0 → Proto G v { v with p := .dropped }
  | enlist : v.p = .decd → v.ref = 0 → Proto G v { v with p := .deleting }
  | delete : v.p = .deleting → (G.calm → v.c = .done) →
      Proto G v { v with p := .gone, freed := v.freed + 1 }
  | leave : v.p = .dropped → Proto G v { v with p := .left }
  | load : v.c = .loading → Proto G v { v with c := .acking, ok := some true }
  | loadErr : v.c = .loading → Proto G v { v with c := .erring, ok := some false }
  | storeErr : v.c = .erring → (G.prompt → v.p ≠ .made ∧ v.p ≠ .init) →
      Proto G v { v with c := .acking, pid := tidError }
  | ack : v.c = .acking → v.ok = some true → (G.prompt → v.p ≠ .made) →
      Proto G v { v with c := .acked, value := (v.value + 1) % 2 ^ 32 }
  | ackErr : v.c = .acking → v.ok = some false → (G.prompt → v.p ≠ .made) →
      Proto G v { v with c := .acked, value := (v.value + 1) % 2 ^ 32, fate := some .unloaded }
  | exit {x : Int} : v.c = .acked → v.fate = none →
      Proto G v { v with fate := some (.exit x), status := x }
  | kill : v.c = .acked → v.fate = none → (G.settled → v.status = -1) →
      Proto G v { v with fate := some .killed }
  | childDec : v.c = .acked → v.fate ≠ none →
      Proto G v { v with c := .dec, ref := v.ref - 1 }
  | testZero : v.c = .dec → v.ref = 0 → Proto G v { v with c := .freeing }
  | testPos : v.c = .dec → v.ref ≠ 0 → Proto G v { v with c := .upping }
  | up : v.c = .upping → Proto G v { v with c := .done, value := (v.value + 1) % 2 ^ 32 }
  | free : v.c = .freeing → (G.calm → v.p = .left ∨ v.p.hasFreed = true) →
      Proto G v { v with c := .done, freed := v.freed + 1 }

/-- A record just allocated. -/
structure Fresh (v : View) : Prop where
  ref : v.ref = 2
  freed : v.freed = 0
  p : v.p = .made
  c : v.c = .loading ∧ v.tid ≠ tidError ∨ v.c = .nobody ∧ v.tid = tidError
  ok : v.ok = none
  fate : v.fate = none

/-! ## The gates -/

/-- What the counter and the semaphore say about the child, in every run. -/
structure Gates (v : View) : Prop where
  /-- `ref_cnt` counts the parties before their decrement. -/
  ref : v.p.hasFreed = false → v.ref = 2 - v.c.decs - v.p.decs
  /-- The semaphore holds no more units than the child has upped and the parent
  not taken. -/
  waiting : v.p.waiting = true → v.value ≤ v.c.ups
  once : v.p.once = true → v.value + 1 ≤ v.c.ups
  /-- The gate of `process_wait` opens after the child's `ref_cnt--` only. -/
  behind : v.p.behind = true → v.c.decs = 1
  fate : v.c.decs = 1 → v.fate ≠ none
  freeing : v.c = .freeing → v.p.decs = 1 ∨ v.p.hasFreed = true

theorem Fresh.gates {v : View} (h : Fresh v) : Gates v := by
  obtain ⟨href, -, hp, hc, -, hf⟩ := h
  have hz : v.c.decs = 0 ∧ v.c ≠ .freeing := by
    rcases hc with ⟨hc, -⟩ | ⟨hc, -⟩ <;> rw [hc] <;> decide
  constructor <;>
    simp [hp, hz, href, PStage.decs, PStage.waiting, PStage.once, PStage.behind]

theorem Proto.gates {G : Guards} {v v' : View} (h : Proto G v v') (hv : Gates v) : Gates v' := by
  obtain ⟨href, hwait, honce, hbehind, hfate, hfree⟩ := hv
  obtain ⟨ref, value, freed, pid, status, p, tid, c, ok, fate⟩ := v
  dsimp only at *
  cases h with
  -- the parent
  | semaValue hp =>
    subst hp
    exact ⟨fun _ => href rfl, fun _ => Nat.zero_le _, nofun, nofun, hfate, hfree⟩
  | storePid hp =>
    subst hp
    exact ⟨fun _ => href rfl, fun _ => hwait rfl, nofun, nofun, hfate, hfree⟩
  | pass hp hv =>
    subst hp
    refine ⟨fun _ => href rfl, nofun, fun _ => ?_, nofun, hfate, hfree⟩
    have := hwait rfl
    dsimp only at *
    omega
  | readPid hp | readErr hp | «return» hp =>
    subst hp
    exact ⟨fun _ => href rfl, nofun, fun _ => honce rfl, nofun, hfate, hfree⟩
  | refuse hp =>
    subst hp
    exact ⟨nofun, nofun, nofun, nofun, hfate, fun _ => .inr rfl⟩
  | returnErr hp | returnStatus hp =>
    subst hp
    exact ⟨nofun, nofun, nofun, nofun, hfate, hfree⟩
  | gateRef hp hr =>
    subst hp
    refine ⟨fun _ => href rfl, nofun, nofun, fun _ => ?_, hfate, hfree⟩
    have := href rfl
    have := c.decs_le
    simp only [PStage.decs] at *
    omega
  | gateDown hp hv =>
    subst hp
    refine ⟨fun _ => href rfl, nofun, nofun, fun _ => CStage.decs_of_ups ?_, hfate, hfree⟩
    have := honce rfl
    dsimp only at *
    omega
  | collect hp =>
    subst hp
    exact ⟨fun _ => href rfl, nofun, nofun, fun _ => hbehind rfl, hfate, hfree⟩
  | reap hp =>
    subst hp
    exact ⟨nofun, nofun, nofun, fun _ => hbehind rfl, hfate, fun _ => .inr rfl⟩
  | parentDec hp =>
    subst hp
    refine ⟨fun _ => ?_, nofun, nofun, nofun, hfate, fun _ => .inl rfl⟩
    have := href rfl
    simp only [PStage.decs] at *
    omega
  | drop hp =>
    subst hp
    exact ⟨fun _ => href rfl, nofun, nofun, nofun, hfate, hfree⟩
  | enlist hp hr =>
    subst hp
    refine ⟨fun _ => href rfl, nofun, nofun, fun _ => ?_, hfate, hfree⟩
    have := href rfl
    simp only [PStage.decs] at *
    omega
  | delete hp =>
    subst hp
    exact ⟨nofun, nofun, nofun, nofun, hfate, fun _ => .inr rfl⟩
  | leave hp =>
    subst hp
    exact ⟨fun _ => href rfl, nofun, nofun, nofun, hfate, hfree⟩
  -- the child
  | load hc | loadErr hc | storeErr hc =>
    subst hc
    exact ⟨href, hwait, honce, hbehind, hfate, nofun⟩
  | ack hc | ackErr hc =>
    subst hc
    refine ⟨href, fun h => ?_, fun h => ?_, hbehind, nofun, nofun⟩
    · have := hwait h
      have := Nat.mod_le (value + 1) (2 ^ 32)
      simp only [CStage.ups] at *
      omega
    · exact absurd (honce h) (by simp [CStage.ups])
  | exit hc | kill hc =>
    subst hc
    exact ⟨href, hwait, honce, hbehind, nofun, nofun⟩
  | childDec hc hf =>
    subst hc
    refine ⟨fun h => ?_, hwait, honce, fun _ => rfl, fun _ => hf, nofun⟩
    have := href h
    simp only [CStage.decs] at *
    omega
  | testZero hc hr =>
    subst hc
    refine ⟨href, hwait, honce, fun _ => rfl, fun _ => hfate rfl, fun _ => ?_⟩
    by_cases hp : p.hasFreed = true
    · exact .inr hp
    · have := href (by simpa using hp)
      simp only [CStage.decs] at *
      omega
  | testPos hc =>
    subst hc
    exact ⟨href, hwait, honce, fun _ => rfl, fun _ => hfate rfl, nofun⟩
  | up hc =>
    subst hc
    have hmod := Nat.mod_le (value + 1) (2 ^ 32)
    refine ⟨href, fun h => ?_, fun h => ?_, fun _ => rfl, fun _ => hfate rfl, nofun⟩
    · have := hwait h
      simp only [CStage.ups] at *
      omega
    · have := honce h
      simp only [CStage.ups] at *
      omega
  | free hc =>
    subst hc
    refine ⟨href, fun h => ?_, fun h => ?_, fun _ => rfl, fun _ => hfate rfl, nofun⟩
    · exact Nat.le_trans (hwait h) (Nat.le_succ 1)
    · exact Nat.le_trans (honce h) (Nat.le_succ 1)

/-! ## Ownership -/

/-- How often the record has been freed: by the parent, or by a child that finds it
dropped. -/
def frees (p : PStage) (c : CStage) : Nat :=
  match p, c with
  | .refused, _ | .reaped _, _ | .gone, _ => 1
  | .left, .done => 1
  | _, _ => 0

/-- The record is freed by one party, after the other is through with it. -/
structure Owned (v : View) : Prop where
  freed : v.freed = frees v.p v.c
  /-- The parent frees after the child. -/
  done : v.p.hasFreed = true → v.c = .done
  /-- A record left to the child is not upped, and freed when the parent has left. -/
  dropped : v.p = .dropped ∨ v.p = .left → v.c ≠ .upping
  waits : v.p = .dropped → v.c ≠ .done

theorem Fresh.owned {v : View} (h : Fresh v) : Owned v := by
  obtain ⟨-, hf, hp, -, -, -⟩ := h
  constructor <;> simp [hp, hf, frees, PStage.hasFreed]

theorem Proto.owned {G : Guards} (hG : G.calm) {v v' : View} (h : Proto G v v') (hg : Gates v)
    (hv : Owned v) : Owned v' := by
  obtain ⟨hfreed, hdone, hdrop, hwaits⟩ := hv
  have href := hg.ref
  obtain ⟨ref, value, freed, pid, status, p, tid, c, ok, fate⟩ := v
  dsimp only at *
  cases h with
  -- the parent
  | semaValue hp | storePid hp | pass hp | readPid hp | readErr hp | «return» hp | gateRef hp
  | gateDown hp | collect hp | parentDec hp | enlist hp =>
    subst hp
    exact ⟨hfreed, nofun, nofun, nofun⟩
  | returnErr hp | returnStatus hp =>
    subst hp
    exact ⟨hfreed, fun _ => hdone rfl, nofun, nofun⟩
  | refuse hp hc | reap hp hc | delete hp hc =>
    subst hp
    exact ⟨congrArg (· + 1) hfreed, fun _ => hc hG, nofun, nofun⟩
  | drop hp hr =>
    subst hp
    -- The child has not decremented, so it will find zero.
    have hdecs : c.decs = 0 := by
      have := href rfl
      have := c.decs_le
      simp only [PStage.decs] at *
      omega
    refine ⟨hfreed, nofun, fun _ hc => ?_, fun _ hc => ?_⟩ <;>
    · dsimp only at hc
      subst hc
      cases hdecs
  | leave hp =>
    subst hp
    refine ⟨?_, nofun, fun _ => hdrop (.inl rfl), nofun⟩
    cases c with
    | done => exact absurd rfl (hwaits rfl)
    | _ => exact hfreed
  -- the child
  | load hc | loadErr hc | storeErr hc | ack hc | ackErr hc | exit hc | kill hc | childDec hc
  | testZero hc =>
    subst hc
    refine ⟨?_, fun h => absurd (hdone h) nofun, fun _ => nofun, fun _ => nofun⟩
    cases p <;> exact hfreed
  | testPos hc hr =>
    subst hc
    refine ⟨?_, fun h => absurd (hdone h) nofun, fun h => ?_, fun _ => nofun⟩
    · cases p <;> exact hfreed
    · -- A dropped record has been decremented by both.
      exact absurd (by rcases h with rfl | rfl <;> exact href rfl) hr
  | up hc =>
    subst hc
    refine ⟨?_, fun _ => rfl, fun _ => nofun, fun h => absurd rfl (hdrop (.inl h))⟩
    cases p with
    | left => exact absurd rfl (hdrop (.inr rfl))
    | _ => exact hfreed
  | free hc hp =>
    subst hc
    rcases hp hG with rfl | hp
    · exact ⟨congrArg (· + 1) hfreed, nofun, fun _ => nofun, nofun⟩
    · exact absurd (hdone hp) nofun

/-- **A record both parties are through with was freed once.** -/
theorem Owned.freed_once {v : View} (h : Owned v) (hp : v.p = .left ∨ v.p = .gone)
    (hc : v.c = .done) : v.freed = 1 := by
  rw [h.freed, hc]
  rcases hp with hp | hp <;> rw [hp] <;> rfl

/-- The parent may touch what it has neither freed nor left. -/
theorem Owned.parent {v : View} (h : Owned v) (hp : v.p.hasFreed = false) (hl : v.p ≠ .left) :
    v.freed = 0 := by
  rw [h.freed]
  generalize v.p = p at *
  cases p <;> first | rfl | exact absurd rfl hl | cases hp

/-- The child may touch the record until it is through. -/
theorem Owned.child {v : View} (h : Owned v) (hc : v.c ≠ .done) : v.freed = 0 := by
  have hp : v.p.hasFreed = false := by
    cases hf : v.p.hasFreed with
    | false => rfl
    | true => exact absurd (h.done hf) hc
  rw [h.freed]
  generalize v.p = p at *
  generalize v.c = c at *
  cases p <;> cases c <;> first | rfl | exact absurd rfl hc | cases hp

/-! ## The exec handshake -/

/-- The record is known to the parent by the tid of its child. -/
def PStage.kept : PStage → Bool
  | .opened _ | .listed | .gated | .collected _ | .reaped _ => true
  | _ => false

/-- `pid` and `exit_status` as the parent finds them, in every run. -/
structure Named (v : View) : Prop where
  stored : v.p = .stored ∨ v.p = .passed → v.pid = v.tid ∨ v.pid = tidError
  kept : v.p.kept = true → v.pid = v.tid
  /-- The status that was read is the final one. -/
  read : ∀ x, v.p = .collected x ∨ v.p = .reaped x → x = v.status

theorem Fresh.named {v : View} (h : Fresh v) : Named v := by
  obtain ⟨-, -, hp, -, -, -⟩ := h
  constructor <;> simp [hp, PStage.kept]

theorem Gates.ups_of_kept {v : View} (h : Gates v) (hp : v.p.kept = true) : 1 ≤ v.c.ups := by
  by_cases ho : v.p.once = true
  · have := h.once ho
    omega
  · refine CStage.ups_of_decs (h.behind ?_)
    generalize v.p = p at *
    cases p <;> first | rfl | exact absurd rfl ho | cases hp

theorem Proto.named {G : Guards} {v v' : View} (h : Proto G v v') (hg : Gates v)
    (hv : Named v) : Named v' := by
  have hups := hg.ups_of_kept
  have hbehind := hg.behind
  have hfate := hg.fate
  obtain ⟨hstore, hkept, hread⟩ := hv
  obtain ⟨ref, value, freed, pid, status, p, tid, c, ok, fate⟩ := v
  dsimp only at *
  cases h with
  | semaValue hp | readErr hp | refuse hp | returnErr hp | returnStatus hp | parentDec hp
  | drop hp | enlist hp | delete hp | leave hp =>
    subst hp
    exact ⟨nofun, nofun, nofun⟩
  | storePid hp =>
    subst hp
    exact ⟨fun _ => .inl rfl, nofun, nofun⟩
  | pass hp =>
    subst hp
    exact ⟨fun _ => hstore (.inl rfl), nofun, nofun⟩
  | readPid hp hne =>
    subst hp
    exact ⟨nofun, fun _ => (hstore (.inr rfl)).resolve_right hne, nofun⟩
  | «return» hp | gateRef hp | gateDown hp =>
    subst hp
    exact ⟨nofun, fun _ => hkept rfl, nofun⟩
  | collect hp =>
    subst hp
    refine ⟨nofun, fun _ => hkept rfl, fun x hx => ?_⟩
    rcases hx with hx | hx
    · exact (PStage.collected.inj hx).symm
    · cases hx
  | reap hp =>
    subst hp
    refine ⟨nofun, fun _ => hkept rfl, fun x hx => ?_⟩
    rcases hx with hx | hx
    · cases hx
    · obtain rfl := PStage.reaped.inj hx
      exact hread _ (.inl rfl)
  | load | loadErr | ack | ackErr | kill | childDec | testZero | testPos | up | free =>
    exact ⟨hstore, hkept, hread⟩
  | storeErr hc =>
    subst hc
    refine ⟨fun _ => .inr rfl, fun h => ?_, hread⟩
    exact absurd (hups h) (by simp [CStage.ups])
  | exit hc hf =>
    -- After the gate the child is past `exit`.
    refine ⟨hstore, hkept, fun x hx => absurd hf (hfate (hbehind ?_))⟩
    rcases hx with rfl | rfl <;> rfl

/-- How the child ended. -/
structure Ended (v : View) : Prop where
  running : v.c.ups = 0 → v.fate = none
  unloaded : v.fate = some .unloaded → v.ok = some false

theorem Fresh.ended {v : View} (h : Fresh v) : Ended v := by
  obtain ⟨-, -, -, -, -, hf⟩ := h
  constructor <;> simp [hf]

theorem Proto.ended {G : Guards} {v v' : View} (h : Proto G v v') (hv : Ended v) : Ended v' := by
  obtain ⟨hrun, hun⟩ := hv
  obtain ⟨ref, value, freed, pid, status, p, tid, c, ok, fate⟩ := v
  dsimp only at *
  cases h with
  | load hc | loadErr hc =>
    subst hc
    exact ⟨fun _ => hrun rfl, fun h => absurd ((hrun rfl).symm.trans h) nofun⟩
  | storeErr hc =>
    subst hc
    exact ⟨fun _ => hrun rfl, hun⟩
  | ack | up | free => exact ⟨nofun, hun⟩
  | ackErr hc hok => exact ⟨nofun, fun _ => hok⟩
  | exit hc | kill hc =>
    subst hc
    exact ⟨nofun, nofun⟩
  | childDec | testZero | testPos => exact ⟨nofun, hun⟩
  | _ => exact ⟨hrun, hun⟩

/-- `exit_status` says how the child ended. -/
structure Settled (v : View) : Prop where
  exit : ∀ x, v.fate = some (.exit x) → v.status = x
  killed : v.fate = some .killed → v.status = -1

theorem Fresh.settled {v : View} (h : Fresh v) : Settled v := by
  obtain ⟨-, -, -, -, -, hf⟩ := h
  constructor <;> simp [hf]

theorem Proto.settled {G : Guards} (hG : G.settled) {v v' : View} (h : Proto G v v')
    (hv : Settled v) : Settled v' := by
  obtain ⟨hexit, hkill⟩ := hv
  cases h with
  | ackErr => exact ⟨nofun, nofun⟩
  | exit => exact ⟨fun x hx => Fate.exit.inj (Option.some.inj hx), nofun⟩
  | kill _ _ hs => exact ⟨nofun, fun _ => hs hG⟩
  | _ => exact ⟨hexit, hkill⟩

end Pintos.Userprog
