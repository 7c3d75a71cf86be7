import Pintos.Base.Reach
import Pintos.Threads.IntrStubs
import Mathlib.Tactic.IntervalCases

/-!
# The interrupt table (threads/interrupt.c)

`make_gate` and the registration of handlers, of which `H` is the type; a handler is not a null
pointer. A failed ASSERT is `none`.
-/

namespace Pintos.Threads.Intr

open Pintos.Base Pintos.Base.Ia32

/-! ## Gates -/

/-- `make_gate` past its ASSERTs, with the arguments as their fields of the gate. -/
def gateBits (function : Word) (dpl : BitVec 2) (type : BitVec 4) : BitVec 64 :=
  let e0 : Word := (function &&& 0xffff#32) ||| (selKcseg.setWidth 32 <<< 16)
  let e1 : Word := (function &&& 0xffff0000#32) ||| (1#32 <<< 15) ||| (dpl.setWidth 32 <<< 13) |||
    (0#32 <<< 12) ||| (type.setWidth 32 <<< 8)
  e0.setWidth 64 ||| (e1.setWidth 64 <<< 32)

def makeGate (function : Word) (dpl type : Int) : Option (BitVec 64) :=
  if function ≠ 0 ∧ (0 ≤ dpl ∧ dpl ≤ 3) ∧ 0 ≤ type ∧ type ≤ 15 then
    some (gateBits function (BitVec.ofInt 2 dpl) (BitVec.ofInt 4 type))
  else none

def makeIntrGate (function : Word) (dpl : Int) : Option (BitVec 64) := makeGate function dpl 14

def makeTrapGate (function : Word) (dpl : Int) : Option (BitVec 64) := makeGate function dpl 15

section

variable (f : Word) (d : BitVec 2) (t : BitVec 4)

theorem gateBits_selector : (gateBits f d t).extractLsb' 16 16 = selKcseg := by
  apply BitVec.eq_of_getLsbD_eq
  intro i hi
  unfold gateBits selKcseg
  interval_cases i <;> simp

theorem gateBits_dpl : (gateBits f d t).extractLsb' 45 2 = d := by
  apply BitVec.eq_of_getLsbD_eq
  intro i hi
  unfold gateBits selKcseg
  interval_cases i <;> simp

theorem gateBits_type : (gateBits f d t).extractLsb' 40 5 = 0#1 ++ t := by
  apply BitVec.eq_of_getLsbD_eq
  intro i hi
  rw [BitVec.getLsbD_append]
  unfold gateBits selKcseg
  interval_cases i <;> simp

theorem gateBits_present : (gateBits f d t).getLsbD 47 = true := by
  simp [gateBits, selKcseg]

theorem gateBits_offset :
    (gateBits f d t).extractLsb' 48 16 ++ (gateBits f d t).extractLsb' 0 16 = f := by
  apply BitVec.eq_of_getLsbD_eq
  intro i hi
  rw [BitVec.getLsbD_append]
  unfold gateBits selKcseg
  interval_cases i <;> simp

end

/-- What the processor reads is what `make_intr_gate` and `make_trap_gate` were given. -/
theorem decode_makeGate {f : Word} {dpl : Int} (trap : Bool) {d : BitVec 64}
    (h : makeGate f dpl (if trap then 15 else 14) = some d) :
    Gate.decode d = some ⟨f, selKcseg, BitVec.ofInt 2 dpl, trap⟩ := by
  unfold makeGate at h
  cases trap with
  | false =>
    obtain ⟨-, h⟩ := Option.ite_none_right_eq_some.mp h
    obtain rfl := Option.some.inj h
    unfold Gate.decode
    rw [if_pos (gateBits_present ..), gateBits_type, gateBits_selector, gateBits_dpl, gateBits_offset]
    rfl
  | true =>
    obtain ⟨-, h⟩ := Option.ite_none_right_eq_some.mp h
    obtain rfl := Option.some.inj h
    unfold Gate.decode
    rw [if_pos (gateBits_present ..), gateBits_type, gateBits_selector, gateBits_dpl, gateBits_offset]
    rfl

/-! ## Registration -/

/-- `idt`, `intr_handlers` and `intr_names`. -/
structure Tables (H : Type) where
  idt : BitVec 8 → BitVec 64
  intrHandlers : BitVec 8 → Option H
  intrNames : BitVec 8 → String

/-- The names that `intr_init` gives. -/
def exceptionName (vec : BitVec 8) : String :=
  match vec.toNat with
  | 0 => "#DE Divide Error"
  | 1 => "#DB Debug Exception"
  | 2 => "NMI Interrupt"
  | 3 => "#BP Breakpoint Exception"
  | 4 => "#OF Overflow Exception"
  | 5 => "#BR BOUND Range Exceeded Exception"
  | 6 => "#UD Invalid Opcode Exception"
  | 7 => "#NM Device Not Available Exception"
  | 8 => "#DF Double Fault Exception"
  | 9 => "Coprocessor Segment Overrun"
  | 10 => "#TS Invalid TSS Exception"
  | 11 => "#NP Segment Not Present"
  | 12 => "#SS Stack Fault Exception"
  | 13 => "#GP General Protection Exception"
  | 14 => "#PF Page-Fault Exception"
  | 16 => "#MF x87 FPU Floating-Point Error"
  | 17 => "#AC Alignment Check Exception"
  | 18 => "#MC Machine-Check Exception"
  | 19 => "#XF SIMD Floating-Point Exception"
  | _ => "unknown"

/-- `intr_init` past `pic_init`, for the table `intr_stubs`. -/
def intrInit (H : Type) (intrStubs : BitVec 8 → Word) : Option (Tables H) :=
  if ∀ vec, (makeIntrGate (intrStubs vec) 0).isSome then
    some {
      idt := fun vec => (makeIntrGate (intrStubs vec) 0).getD 0
      intrHandlers := fun _ => none
      intrNames := exceptionName }
  else none

variable {H : Type}

/-- `register_handler`; the level `INTR_ON` is `true`. -/
def registerHandler (intrStubs : BitVec 8 → Word) (s : Tables H) (vecNo : BitVec 8) (dpl : Int)
    (level : Bool) (handler : H) (name : String) : Option (Tables H) :=
  if (s.intrHandlers vecNo).isNone then
    let gate := if level then makeTrapGate (intrStubs vecNo) dpl else makeIntrGate (intrStubs vecNo) dpl
    gate.map fun d => {
      idt := Function.update s.idt vecNo d
      intrHandlers := Function.update s.intrHandlers vecNo (some handler)
      intrNames := Function.update s.intrNames vecNo name }
  else none

/-- The vectors of the devices. -/
def External (vec : BitVec 8) : Prop := 0x20 ≤ vec ∧ vec ≤ 0x2f

instance (vec : BitVec 8) : Decidable (External vec) := inferInstanceAs (Decidable (_ ∧ _))

/-- `intr_register_ext` and `intr_register_int`. -/
inductive Registration (H : Type) where
  | ext (vecNo : BitVec 8) (handler : H) (name : String)
  | int (vecNo : BitVec 8) (dpl : Int) (level : Bool) (handler : H) (name : String)

def register (intrStubs : BitVec 8 → Word) (s : Tables H) : Registration H → Option (Tables H)
  | .ext vecNo handler name =>
    if External vecNo then registerHandler intrStubs s vecNo 0 false handler name else none
  | .int vecNo dpl level handler name =>
    if External vecNo then none else registerHandler intrStubs s vecNo dpl level handler name

/-! ## The tables -/

/-- The gate leads to the stub of its vector; that of a device is closed to user programs and turns
interrupts off, and so is one without a handler. -/
structure GateOk (intrStubs : BitVec 8 → Word) (s : Tables H) (vec : BitVec 8) (g : Gate) : Prop where
  decode : Gate.decode (s.idt vec) = some g
  offset : g.offset = intrStubs vec
  selector : g.selector = selKcseg
  kernel : External vec ∨ s.intrHandlers vec = none → g.dpl = 0 ∧ g.trap = false

def TablesOk (intrStubs : BitVec 8 → Word) (s : Tables H) : Prop :=
  ∀ vec, ∃ g, GateOk intrStubs s vec g

section

variable {intrStubs : BitVec 8 → Word} {s s' s₀ : Tables H} {vec vecNo : BitVec 8} {dpl : Int}
  {level : Bool} {handler : H} {name : String} {r : Registration H}

theorem intrInit_ok (h : intrInit H intrStubs = some s) : TablesOk intrStubs s := by
  obtain ⟨hg, h⟩ := Option.ite_none_right_eq_some.mp h
  obtain rfl := Option.some.inj h
  intro vec
  obtain ⟨d, hd⟩ := Option.isSome_iff_exists.mp (hg vec)
  have hidt : (makeIntrGate (intrStubs vec) 0).getD 0 = d := by rw [hd, Option.getD_some]
  exact ⟨⟨intrStubs vec, selKcseg, 0, false⟩,
    (congrArg Gate.decode hidt).trans (decode_makeGate false hd), rfl, rfl, fun _ => ⟨rfl, rfl⟩⟩

/-- What `register_handler` does: it fills in an entry that has no handler, and no other. -/
theorem registerHandler_some (h : registerHandler intrStubs s vecNo dpl level handler name = some s') :
    s.intrHandlers vecNo = none ∧ (s'.intrHandlers vecNo = some handler ∧ s'.intrNames vecNo = name ∧
      Gate.decode (s'.idt vecNo) = some ⟨intrStubs vecNo, selKcseg, BitVec.ofInt 2 dpl, level⟩) ∧
    ∀ v ≠ vecNo, s'.intrHandlers v = s.intrHandlers v ∧ s'.idt v = s.idt v ∧
      s'.intrNames v = s.intrNames v := by
  obtain ⟨hn, h⟩ := Option.ite_none_right_eq_some.mp h
  obtain ⟨d, hd, rfl⟩ := Option.map_eq_some_iff.mp h
  refine ⟨Option.isNone_iff_eq_none.mp hn, ⟨Function.update_self .., Function.update_self .., ?_⟩,
    fun v hv => ⟨Function.update_of_ne hv .., Function.update_of_ne hv .., Function.update_of_ne hv ..⟩⟩
  show Gate.decode (Function.update s.idt vecNo d vecNo) = _
  rw [Function.update_self]
  cases level with
  | false => exact decode_makeGate false hd
  | true => exact decode_makeGate true hd

theorem TablesOk.registerHandler (h : TablesOk intrStubs s)
    (hr : registerHandler intrStubs s vecNo dpl level handler name = some s')
    (he : External vecNo → dpl = 0 ∧ level = false) : TablesOk intrStubs s' := by
  obtain ⟨-, ⟨hhand, -, hdec⟩, hrest⟩ := registerHandler_some hr
  intro v
  by_cases hv : v = vecNo
  · subst hv
    refine ⟨_, hdec, rfl, rfl, fun hk => ?_⟩
    rcases hk with hk | hk
    · obtain ⟨rfl, rfl⟩ := he hk
      exact ⟨rfl, rfl⟩
    · rw [hhand] at hk
      cases hk
  · obtain ⟨g, hg⟩ := h v
    obtain ⟨h₁, h₂, -⟩ := hrest v hv
    exact ⟨g, h₂ ▸ hg.decode, hg.offset, hg.selector, h₁ ▸ hg.kernel⟩

theorem TablesOk.register (h : TablesOk intrStubs s) (hr : register intrStubs s r = some s') :
    TablesOk intrStubs s' := by
  cases r with
  | ext vecNo handler name =>
    obtain ⟨-, hr⟩ := Option.ite_none_right_eq_some.mp hr
    exact h.registerHandler hr fun _ => ⟨rfl, rfl⟩
  | int vecNo dpl level handler name =>
    obtain ⟨he, hr⟩ := Option.ite_none_left_eq_some.mp hr
    exact h.registerHandler hr fun he' => absurd he' he

/-- An entry with a handler is never changed. -/
theorem register_keeps (hr : register intrStubs s r = some s') {k : H}
    (hk : s.intrHandlers vec = some k) : s'.intrHandlers vec = some k ∧ s'.idt vec = s.idt vec ∧
      s'.intrNames vec = s.intrNames vec := by
  have hkeep : ∀ {vecNo dpl level handler name},
      registerHandler intrStubs s vecNo dpl level handler name = some s' → vec ≠ vecNo ∧
        s'.intrHandlers vec = some k ∧ s'.idt vec = s.idt vec ∧
          s'.intrNames vec = s.intrNames vec := by
    intro vecNo dpl level handler name hr
    obtain ⟨hn, -, hrest⟩ := registerHandler_some hr
    have hne : vec ≠ vecNo := by
      rintro rfl
      rw [hn] at hk
      cases hk
    obtain ⟨h₁, h₂⟩ := hrest vec hne
    exact ⟨hne, h₁.trans hk, h₂⟩
  cases r with
  | ext => exact (hkeep (Option.ite_none_right_eq_some.mp hr).2).2
  | int => exact (hkeep (Option.ite_none_left_eq_some.mp hr).2).2

/-- What has once been registered stays. -/
theorem registered_kept (h : Reach (register intrStubs) Free s s') {k : H}
    (hk : s.intrHandlers vec = some k) :
    s'.intrHandlers vec = some k ∧ s'.idt vec = s.idt vec ∧ s'.intrNames vec = s.intrNames vec := by
  induction h with
  | refl => exact ⟨hk, rfl, rfl⟩
  | next _ _ hr ih =>
    obtain ⟨h₁, h₂, h₃⟩ := ih
    obtain ⟨h₁', h₂', h₃'⟩ := register_keeps hr h₁
    exact ⟨h₁', h₂'.trans h₂, h₃'.trans h₃⟩

/-- **The interrupt table in every state after `intr_init`**: each gate leads to the stub of its own
vector, the gates of the devices turn interrupts off and are closed to user programs, as are those
without a handler; and what has once been registered stays. -/
theorem idt_reached {intrStubs : BitVec 8 → Word} {s₀ s : Tables H}
    (h₀ : intrInit H intrStubs = some s₀) (h : Reach (register intrStubs) Free s₀ s) :
    TablesOk intrStubs s ∧ ∀ s' vec k, Reach (register intrStubs) Free s s' →
      s.intrHandlers vec = some k → s'.intrHandlers vec = some k ∧ s'.idt vec = s.idt vec ∧
        s'.intrNames vec = s.intrNames vec := by
  exact ⟨h.invariant (intrInit_ok h₀) fun _ _ _ hI _ hr => hI.register hr,
    fun _ _ _ hs' hk => registered_kept hs' hk⟩

/-- With the system call registered. -/
theorem idt_reached_example : ∃ s₀ s, intrInit Unit imageExample.intrStubs = some s₀ ∧
    register imageExample.intrStubs s₀ (.int 0x30 3 true () "syscall") = some s ∧
      TablesOk imageExample.intrStubs s := by
  have hall : ∀ vec, (makeIntrGate (imageExample.intrStubs vec) 0).isSome := by decide
  have h₀ : intrInit Unit imageExample.intrStubs = some _ := if_pos hall
  obtain ⟨s, hs⟩ := Option.isSome_iff_exists.mp (by decide : (register imageExample.intrStubs
    { idt := fun vec => (makeIntrGate (imageExample.intrStubs vec) 0).getD 0
      intrHandlers := fun _ => none
      intrNames := exceptionName } (.int 0x30 3 true () "syscall")).isSome)
  exact ⟨_, s, h₀, hs, (idt_reached h₀ (.next .refl trivial hs)).1⟩

end

end Pintos.Threads.Intr
