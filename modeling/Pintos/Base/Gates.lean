import Pintos.Base.Ia32

/-!
# Interrupt gates of IA-32

How the processor enters the code for an interrupt: what a descriptor of the interrupt table says,
which stack is used, and which words are pushed. `Cpu.iret` is the way back.
-/

namespace Pintos.Base.Ia32

/-- What a descriptor of the interrupt table says. -/
structure Gate where
  offset : Word
  selector : BitVec 16
  dpl : BitVec 2
  /-- A trap gate leaves interrupts as they are, an interrupt gate turns them off. -/
  trap : Bool
  deriving DecidableEq, Repr

/-- A gate that is present, for 32-bit code. -/
def Gate.decode (d : BitVec 64) : Option Gate :=
  let gate (trap : Bool) : Gate :=
    ⟨d.extractLsb' 48 16 ++ d.extractLsb' 0 16, d.extractLsb' 16 16, d.extractLsb' 45 2, trap⟩
  if d.getLsbD 47 then
    if d.extractLsb' 40 5 = 0b01110#5 then some (gate false)
    else if d.extractLsb' 40 5 = 0b01111#5 then some (gate true)
    else none
  else none

/-- The stack that the task-state segment names for the innermost level. -/
structure Tss where
  esp0 : Word
  ss0 : BitVec 16

namespace Cpu

/-- TF, NT, RF and VM, and IF for an interrupt gate. -/
def clearedFlags (trap : Bool) : Word := if trap then 0x34100 else 0x34300

/-- The gate leads to an inner level, to which belongs a stack of its own. -/
def inward (c : Cpu) (g : Gate) : Bool := decide (rpl g.selector < c.cpl)

/-- The words that tell the stack to come back to. -/
def outer (c : Cpu) (g : Gate) : List Word :=
  if c.inward g then [c.reg .esp, (c.seg .ss).setWidth 32] else []

/-- The words pushed, the last one first. -/
def delivered (c : Cpu) (g : Gate) (err : Option Word) : List Word :=
  err.toList ++ [c.eip, (c.seg .cs).setWidth 32, c.eflags] ++ c.outer g

/-- On the stack on which they are pushed. -/
def entered (c : Cpu) (g : Gate) (tss : Tss) : Cpu :=
  if c.inward g then (c.set .esp tss.esp0).setSeg .ss tss.ss0 else c

/-- The entry through a gate; `c.eip` is the address to come back to. -/
def deliver (c : Cpu) (g : Gate) (tss : Tss) (err : Option Word) : Cpu :=
  { ((c.delivered g err).reverse.foldl push (c.entered g tss)).setSeg .cs g.selector with
    eip := g.offset
    eflags := c.eflags &&& ~~~clearedFlags g.trap }

/-- `int`, which may come from an outer level only through a gate that is open to it. -/
def int (c : Cpu) (g : Gate) (tss : Tss) : Option Cpu :=
  if c.cpl ≤ g.dpl then some (c.deliver g tss none) else none

section

variable (c : Cpu) (g : Gate) (tss : Tss) (err : Option Word)

theorem delivered_length : (c.delivered g err).length ≤ 6 := by
  have h : err.toList.length ≤ 1 := by cases err <;> simp
  unfold delivered outer
  split <;> simp only [List.length_append, List.length_cons, List.length_nil] <;> omega

theorem entered_reg {r : Reg} (h : r ≠ .esp) : (c.entered g tss).reg r = c.reg r := by
  unfold entered
  split
  · exact set_of_ne c tss.esp0 h
  · rfl

theorem entered_mem : (c.entered g tss).mem = c.mem := by
  unfold entered
  split <;> rfl

theorem deliver_stack : Stack (c.deliver g tss err) (c.delivered g err) := by
  have hl := c.delivered_length g err
  have h : Stack (c.entered g tss) [] := trivial
  have h' := h.pushes ((c.delivered g err).reverse)
    (by simp only [List.length_reverse, List.length_nil]; omega)
  rw [List.reverse_reverse, List.append_nil] at h'
  exact h'

theorem deliver_pushed : Pushed (c.delivered g err).length (c.entered g tss) (c.deliver g tss err) := by
  have hl := c.delivered_length g err
  have h := pushes_pushed ((c.delivered g err).reverse) (c.entered g tss)
    (by rw [List.length_reverse]; omega)
  rw [List.length_reverse] at h
  exact ⟨h.esp, h.reg, h.mem⟩

theorem deliver_reg {r : Reg} (h : r ≠ .esp) : (c.deliver g tss err).reg r = c.reg r :=
  ((c.deliver_pushed g tss err).reg r h).trans (c.entered_reg g tss h)

theorem deliver_seg {s : Seg} (h : s ≠ .cs) (h' : s ≠ .ss) :
    (c.deliver g tss err).seg s = c.seg s := by
  have hp := (pushes_else (c.entered g tss) (c.delivered g err).reverse).1
  refine (Function.update_of_ne h ..).trans ((congrFun hp s).trans ?_)
  unfold entered
  split
  · exact Function.update_of_ne h' ..
  · rfl

theorem deliver_ss : (c.deliver g tss err).seg .ss = (c.entered g tss).seg .ss := by
  have h : Seg.ss ≠ .cs := by decide
  exact (Function.update_of_ne h g.selector _).trans
    (congrFun (pushes_else (c.entered g tss) (c.delivered g err).reverse).1 .ss)

theorem deliver_cs : (c.deliver g tss err).seg .cs = g.selector := by
  simp [deliver, setSeg]

end

end Cpu

end Pintos.Base.Ia32
