import Mathlib.Algebra.Order.Ring.Nat
import Mathlib.Logic.Function.Basic
import Mathlib.Tactic.Common

/-!
# A part of the IA-32 processor

The registers, flat memory and the instructions by which code saves, switches and restores them, in
32-bit protected mode. Code is apart from memory: what is at an address is an instruction and the
address after it. Segments begin at 0, and loading one does not look at its descriptor.
-/

namespace Pintos.Base.Ia32

abbrev Word := BitVec 32

abbrev Mem := Word → BitVec 8

/-! ## Words in memory -/

/-- The little-endian word at `a`. -/
def load (m : Mem) (a : Word) : Word := m (a + 3#32) ++ m (a + 2#32) ++ m (a + 1#32) ++ m a

def store (m : Mem) (a v : Word) : Mem := fun x =>
  if x - a < 4 then v.extractLsb' (8 * (x - a).toNat) 8 else m x

/-- The words from `a` on. -/
def Words (m : Mem) (a : Word) : List Word → Prop
  | [] => True
  | w :: ws => load m a = w ∧ Words m (a + 4) ws

/-- The `n` bytes from `a` on are the same. -/
def SameOn (a : Word) (n : Nat) (m m' : Mem) : Prop := ∀ x, (x - a).toNat < n → m' x = m x

/-- Only the `n` bytes from `a` on may differ. -/
def SameBut (a : Word) (n : Nat) (m m' : Mem) : Prop := ∀ x, n ≤ (x - a).toNat → m' x = m x

section

variable {m m' m'' : Mem} {a b v w : Word} {vs ws : List Word} {n k : Nat}

theorem store_of_le (h : 4 ≤ (b - a).toNat) : store m a v b = m b := by
  unfold store
  exact if_neg (by bv_omega)

theorem store_at (k : Nat) (hk : k < 4) :
    store m a v (a + BitVec.ofNat 32 k) = v.extractLsb' (8 * k) 8 := by
  have e : (a + BitVec.ofNat 32 k - a).toNat = k := by bv_omega
  unfold store
  rw [if_pos (by bv_omega), e]

theorem load_store (m : Mem) (a v : Word) : load (store m a v) a = v := by
  have h0 := store_at (m := m) (a := a) (v := v) 0 (by omega)
  rw [BitVec.add_zero] at h0
  unfold load
  rw [h0, store_at 1 (by omega), store_at 2 (by omega), store_at 3 (by omega),
    BitVec.extractLsb'_append_extractLsb'_eq_extractLsb' (by rfl),
    BitVec.extractLsb'_append_extractLsb'_eq_extractLsb' (by rfl),
    BitVec.extractLsb'_append_extractLsb'_eq_extractLsb' (by rfl)]
  exact BitVec.extractLsb'_eq_self

theorem load_congr (h : ∀ k < 4, m' (a + BitVec.ofNat 32 k) = m (a + BitVec.ofNat 32 k)) :
    load m' a = load m a := by
  have h0 := h 0 (by omega)
  rw [BitVec.add_zero] at h0
  unfold load
  rw [h0, h 1 (by omega), h 2 (by omega), h 3 (by omega)]

theorem load_store_of_disjoint (h : 4 ≤ (b - a).toNat) (h' : 4 ≤ (a - b).toNat) :
    load (store m a v) b = load m b :=
  load_congr fun k hk => store_of_le (by bv_omega)

theorem SameOn.load (h : SameOn a n m m') (h0 : (b - a).toNat + 4 ≤ n) (hn : n ≤ 2 ^ 32) :
    load m' b = load m b := load_congr fun k hk => h _ (by bv_omega)

theorem SameOn.refl (a : Word) (n : Nat) (m : Mem) : SameOn a n m m := fun _ _ => rfl

theorem SameOn.trans (h : SameOn a n m m') (h' : SameOn a n m' m'') : SameOn a n m m'' :=
  fun x hx => (h' x hx).trans (h x hx)

theorem SameOn.sub (h : SameOn a n m m') (h0 : (b - a).toNat + k ≤ n) : SameOn b k m m' :=
  fun x hx => h x (by bv_omega)

theorem SameBut.refl (a : Word) (n : Nat) (m : Mem) : SameBut a n m m := fun _ _ => rfl

theorem SameBut.trans (h : SameBut a n m m') (h' : SameBut a n m' m'') : SameBut a n m m'' :=
  fun x hx => (h' x hx).trans (h x hx)

theorem SameBut.mono (h : SameBut b k m m') (h0 : (b - a).toNat + k ≤ n) : SameBut a n m m' :=
  fun x hx => h x (by bv_omega)

/-- Two parts of memory that do not overlap. -/
theorem SameBut.on (h : SameBut a n m m') (h0 : n ≤ (b - a).toNat) (h1 : (b - a).toNat + k ≤ 2 ^ 32) :
    SameOn b k m m' := fun x hx => h x (by bv_omega)

theorem store_sameBut (m : Mem) (a v : Word) : SameBut a 4 m (store m a v) :=
  fun _ h => store_of_le h

theorem Words.congr (hm : SameOn a (4 * ws.length) m m') (hl : 4 * ws.length ≤ 2 ^ 32)
    (h : Words m a ws) : Words m' a ws := by
  induction ws generalizing a with
  | nil => trivial
  | cons w ws ih =>
    rw [List.length_cons] at hm hl
    refine ⟨(hm.load (by bv_omega) hl).trans h.1, ih (fun x hx => hm x (by bv_omega)) (by omega) h.2⟩

theorem words_append (vs : List Word) : Words m a (vs ++ ws) ↔
    Words m a vs ∧ Words m (a + BitVec.ofNat 32 (4 * vs.length)) ws := by
  induction vs generalizing a with
  | nil => simp [Words]
  | cons v vs ih =>
    have e : a + 4 + BitVec.ofNat 32 (4 * vs.length) =
        a + BitVec.ofNat 32 (4 * (v :: vs).length) := by
      rw [List.length_cons]
      bv_omega
    rw [List.cons_append, Words, Words, ih, e, and_assoc]

/-- The words are where they were, and the new one stands before them. -/
theorem Words.store (h : Words m (a + 4) ws) (hl : 4 * ws.length + 4 ≤ 2 ^ 32) :
    Words (store m a v) a (v :: ws) :=
  ⟨load_store m a v, h.congr ((store_sameBut m a v).on (by bv_omega) (by bv_omega)) (by omega)⟩

theorem Words.inj (h : Words m a vs) (h' : Words m a ws) (hl : vs.length = ws.length) : vs = ws := by
  induction vs generalizing a ws with
  | nil => exact (List.length_eq_zero_iff.mp hl.symm).symm
  | cons v vs ih =>
    obtain ⟨w, ws, rfl⟩ := List.exists_cons_of_length_eq_add_one hl.symm
    rw [← h.1, ← h'.1, ih h.2 h'.2 (Nat.succ.inj hl)]

theorem Words.get (h : Words m a ws) {i : Nat} (hw : ws[i]? = some w) :
    load m (a + BitVec.ofNat 32 (4 * i)) = w := by
  induction ws generalizing a i with
  | nil => cases hw
  | cons v ws ih =>
    cases i with
    | zero =>
      obtain rfl := Option.some.inj hw
      rw [show a + BitVec.ofNat 32 (4 * 0) = a by bv_omega]
      exact h.1
    | succ i =>
      have h' := ih h.2 hw
      rwa [show a + 4 + BitVec.ofNat 32 (4 * i) = a + BitVec.ofNat 32 (4 * (i + 1)) by bv_omega] at h'

/-- One of the words is written over. -/
theorem Words.set (h : Words m a (vs ++ w :: ws)) (hl : 4 * (vs.length + ws.length) + 4 ≤ 2 ^ 32) :
    Words (Ia32.store m (a + BitVec.ofNat 32 (4 * vs.length)) v) a (vs ++ v :: ws) := by
  obtain ⟨h₁, -, h₂⟩ := (words_append vs).mp h
  exact (words_append vs).mpr
    ⟨h₁.congr (fun x hx => store_of_le (by bv_omega)) (by omega), h₂.store (by omega)⟩

end

/-! ## The processor -/

inductive Reg where
  | eax | ecx | edx | ebx | esp | ebp | esi | edi
  deriving DecidableEq, Repr

inductive Seg where
  | cs | ds | es | fs | gs | ss
  deriving DecidableEq, Repr

@[ext]
structure Cpu where
  reg : Reg → Word
  seg : Seg → BitVec 16
  eip : Word
  eflags : Word
  mem : Mem

namespace Cpu

def set (c : Cpu) (r : Reg) (v : Word) : Cpu := { c with reg := Function.update c.reg r v }

def setSeg (c : Cpu) (s : Seg) (v : BitVec 16) : Cpu := { c with seg := Function.update c.seg s v }

def top (c : Cpu) : Word := load c.mem (c.reg .esp)

def push (c : Cpu) (v : Word) : Cpu :=
  { c.set .esp (c.reg .esp - 4) with mem := store c.mem (c.reg .esp - 4) v }

/-- The word on top of the stack is taken off. -/
def drop (c : Cpu) : Cpu := c.set .esp (c.reg .esp + 4)

def popReg (c : Cpu) (r : Reg) : Cpu := c.drop.set r c.top

def popSeg (c : Cpu) (s : Seg) : Cpu := c.drop.setSeg s (c.top.setWidth 16)

/-- The privilege level that a selector asks for. -/
def rpl (s : BitVec 16) : BitVec 2 := s.setWidth 2

def cpl (c : Cpu) : BitVec 2 := rpl (c.seg .cs)

/-- `iret` to the same level, or to an outer one, to which belongs a stack of its own. -/
def iret (c : Cpu) : Cpu :=
  let eip := c.top
  let cs := c.drop.top.setWidth 16
  let eflags := c.drop.drop.top
  let s := { c.drop.drop.drop.setSeg .cs cs with eip := eip, eflags := eflags }
  if c.cpl < rpl cs then (s.set .esp s.top).setSeg .ss (s.drop.top.setWidth 16) else s

/-- The arithmetic flags of a sum. -/
def addFlags (c : Cpu) (x y : Word) : Word :=
  let z := x + y
  let bit (b : Bool) (i : Nat) : Word := if b then 1#32 <<< i else 0
  let parity := (List.range 8).foldl (fun p i => p ^^ z.getLsbD i) true
  (c.eflags &&& ~~~0x8d5#32) ||| bit (decide (2 ^ 32 ≤ x.toNat + y.toNat)) 0 ||| bit parity 2 |||
    bit (decide (16 ≤ x.toNat % 16 + y.toNat % 16)) 4 ||| bit (z == 0) 6 ||| bit z.msb 7 |||
    bit (x.msb == y.msb && z.msb != x.msb) 11

end Cpu

inductive Operand where
  | imm (v : Word)
  | reg (r : Reg)
  /-- `d(r)` -/
  | mem (d : Word) (r : Reg)
  /-- `(r,r',1)` -/
  | sum (r r' : Reg)
  /-- A variable. -/
  | var (a : Word)
  deriving DecidableEq, Repr

/-- In the order of operands that the assembler has: the destination comes last. -/
inductive Instr where
  | pushl (s : Operand)
  | popl (r : Reg)
  | pushSeg (s : Seg)
  | popSeg (s : Seg)
  | pushal
  | popal
  | movl (s d : Operand)
  | movSeg (r : Reg) (s : Seg)
  | leal (s : Operand) (r : Reg)
  | addl (v : Word) (r : Reg)
  | cld
  | call (t : Word)
  | jmp (t : Word)
  | ret
  | iret
  deriving DecidableEq, Repr

namespace Cpu

def address (c : Cpu) : Operand → Word
  | .imm _ | .reg _ => 0
  | .mem d r => c.reg r + d
  | .sum r r' => c.reg r + c.reg r'
  | .var a => a

def value (c : Cpu) : Operand → Word
  | .imm v => v
  | .reg r => c.reg r
  | o => load c.mem (c.address o)

def assign (c : Cpu) (o : Operand) (v : Word) : Cpu :=
  match o with
  | .imm _ => c
  | .reg r => c.set r v
  | o => { c with mem := store c.mem (c.address o) v }

end Cpu

/-- The registers in the order in which `pushal` pushes them. -/
def allRegs : List Reg := [.eax, .ecx, .edx, .ebx, .esp, .ebp, .esi, .edi]

/-- What an instruction does when `c.eip` is already the address after it. -/
def exec (c : Cpu) : Instr → Cpu
  | .pushl s => c.push (c.value s)
  | .popl r => c.popReg r
  -- The upper half of the word is zero.
  | .pushSeg s => c.push ((c.seg s).setWidth 32)
  | .popSeg s => c.popSeg s
  | .pushal => (allRegs.map c.reg).foldl Cpu.push c
  | .popal => [.ebx, .edx, .ecx, .eax].foldl Cpu.popReg ([.edi, .esi, .ebp].foldl Cpu.popReg c).drop
  | .movl s d => c.assign d (c.value s)
  | .movSeg r s => c.setSeg s ((c.reg r).setWidth 16)
  | .leal s r => c.set r (c.address s)
  | .addl v r => { c.set r (c.reg r + v) with eflags := c.addFlags (c.reg r) v }
  | .cld => { c with eflags := c.eflags &&& ~~~0x400#32 }
  | .call t => { c.push c.eip with eip := t }
  | .jmp t => { c with eip := t }
  | .ret => { c.drop with eip := c.top }
  | .iret => c.iret

/-- The instruction at an address, and the address after it. -/
abbrev Code := Word → Option (Instr × Word)

def step (code : Code) (c : Cpu) : Option Cpu :=
  (code c.eip).map fun (i, next) => exec { c with eip := next } i

def run (code : Code) : Nat → Cpu → Option Cpu
  | 0, c => some c
  | n + 1, c => (step code c).bind (run code n)

/-! ## Runs -/

/-- The instructions stand one after the other from `a` up to `b`. -/
def CodeAt (code : Code) (a : Word) : List Instr → Word → Prop
  | [], b => a = b
  | i :: is, b => ∃ next, code a = some (i, next) ∧ CodeAt code next is b

/-- The instruction goes on to the one after it, whatever that is. -/
def Instr.straight : Instr → Bool
  | .call _ | .jmp _ | .ret | .iret => false
  | _ => true

section

variable {code : Code} {c c' c'' : Cpu} {a b : Word} {i : Instr} {is is' : List Instr}

theorem run_add (code : Code) (n k : Nat) (c : Cpu) :
    run code (n + k) c = (run code n c).bind (run code k) := by
  induction n generalizing c with
  | zero => rw [Nat.zero_add, run, Option.bind_some]
  | succ n ih =>
    rw [Nat.succ_add, run, run, Option.bind_assoc]
    exact congrArg _ (funext ih)

theorem CodeAt.mono {code' : Code} (hc : ∀ x v, code x = some v → code' x = some v)
    (h : CodeAt code a is b) : CodeAt code' a is b := by
  induction is generalizing a with
  | nil => exact h
  | cons i is ih =>
    obtain ⟨next, hi, h⟩ := h
    exact ⟨next, hc _ _ hi, ih h⟩

theorem codeAt_append : CodeAt code a (is ++ is') b ↔
    ∃ m, CodeAt code a is m ∧ CodeAt code m is' b := by
  induction is generalizing a with
  | nil => simp [CodeAt]
  | cons i is ih =>
    simp only [List.cons_append, CodeAt, ih]
    constructor
    · rintro ⟨n, hn, m, h, h'⟩
      exact ⟨m, ⟨n, hn, h⟩, h'⟩
    · rintro ⟨m, ⟨n, hn, h⟩, h'⟩
      exact ⟨n, hn, m, h, h'⟩

/-- Instructions of one byte each, from `a` on. -/
def placed (a : Word) (is : List Instr) : Code := fun x =>
  is[(x - a).toNat]?.map fun i => (i, x + 1)

theorem codeAt_of_get (h : ∀ k (hk : k < is.length), code (a + BitVec.ofNat 32 k) =
    some (is[k], a + BitVec.ofNat 32 k + 1)) :
    CodeAt code a is (a + (BitVec.ofNat 32 is.length : Word)) := by
  induction is generalizing a with
  | nil => simp [CodeAt]
  | cons i is ih =>
    have h₀ := h 0 (Nat.succ_pos _)
    rw [BitVec.add_zero] at h₀
    have e : ∀ k : Nat, a + (BitVec.ofNat 32 (k + 1) : Word) = a + 1 + BitVec.ofNat 32 k := by
      intro k
      bv_omega
    refine ⟨_, h₀, ?_⟩
    rw [List.length_cons, e is.length]
    refine ih fun k hk => ?_
    rw [← e k]
    exact h (k + 1) (Nat.succ_lt_succ hk)

/-- One instruction, whichever it is. -/
theorem CodeAt.step (h : CodeAt code a (i :: is) b) (he : c.eip = a) :
    ∃ next, CodeAt code next is b ∧ step code c = some (exec { c with eip := next } i) := by
  obtain ⟨next, hi, h⟩ := h
  exact ⟨next, h, by rw [Ia32.step, he, hi]; rfl⟩

theorem foldl_eip {α : Type} {f : Cpu → α → Cpu} {e : Word} {l : List α}
    (hf : ∀ x ∈ l, ∀ c, f { c with eip := e } x = { f c x with eip := e }) (c : Cpu) :
    l.foldl f { c with eip := e } = { l.foldl f c with eip := e } := by
  induction l generalizing c with
  | nil => rfl
  | cons x l ih =>
    rw [List.foldl_cons, List.foldl_cons, hf x List.mem_cons_self,
      ih fun y hy => hf y (List.mem_cons_of_mem x hy)]

theorem exec_eip (h : i.straight = true) (c : Cpu) (e : Word) :
    exec { c with eip := e } i = { exec c i with eip := e } := by
  have hpop : ∀ (l : List Reg) (c : Cpu),
      l.foldl Cpu.popReg { c with eip := e } = { l.foldl Cpu.popReg c with eip := e } :=
    fun _ => foldl_eip fun _ _ _ => rfl
  have hdrop : ∀ c : Cpu, Cpu.drop { c with eip := e } = { c.drop with eip := e } := fun _ => rfl
  cases i with
  | pushl s => cases s <;> rfl
  | movl s d => cases d <;> cases s <;> rfl
  | leal s r => cases s <;> rfl
  | pushal => exact foldl_eip (fun _ _ _ => rfl) c
  | popal => rw [exec, hpop, hdrop, hpop, exec]
  | popl | pushSeg | popSeg | movSeg | addl | cld => rfl
  | call | jmp | ret | iret => cases h

/-- **Code without jumps** does what its instructions do one after the other. -/
theorem CodeAt.run (h : CodeAt code a is b) (hs : is.all Instr.straight = true) (he : c.eip = a) :
    run code is.length c = some { is.foldl exec c with eip := b } := by
  induction is generalizing a c with
  | nil =>
    obtain rfl : a = b := h
    subst he
    rfl
  | cons i is ih =>
    rw [List.all_cons, Bool.and_eq_true] at hs
    obtain ⟨next, h, hstep⟩ := h.step he
    rw [exec_eip hs.1] at hstep
    have hr := ih (c := { exec c i with eip := next }) h hs.2 rfl
    rw [foldl_eip fun j hj c => exec_eip (List.all_eq_true.mp hs.2 j hj) c next] at hr
    rw [List.length_cons, Ia32.run, hstep, Option.bind_some, hr]
    rfl

/-- Up to an instruction and over it, and what comes after it stays where it is. -/
theorem CodeAt.run_next (is : List Instr) (i : Instr) (is' : List Instr)
    (h : CodeAt code a (is ++ i :: is') b) (hs : is.all Instr.straight = true) (he : c.eip = a) :
    ∃ next, CodeAt code next is' b ∧
      Ia32.run code (is.length + 1) c = some (exec { is.foldl exec c with eip := next } i) := by
  obtain ⟨m, h, h'⟩ := codeAt_append.mp h
  obtain ⟨next, h', hstep⟩ := h'.step (c := { is.foldl exec c with eip := m }) rfl
  refine ⟨next, h', ?_⟩
  rw [run_add, h.run hs he, Option.bind_some, Ia32.run, hstep]
  rfl

end

/-! ## The stack -/

/-- The words from the stack pointer on. -/
def Stack (c : Cpu) (ws : List Word) : Prop := Words c.mem (c.reg .esp) ws

namespace Cpu

section

variable (c : Cpu) (v : Word) (r : Reg)

@[simp] theorem set_self : (c.set r v).reg r = v := Function.update_self ..

theorem set_of_ne {r r' : Reg} (h : r' ≠ r) : (c.set r v).reg r' = c.reg r' :=
  Function.update_of_ne h ..

@[simp] theorem push_esp : (c.push v).reg .esp = c.reg .esp - 4 :=
  set_self c (c.reg .esp - 4) .esp

theorem push_reg {r : Reg} (h : r ≠ .esp) : (c.push v).reg r = c.reg r := set_of_ne c _ h

@[simp] theorem drop_esp : c.drop.reg .esp = c.reg .esp + 4 := set_self ..

theorem drop_reg {r : Reg} (h : r ≠ .esp) : c.drop.reg r = c.reg r := set_of_ne c _ h

theorem popReg_reg {r r' : Reg} (h : r' ≠ r) (h' : r' ≠ .esp) : (c.popReg r).reg r' = c.reg r' := by
  rw [popReg, set_of_ne _ _ h, drop_reg c h']

theorem popReg_esp {r : Reg} (h : r ≠ .esp) : (c.popReg r).reg .esp = c.reg .esp + 4 := by
  rw [popReg, set_of_ne _ _ h.symm, drop_esp]

end

section

variable (c : Cpu) (vs : List Word)

theorem pushes_esp : (vs.foldl push c).reg .esp = c.reg .esp - (BitVec.ofNat 32 (4 * vs.length) : Word) := by
  induction vs generalizing c with
  | nil => simp
  | cons v vs ih =>
    rw [List.foldl_cons, ih, push_esp, List.length_cons]
    bv_omega

theorem pushes_reg {r : Reg} (h : r ≠ .esp) : (vs.foldl push c).reg r = c.reg r := by
  induction vs generalizing c with
  | nil => rfl
  | cons v vs ih => rw [List.foldl_cons, ih, push_reg c v h]

theorem pushes_else : (vs.foldl push c).seg = c.seg ∧ (vs.foldl push c).eip = c.eip ∧
    (vs.foldl push c).eflags = c.eflags := by
  induction vs generalizing c with
  | nil => exact ⟨rfl, rfl, rfl⟩
  | cons v vs ih => exact ih (c.push v)

/-- Nothing above the stack pointer is written, and no more than the words below it. -/
theorem pushes_mem (hl : 4 * vs.length ≤ 2 ^ 32) :
    SameBut (c.reg .esp - (BitVec.ofNat 32 (4 * vs.length) : Word)) (4 * vs.length) c.mem
      (vs.foldl push c).mem := by
  induction vs generalizing c with
  | nil => exact fun _ _ => rfl
  | cons v vs ih =>
    rw [List.length_cons] at hl ⊢
    have h1 : SameBut (c.reg .esp - 4) 4 c.mem (c.push v).mem := store_sameBut c.mem _ v
    have h2 := ih (c.push v) (by omega)
    rw [push_esp] at h2
    exact (h1.mono (by bv_omega)).trans (h2.mono (by bv_omega))

end

end Cpu

section

variable {c : Cpu} {v w : Word} {vs ws : List Word} {r : Reg}

theorem Stack.push (h : Stack c ws) (hl : 4 * ws.length + 4 ≤ 2 ^ 32) (v : Word) :
    Stack (c.push v) (v :: ws) := by
  unfold Stack at *
  rw [Cpu.push_esp]
  exact Words.store (by rwa [BitVec.sub_add_cancel]) hl

theorem Stack.pushes (vs : List Word) (h : Stack c ws) (hl : 4 * (vs.length + ws.length) ≤ 2 ^ 32) :
    Stack (vs.foldl Cpu.push c) (vs.reverse ++ ws) := by
  induction vs generalizing c ws with
  | nil => exact h
  | cons v vs ih =>
    rw [List.length_cons] at hl
    rw [List.foldl_cons, List.reverse_cons, List.append_assoc]
    exact ih (h.push (by omega) v) (by simp only [List.length_append, List.length_cons, List.length_nil]; omega)

theorem Stack.top (h : Stack c (w :: ws)) : c.top = w := h.1

theorem Stack.drop (h : Stack c (w :: ws)) : Stack c.drop ws := by
  unfold Stack
  rw [Cpu.drop_esp]
  exact h.2

/-- What pushing `n` words, and writing them over, leaves as it is. -/
structure Pushed (n : Nat) (c c' : Cpu) : Prop where
  esp : c'.reg .esp = c.reg .esp - (BitVec.ofNat 32 (4 * n) : Word)
  reg : ∀ r ≠ Reg.esp, c'.reg r = c.reg r
  mem : SameBut (c'.reg .esp) (4 * n) c.mem c'.mem

theorem Pushed.trans {n k : Nat} {c₁ c₂ c₃ : Cpu} (h : Pushed n c₁ c₂) (h' : Pushed k c₂ c₃)
    (hl : 4 * (n + k) ≤ 2 ^ 32) : Pushed (n + k) c₁ c₃ where
  esp := by
    rw [h'.esp, h.esp]
    bv_omega
  reg r hr := (h'.reg r hr).trans (h.reg r hr)
  mem := by
    have he := h'.esp
    exact (h.mem.mono (by bv_omega)).trans (h'.mem.mono (by bv_omega))

theorem Pushed.store {n k : Nat} {c' : Cpu} (h : Pushed n c c') (hk : k < n) (hl : 4 * n ≤ 2 ^ 32)
    (v : Word) :
    Pushed n c { c' with mem := store c'.mem (c'.reg .esp + BitVec.ofNat 32 (4 * k)) v } where
  esp := h.esp
  reg := h.reg
  mem := h.mem.trans ((store_sameBut _ _ v).mono (by bv_omega))

theorem pushes_pushed (vs : List Word) (c : Cpu) (hl : 4 * vs.length ≤ 2 ^ 32) :
    Pushed vs.length c (vs.foldl Cpu.push c) where
  esp := Cpu.pushes_esp c vs
  reg _ hr := Cpu.pushes_reg c vs hr
  mem := by
    rw [Cpu.pushes_esp]
    exact Cpu.pushes_mem c vs hl

theorem addl_esp (c : Cpu) (v : Word) : (exec c (.addl v .esp)).reg .esp = c.reg .esp + v :=
  Cpu.set_self c (c.reg .esp + v) .esp

theorem addl_reg (c : Cpu) (v : Word) {r : Reg} (h : r ≠ .esp) :
    (exec c (.addl v .esp)).reg r = c.reg r := Cpu.set_of_ne c (c.reg .esp + v) h

theorem Stack.set (vs : List Word) (h : Stack c (vs ++ w :: ws))
    (hl : 4 * (vs.length + ws.length) + 4 ≤ 2 ^ 32) (v : Word) : Stack { c with mem := store c.mem (c.reg .esp + BitVec.ofNat 32 (4 * vs.length)) v }
      (vs ++ v :: ws) := Words.set h hl

/-- Words taken off by moving the stack pointer. -/
theorem Stack.addl (vs : List Word) (h : Stack c (vs ++ ws)) :
    Stack (exec c (.addl (BitVec.ofNat 32 (4 * vs.length)) .esp)) ws := by
  unfold Stack at *
  rw [addl_esp]
  exact ((words_append vs).mp h).2

theorem Stack.popReg (h : Stack c (w :: ws)) (hr : r ≠ .esp) :
    (c.popReg r).reg r = w ∧ Stack (c.popReg r) ws := by
  refine ⟨?_, ?_⟩
  · rw [Cpu.popReg, Cpu.set_self, h.top]
  · unfold Stack
    rw [Cpu.popReg_esp c hr]
    exact h.2

theorem Stack.popSeg (h : Stack c (w :: ws)) (s : Seg) :
    (c.popSeg s).seg = Function.update c.seg s (w.setWidth 16) ∧ Stack (c.popSeg s) ws := by
  refine ⟨?_, h.drop⟩
  rw [← h.top]
  rfl

theorem popSeg_reg (c : Cpu) (s : Seg) : (c.popSeg s).reg = c.drop.reg := rfl

/-- What taking words off the stack into registers leaves as it is. -/
structure Popped (rs : List Reg) (c c' : Cpu) : Prop where
  esp : c'.reg .esp = c.reg .esp + (BitVec.ofNat 32 (4 * rs.length) : Word)
  reg : ∀ r ∉ rs, r ≠ .esp → c'.reg r = c.reg r
  seg : c'.seg = c.seg
  eip : c'.eip = c.eip
  eflags : c'.eflags = c.eflags
  mem : c'.mem = c.mem

theorem popRegs_popped (rs : List Reg) (h : .esp ∉ rs) (c : Cpu) :
    Popped rs c (rs.foldl Cpu.popReg c) := by
  induction rs generalizing c with
  | nil => exact ⟨by simp, fun _ _ _ => rfl, rfl, rfl, rfl, rfl⟩
  | cons r rs ih =>
    obtain ⟨hr, hrs⟩ := not_or.mp (mt List.mem_cons.mpr h)
    have hp := ih hrs (c.popReg r)
    refine ⟨?_, fun r' hr' he => ?_, hp.seg, hp.eip, hp.eflags, hp.mem⟩
    · rw [List.foldl_cons, hp.esp, Cpu.popReg_esp c (Ne.symm hr), List.length_cons]
      bv_omega
    · obtain ⟨h₁, h₂⟩ := not_or.mp (mt List.mem_cons.mpr hr')
      exact (hp.reg r' h₂ he).trans (Cpu.popReg_reg c h₁ he)

/-- Each register has the word that stood at its place. -/
theorem Stack.popRegs (rs : List Reg) (vs : List Word) (h : Stack c (vs ++ ws)) (hl : rs.length = vs.length)
    (hnd : rs.Nodup) (he : .esp ∉ rs) :
    rs.map (rs.foldl Cpu.popReg c).reg = vs ∧ Stack (rs.foldl Cpu.popReg c) ws := by
  induction rs generalizing c vs with
  | nil =>
    obtain rfl := List.length_eq_zero_iff.mp hl.symm
    exact ⟨rfl, h⟩
  | cons r rs ih =>
    obtain ⟨v, vs, rfl⟩ := List.exists_cons_of_length_eq_add_one hl.symm
    obtain ⟨hr, hrs⟩ := not_or.mp (mt List.mem_cons.mpr he)
    obtain ⟨hnr, hnd⟩ := List.nodup_cons.mp hnd
    obtain ⟨hv, h⟩ := Stack.popReg h (Ne.symm hr)
    obtain ⟨hm, hst⟩ := ih vs h (Nat.succ.inj hl) hnd hrs
    refine ⟨?_, hst⟩
    rw [List.map_cons, List.foldl_cons, hm, (popRegs_popped rs hrs _).reg r hnr (Ne.symm hr), hv]

section

variable {eip cs fl sp ss : Word}

/-- `iret` to the same level. -/
theorem Stack.iret_inner (h : Stack c (eip :: cs :: fl :: ws))
    (hc : ¬ c.cpl < Cpu.rpl (cs.setWidth 16)) :
    c.iret = { c.drop.drop.drop.setSeg .cs (cs.setWidth 16) with eip := eip, eflags := fl } := by
  unfold Cpu.iret
  rw [h.top, h.drop.top, h.drop.drop.top]
  exact if_neg hc

/-- `iret` to an outer level. -/
theorem Stack.iret_outer (h : Stack c (eip :: cs :: fl :: sp :: ss :: ws))
    (hc : c.cpl < Cpu.rpl (cs.setWidth 16)) :
    c.iret = (({ c.drop.drop.drop.setSeg .cs (cs.setWidth 16) with eip := eip, eflags := fl }).set
      .esp sp).setSeg .ss (ss.setWidth 16) := by
  have h₃ := h.drop.drop.drop
  unfold Cpu.iret
  rw [h.top, h.drop.top, h.drop.drop.top]
  refine (if_pos hc).trans ?_
  rw [← h₃.top, ← h₃.drop.top]
  rfl

end

end

end Pintos.Base.Ia32
