import Pintos.Base.Ia32
import Pintos.Base.Reach

/-!
# Switching threads (threads/switch.S, threads/thread.c)

A thread is named by the address of its page, which begins with its `struct thread` and ends with its
kernel stack. A thread that does not run has its stack pointer in its `stack` member and the rest of
what it needs to go on at that address.
-/

namespace Pintos.Threads.Switch

open Pintos.Base Pintos.Base.Ia32

/-! ## The code -/

/-- `SWITCH_CUR` -/
def switchCur : Word := 20

/-- `SWITCH_NEXT` -/
def switchNext : Word := 24

/-- `switch_threads`, given the address of the variable `thread_stack_ofs`. -/
def switchThreads (threadStackOfs : Word) : List Instr :=
  [ .pushl (.reg .ebx),
    .pushl (.reg .ebp),
    .pushl (.reg .esi),
    .pushl (.reg .edi),
    .movl (.var threadStackOfs) (.reg .edx),
    .movl (.mem switchCur .esp) (.reg .eax),
    .movl (.reg .esp) (.sum .eax .edx),
    .movl (.mem switchNext .esp) (.reg .ecx),
    .movl (.sum .ecx .edx) (.reg .esp),
    .popl .edi,
    .popl .esi,
    .popl .ebp,
    .popl .ebx,
    .ret ]

/-- `switch_entry`, given the address of `schedule_tail`. -/
def switchEntry (scheduleTail : Word) : List Instr :=
  [ .addl 8 .esp,
    .pushl (.reg .eax),
    .call scheduleTail,
    .addl 4 .esp,
    .ret ]

/-- Where the linker has put the code and the variable. -/
structure Image where
  code : Code
  switchThreadsAt : Word
  switchEntryAt : Word
  scheduleTail : Word
  kernelThread : Word
  threadStackOfs : Word
  switchThreads_code : ∃ b, CodeAt code switchThreadsAt (switchThreads threadStackOfs) b
  switchEntry_code : ∃ b, CodeAt code switchEntryAt (switchEntry scheduleTail) b

/-! ## The pages -/

/-- `PGSIZE` -/
def pgSize : Nat := 4096

/-- `offsetof (struct thread, stack)`, the value of `thread_stack_ofs`. -/
def stackOfs : Word := 24

/-- The address of a page. -/
def IsPage (t : Word) : Prop := t.toNat % pgSize = 0

/-- `running_thread` -/
def runningThread (c : Cpu) : Word := c.reg .esp &&& 0xfffff000#32

/-- `alloc_frame`, with the base of the frame. -/
def allocFrame (m : Mem) (t size : Word) : Mem × Word :=
  let stack := load m (t + stackOfs) - size
  (store m (t + stackOfs) stack, stack)

/-- What `thread_create` writes to the page of the new thread, which is zero at first: the `stack`
member and the three frames. -/
def threadCreate (im : Image) (m : Mem) (t function aux : Word) : Mem :=
  let m : Mem := fun x => if (x - t).toNat < pgSize then 0 else m x
  let m := store m (t + stackOfs) (t + 4096)
  let (m, kf) := allocFrame m t 12
  let m := store m kf 0
  let m := store m (kf + 4) function
  let m := store m (kf + 8) aux
  let (m, ef) := allocFrame m t 4
  let m := store m ef im.kernelThread
  let (m, sf) := allocFrame m t 28
  store m (sf + 16) im.switchEntryAt

/-- The word at `v` is on no part of the page. -/
def Outside (v t : Word) : Prop := pgSize ≤ (v - t).toNat ∧ 4 ≤ (t - v).toNat

section

variable {t u x : Word} {m m' : Mem}

/-- Pages do not overlap. -/
theorem IsPage.apart (ht : IsPage t) (hu : IsPage u) (hne : t ≠ u) (hx : (x - t).toNat < pgSize) :
    pgSize ≤ (x - u).toNat := by
  unfold IsPage pgSize at *
  have : t.toNat ≠ u.toNat := fun h => hne (BitVec.eq_of_toNat_eq h)
  bv_omega

theorem IsPage.same (ht : IsPage t) (hu : IsPage u) (hne : t ≠ u) (h : SameBut u pgSize m m') :
    SameOn t pgSize m m' := fun x hx => h x (ht.apart hu hne hx)

theorem roundDown_toNat (a : Word) : (a &&& 0xfffff000#32).toNat = a.toNat / pgSize * pgSize := by
  have hm : ∀ i : Fin 32, (0xfffff000#32).getLsbD i = decide (12 ≤ i.val) := by decide
  have e : a &&& 0xfffff000#32 = (a >>> 12) <<< 12 := by
    apply BitVec.eq_of_getLsbD_eq
    intro i hi
    rw [BitVec.getLsbD_and, hm ⟨i, hi⟩, BitVec.getLsbD_shiftLeft, BitVec.getLsbD_ushiftRight]
    by_cases h : 12 ≤ i
    · simp [h, hi, show ¬ i < 12 by omega]
    · simp [h, show i < 12 by omega]
  rw [e, BitVec.toNat_shiftLeft, BitVec.toNat_ushiftRight, Nat.shiftRight_eq_div_pow,
    Nat.shiftLeft_eq, pgSize]
  omega

/-- A stack pointer within a page tells the page. -/
theorem runningThread_eq {c : Cpu} (ht : IsPage t) (h : (c.reg .esp - t).toNat < pgSize) :
    runningThread c = t := by
  apply BitVec.eq_of_toNat_eq
  rw [runningThread, roundDown_toNat]
  unfold IsPage pgSize at *
  bv_omega

end

/-! ## One switch -/

/-- A thread that waits: its stack pointer, and what `switch_threads` takes off its stack. -/
structure Frame (m : Mem) (t sp edi esi ebp ebx eip : Word) : Prop where
  field : load m (t + stackOfs) = sp
  words : Words m sp [edi, esi, ebp, ebx, eip]
  low : 28 ≤ (sp - t).toNat
  high : (sp - t).toNat + 20 ≤ pgSize

/-- The call of `switch_threads` by the running thread, with room for four more words. -/
structure Call (im : Image) (c : Cpu) (cur next : Word) : Prop where
  eip : c.eip = im.switchThreadsAt
  args : ∃ ret, Stack c [ret, cur, next]
  low : 44 ≤ (c.reg .esp - cur).toNat
  high : (c.reg .esp - cur).toNat + 12 ≤ pgSize

/-- What the thread switched from leaves behind. -/
structure Left (c : Cpu) (m : Mem) (cur : Word) : Prop where
  frame : Frame m cur (c.reg .esp - 16) (c.reg .edi) (c.reg .esi) (c.reg .ebp) (c.reg .ebx) c.top
  stack : SameOn (c.reg .esp) (pgSize - (c.reg .esp - cur).toNat) c.mem m

/-- What the thread switched to finds. -/
structure Found (c c' : Cpu) (cur sp edi esi ebp ebx eip : Word) : Prop where
  eip : c'.eip = eip
  eax : c'.reg .eax = cur
  esp : c'.reg .esp = sp + 20
  edi : c'.reg .edi = edi
  esi : c'.reg .esi = esi
  ebp : c'.reg .ebp = ebp
  ebx : c'.reg .ebx = ebx
  seg : c'.seg = c.seg
  eflags : c'.eflags = c.eflags

section

variable {im : Image} {c c' : Cpu} {cur next t sp edi esi ebp ebx eip : Word} {m m' : Mem}

theorem Frame.congr (h : Frame m t sp edi esi ebp ebx eip) (hm : SameOn (t + stackOfs) 4 m m')
    (hm' : SameOn sp (pgSize - (sp - t).toNat) m m') : Frame m' t sp edi esi ebp ebx eip where
  field := (hm.load (by bv_omega) (by omega)).trans h.field
  words := by
    have := h.high
    refine h.words.congr (hm'.sub ?_) (by simp)
    rw [BitVec.sub_self]
    simp only [List.length_cons, List.length_nil]
    exact Nat.le_sub_of_add_le' this
  low := h.low
  high := h.high

/-- `switch_threads` saves, switches, restores and returns. -/
theorem switchThreads_eq (v : Word) : switchThreads v =
    ([.pushl (.reg .ebx), .pushl (.reg .ebp), .pushl (.reg .esi), .pushl (.reg .edi)] ++
      [.movl (.var v) (.reg .edx), .movl (.mem switchCur .esp) (.reg .eax),
        .movl (.reg .esp) (.sum .eax .edx), .movl (.mem switchNext .esp) (.reg .ecx),
        .movl (.sum .ecx .edx) (.reg .esp)] ++
      [Reg.edi, .esi, .ebp, .ebx].map .popl) ++ [.ret] := rfl

/-- The processor when the registers have been pushed. -/
def pushed (c : Cpu) : Cpu :=
  [c.reg .ebx, c.reg .ebp, c.reg .esi, c.reg .edi].foldl Cpu.push c

/-- Memory when the stack pointer has been stored. -/
def saved (c : Cpu) (cur : Word) : Mem :=
  store (pushed c).mem (cur + stackOfs) (c.reg .esp - 16)

theorem pushed_esp (c : Cpu) : (pushed c).reg .esp = c.reg .esp - 16 := Cpu.pushes_esp ..

theorem pushed_mem (c : Cpu) : SameBut (c.reg .esp - 16) 16 c.mem (pushed c).mem :=
  Cpu.pushes_mem c [c.reg .ebx, c.reg .ebp, c.reg .esi, c.reg .edi] (by simp)

theorem pushed_stack {ret : Word} (h : Stack c [ret, cur, next]) :
    Stack (pushed c) [c.reg .edi, c.reg .esi, c.reg .ebp, c.reg .ebx, ret, cur, next] :=
  h.pushes _ (by simp)

section

variable (hc : Call im c cur next)

include hc

theorem Call.saved_page : SameBut cur pgSize c.mem (saved c cur) := by
  have hlow := hc.low
  have hhigh := hc.high
  have h := store_sameBut (pushed c).mem (cur + stackOfs) (c.reg .esp - 16)
  unfold pgSize stackOfs at *
  exact ((pushed_mem c).mono (by bv_omega)).trans (h.mono (by bv_omega))

theorem Call.saved_words {ret : Word} (h : Stack c [ret, cur, next]) :
    Words (saved c cur) (c.reg .esp - 16)
      [c.reg .edi, c.reg .esi, c.reg .ebp, c.reg .ebx, ret, cur, next] := by
  have hlow := hc.low
  have hhigh := hc.high
  have hst := pushed_stack h
  have hm := store_sameBut (pushed c).mem (cur + stackOfs) (c.reg .esp - 16)
  unfold Stack at hst
  rw [pushed_esp] at hst
  unfold pgSize stackOfs at *
  exact hst.congr (hm.on (k := 28) (by bv_omega) (by bv_omega)) (by simp)

/-- The thread switched from is saved on its own page, and nothing of its stack is lost. -/
theorem Call.left : Left c (saved c cur) cur where
  frame := by
    obtain ⟨ret, h⟩ := hc.args
    have hlow := hc.low
    have hhigh := hc.high
    have hw := hc.saved_words h
    rw [h.top]
    exact {
      field := load_store ..
      words := (words_append [_, _, _, _, _]).mp hw |>.1
      low := by bv_omega
      high := by unfold pgSize at *; bv_omega }
  stack := by
    have hlow := hc.low
    have hhigh := hc.high
    have hm := store_sameBut (pushed c).mem (cur + stackOfs) (c.reg .esp - 16)
    unfold pgSize stackOfs at *
    exact ((pushed_mem c).on (by bv_omega) (by bv_omega)).trans (hm.on (by bv_omega) (by bv_omega))

end

theorem pushed_exec (c : Cpu) :
    [.pushl (.reg .ebx), .pushl (.reg .ebp), .pushl (.reg .esi), .pushl (.reg .edi)].foldl exec c =
      pushed c := by
  simp [exec, Cpu.value, Cpu.push_reg, pushed]

/-- The processor when the stack of the next thread has taken the place of the current one. -/
def switched (p : Cpu) (m : Mem) (cur next sp : Word) : Cpu :=
  { (((p.set .edx stackOfs).set .eax cur).set .ecx next).set .esp sp with mem := m }

theorem switched_exec {p : Cpu} {v : Word} (hofs : load p.mem v = stackOfs)
    (hcur : load p.mem (p.reg .esp + switchCur) = cur)
    (hm : store p.mem (cur + stackOfs) (p.reg .esp) = m)
    (hnext : load m (p.reg .esp + switchNext) = next) (hsp : load m (next + stackOfs) = sp) :
    [.movl (.var v) (.reg .edx), .movl (.mem switchCur .esp) (.reg .eax),
      .movl (.reg .esp) (.sum .eax .edx), .movl (.mem switchNext .esp) (.reg .ecx),
      .movl (.sum .ecx .edx) (.reg .esp)].foldl exec p = switched p m cur next sp := by
  have e₁ : exec p (.movl (.var v) (.reg .edx)) = p.set .edx stackOfs :=
    congrArg (Cpu.set _ .edx) hofs
  have e₂ : exec (p.set .edx stackOfs) (.movl (.mem switchCur .esp) (.reg .eax)) =
      (p.set .edx stackOfs).set .eax cur := congrArg (Cpu.set _ .eax) hcur
  have e₃ : exec ((p.set .edx stackOfs).set .eax cur) (.movl (.reg .esp) (.sum .eax .edx)) =
      { (p.set .edx stackOfs).set .eax cur with mem := m } :=
    congrArg (fun m : Mem => { (p.set .edx stackOfs).set .eax cur with mem := m }) hm
  have e₄ : exec { (p.set .edx stackOfs).set .eax cur with mem := m }
      (.movl (.mem switchNext .esp) (.reg .ecx)) =
      { ((p.set .edx stackOfs).set .eax cur).set .ecx next with mem := m } :=
    congrArg (Cpu.set { (p.set .edx stackOfs).set .eax cur with mem := m } .ecx) hnext
  have e₅ : exec { ((p.set .edx stackOfs).set .eax cur).set .ecx next with mem := m }
      (.movl (.sum .ecx .edx) (.reg .esp)) = switched p m cur next sp :=
    congrArg (Cpu.set { ((p.set .edx stackOfs).set .eax cur).set .ecx next with mem := m } .esp) hsp
  rw [List.foldl_cons, e₁, List.foldl_cons, e₂, List.foldl_cons, e₃, List.foldl_cons, e₄,
    List.foldl_cons, e₅, List.foldl_nil]

/-- The end of `switch_threads` on the stack of the next thread. -/
theorem switched_ret {s : Cpu} {nxt : Word} (hs : Stack s [edi, esi, ebp, ebx, eip])
    (heax : s.reg .eax = cur) (hesp : s.reg .esp = sp) (hseg : s.seg = c.seg)
    (hfl : s.eflags = c.eflags) :
    Found c (exec { [.edi, .esi, .ebp, .ebx].foldl Cpu.popReg s with eip := nxt } .ret)
      cur sp edi esi ebp ebx eip := by
  have hp := popRegs_popped [.edi, .esi, .ebp, .ebx] (by decide) s
  obtain ⟨hregs, hst⟩ := Stack.popRegs [.edi, .esi, .ebp, .ebx] [edi, esi, ebp, ebx]
    (c := s) hs rfl (by decide) (by decide)
  generalize [Reg.edi, .esi, .ebp, .ebx].foldl Cpu.popReg s = s' at *
  simp only [List.map_cons, List.map_nil, List.cons.injEq, and_true] at hregs
  obtain ⟨hedi, hesi, hebp, hebx⟩ := hregs
  exact {
    eip := hst.top
    eax := (hp.reg .eax (by decide) (by decide)).trans heax
    esp := by
      show (Cpu.drop _).reg .esp = _
      rw [Cpu.drop_esp, hp.esp, hesp]
      exact BitVec.add_assoc sp 16 4
    edi := hedi
    esi := hesi
    ebp := hebp
    ebx := hebx
    seg := hp.seg.trans hseg
    eflags := hp.eflags.trans hfl }

/-- **One switch**: the current thread is saved, and the next one goes on where its frame says. -/
theorem switch_run (hc : Call im c cur next) (hcur : IsPage cur) (hnext : IsPage next)
    (hne : cur ≠ next) (hofs : load c.mem im.threadStackOfs = stackOfs)
    (hvar : Outside im.threadStackOfs cur) (hf : Frame c.mem next sp edi esi ebp ebx eip) :
    ∃ c', run im.code 14 c = some c' ∧ Found c c' cur sp edi esi ebp ebx eip ∧
      c'.mem = saved c cur := by
  obtain ⟨ret, hargs⟩ := hc.args
  obtain ⟨b, hcode⟩ := im.switchThreads_code
  rw [switchThreads_eq] at hcode
  obtain ⟨nxt, -, hrun⟩ := CodeAt.run_next _ _ _ hcode rfl hc.eip
  have hsame := hnext.same hcur hne.symm hc.saved_page
  have hnx : Frame (saved c cur) next sp edi esi ebp ebx eip := by
    have := hf.low
    have := hf.high
    refine hf.congr (hsame.sub ?_) (hsame.sub ?_) <;> unfold pgSize stackOfs at * <;> bv_omega
  have hofs' : load (pushed c).mem im.threadStackOfs = stackOfs := by
    have := hc.low
    have := hc.high
    obtain ⟨hvar, hvar'⟩ := hvar
    rw [← hofs]
    refine SameOn.load (n := 4) (a := im.threadStackOfs) ((pushed_mem c).on ?_ ?_) (by simp) (by simp) <;>
      unfold pgSize at * <;> bv_omega
  have hcurAt : load (pushed c).mem ((pushed c).reg .esp + switchCur) = cur := by
    obtain ⟨-, -, -, -, -, h, -⟩ := pushed_stack hargs
    refine Eq.trans (congrArg _ ?_) h
    simp only [BitVec.add_assoc]
    rfl
  have hnextAt : load (saved c cur) ((pushed c).reg .esp + switchNext) = next := by
    obtain ⟨-, -, -, -, -, -, h, -⟩ := hc.saved_words hargs
    refine Eq.trans (congrArg _ ?_) h
    simp only [pushed_esp, BitVec.add_assoc]
    rfl
  rw [List.foldl_append, List.foldl_append, pushed_exec,
    switched_exec hofs' hcurAt (by rw [pushed_esp, saved]) hnextAt hnx.field, List.foldl_map] at hrun
  have helse := Cpu.pushes_else c [c.reg .ebx, c.reg .ebp, c.reg .esi, c.reg .edi]
  exact ⟨_, hrun, switched_ret hnx.words rfl rfl helse.1 helse.2.2,
    (popRegs_popped [.edi, .esi, .ebp, .ebx] (by decide) _).mem⟩

end

/-! ## A new thread -/

/-- The frames that `thread_create` leaves. -/
structure Fresh (im : Image) (m : Mem) (t function aux : Word) : Prop where
  field : load m (t + stackOfs) = t + 4052
  words : Words m (t + 4052)
    [0, 0, 0, 0, im.switchEntryAt, 0, 0, im.kernelThread, 0, function, aux]

section

variable {m : Mem} {t a b v : Word}

theorem load_store_ofs (h : 4 ≤ (b - a).toNat) (h' : 4 ≤ (a - b).toNat) :
    load (store m (t + a) v) (t + b) = load m (t + b) :=
  load_store_of_disjoint (by bv_omega) (by bv_omega)

/-- The page of a new thread, all zero, and the words that `thread_create` stores in it. -/
theorem threadCreate_eq (im : Image) (m : Mem) (t function aux : Word) :
    threadCreate im m t function aux =
      [((24 : Word), t + 4096), (24, t + 4084), (4084, 0), (4088, function), (4092, aux), (24, t + 4080),
        (4080, im.kernelThread), (24, t + 4052), (4068, im.switchEntryAt)].foldl
        (fun m p => store m (t + p.1) p.2) (fun x => if (x - t).toNat < pgSize then 0 else m x) := by
  have e₁ : t + 4096 - 12 = t + 4084 := by bv_omega
  have e₂ : t + 4084 - 4 = t + 4080 := by bv_omega
  have e₃ : t + 4080 - 28 = t + 4052 := by bv_omega
  have e₄ : t + 4084 + 4 = t + 4088 := by bv_omega
  have e₅ : t + 4084 + 8 = t + 4092 := by bv_omega
  have e₆ : t + 4052 + 16 = t + 4068 := by bv_omega
  simp (disch := decide) only [threadCreate, allocFrame, stackOfs, load_store, load_store_ofs, e₁, e₂, e₃, e₄,
    e₅, e₆, List.foldl_cons, List.foldl_nil]

theorem threadCreate_page (im : Image) (m : Mem) (t function aux : Word) :
    SameBut t pgSize m (threadCreate im m t function aux) := by
  have hfold : ∀ (l : List (Word × Word)) (m : Mem), (∀ p ∈ l, p.1.toNat + 4 ≤ pgSize) →
      SameBut t pgSize m (l.foldl (fun m p => store m (t + p.1) p.2) m) := by
    intro l
    induction l with
    | nil => exact fun m _ _ _ => rfl
    | cons p l ih =>
      intro m hl
      have hp := hl p List.mem_cons_self
      exact ((store_sameBut m _ _).mono (by bv_omega)).trans (ih _ fun q hq => hl q (List.mem_cons_of_mem p hq))
  rw [threadCreate_eq]
  refine SameBut.trans (fun x hx => if_neg (by omega)) (hfold _ _ (by simp [pgSize]))

theorem threadCreate_fresh (im : Image) (m : Mem) (t function aux : Word) :
    Fresh im (threadCreate im m t function aux) t function aux := by
  have hz : ∀ b : Word, b.toNat + 4 ≤ pgSize →
      load (fun x => if (x - t).toNat < pgSize then 0 else m x) (t + b) = 0 := by
    intro b hb
    refine (load_congr (m := fun _ => 0) fun k hk => if_pos ?_).trans (by simp [load])
    bv_omega
  rw [threadCreate_eq]
  constructor
  · simp (disch := decide) only [List.foldl_cons, List.foldl_nil, stackOfs, load_store, load_store_ofs]
  · simp only [List.foldl_cons, List.foldl_nil, Words, BitVec.add_assoc]
    simp (disch := decide) only [BitVec.reduceAdd, load_store_ofs, hz]
    simp [load_store]

end

/-! ## Runs -/

/-- How a thread that waits came to wait. -/
inductive Waiter where
  /-- The processor at its call of `switch_threads`. -/
  | called (d : Cpu)
  /-- It is new. -/
  | fresh (function aux : Word)

/-- The processor, the page of the running thread, and the threads that wait. -/
structure Sys where
  cpu : Cpu
  cur : Word
  waiter : Word → Option Waiter

inductive Act where
  /-- Whatever the running thread does up to `c`. -/
  | work (c : Cpu)
  /-- `thread_create` on a page for it. -/
  | create (t function aux : Word)
  /-- `switch_threads` -/
  | switch (next : Word)
  /-- `schedule_tail` frees the page of a thread that is dying. -/
  | free (t : Word)

def sysStep (im : Image) (s : Sys) : Act → Option Sys
  | .work c => some { s with cpu := c }
  | .create t function aux => some { s with
      cpu := { s.cpu with mem := threadCreate im s.cpu.mem t function aux }
      waiter := Function.update s.waiter t (some (.fresh function aux)) }
  | .switch next => (run im.code 14 s.cpu).map fun c => {
      cpu := c
      cur := next
      waiter := Function.update (Function.update s.waiter next none) s.cur (some (.called s.cpu)) }
  | .free t => some { s with waiter := Function.update s.waiter t none }

/-- The `stack` member of a thread that waits and its stack are as they were. -/
def Spared (t : Word) (m m' : Mem) : Prop :=
  SameOn (t + stackOfs) 4 m m' ∧
    SameOn (load m (t + stackOfs)) (pgSize - (load m (t + stackOfs) - t).toNat) m m'

/-- What the code that is not here keeps to. A thread spares the stacks of the others and the
variable; a page is given out when it holds no thread and is not the variable's; only another thread
that waits is switched to; and the stack has not overflowed. -/
def Allowed (im : Image) (s : Sys) : Act → Prop
  | .work c => SameOn im.threadStackOfs 4 s.cpu.mem c.mem ∧
      ∀ t, (s.waiter t).isSome → Spared t s.cpu.mem c.mem
  | .create t _ _ => IsPage t ∧ Outside im.threadStackOfs t ∧ t ≠ s.cur ∧ s.waiter t = none
  | .switch next => (s.waiter next).isSome ∧ Call im s.cpu s.cur next
  | .free _ => True

/-- The thread has what it needs to go on. -/
def Waits (im : Image) (m : Mem) (t : Word) : Waiter → Prop
  | .called d => (∃ next, Call im d t next) ∧ Left d m t
  | .fresh function aux => Fresh im m t function aux

structure SwitchInv (im : Image) (s : Sys) : Prop where
  cur : IsPage s.cur ∧ Outside im.threadStackOfs s.cur ∧ s.waiter s.cur = none
  ofs : load s.cpu.mem im.threadStackOfs = stackOfs
  waits : ∀ t w, s.waiter t = some w →
    IsPage t ∧ Outside im.threadStackOfs t ∧ Waits im s.cpu.mem t w

/-- **To each thread `switch_threads` is a function that returns the thread it was switched from**:
the stack pointer, the registers a function has to keep and its own stack are as at the call. A new
thread comes to `switch_entry` with its frames. -/
def Resumes (im : Image) (t : Word) (s' : Sys) (prev : Word) : Waiter → Prop
  | .called d => s'.cpu.eip = d.top ∧ s'.cpu.reg .esp = d.reg .esp + 4 ∧
      (∀ r ∈ [Reg.ebx, .ebp, .esi, .edi], s'.cpu.reg r = d.reg r) ∧
      s'.cpu.reg .eax = prev ∧
      SameOn (d.reg .esp) (pgSize - (d.reg .esp - t).toNat) d.mem s'.cpu.mem
  | .fresh function aux => s'.cpu.eip = im.switchEntryAt ∧ s'.cpu.reg .eax = prev ∧
      Stack s'.cpu [0, 0, im.kernelThread, 0, function, aux]

/-! ### Steps -/

section

variable {im : Image} {s s' : Sys} {m m' : Mem} {t next : Word} {w : Waiter} {d : Cpu}

theorem Waits.congr (h : Waits im m t w) (hm : Spared t m m') : Waits im m' t w := by
  obtain ⟨hfield, hstack⟩ := hm
  cases w with
  | called d =>
    obtain ⟨⟨next, hc⟩, hl⟩ := h
    have hlow := hc.low
    have hhigh := hc.high
    rw [hl.frame.field] at hstack
    exact ⟨⟨next, hc⟩, hl.frame.congr hfield hstack,
      hl.stack.trans (hstack.sub (by unfold pgSize at *; bv_omega))⟩
  | fresh function aux =>
    rw [h.field] at hstack
    refine ⟨(hfield.load (by bv_omega) (by omega)).trans h.field,
      h.words.congr (hstack.sub ?_) (by simp)⟩
    unfold pgSize
    simp only [List.length_cons, List.length_nil]
    bv_omega

/-- What leaves the page of a thread alone leaves the thread alone. -/
theorem Waits.spared (h : Waits im m t w) (hm : SameOn t pgSize m m') : Spared t m m' := by
  refine ⟨hm.sub (by unfold pgSize stackOfs; bv_omega), hm.sub ?_⟩
  cases w with
  | called d =>
    obtain ⟨⟨next, hc⟩, hl⟩ := h
    have hhigh := hl.frame.high
    rw [hl.frame.field]
    omega
  | fresh function aux =>
    rw [h.field]
    unfold pgSize
    bv_omega

/-- The variable is not on the page. -/
theorem Outside.load {v : Word} (h : Outside v t) (hm : SameBut t pgSize m m') : load m' v = load m v := by
  obtain ⟨h₁, h₂⟩ := h
  unfold pgSize at *
  exact SameOn.load (a := v) (n := 4) (hm.on (by bv_omega) (by bv_omega)) (by simp) (by simp)

theorem SwitchInv.work {c : Cpu} (h : SwitchInv im s) (ha : Allowed im s (.work c)) :
    SwitchInv im { s with cpu := c } where
  cur := h.cur
  ofs := (ha.1.load (by simp) (by simp)).trans h.ofs
  waits t w hw := by
    obtain ⟨hp, ho, hwt⟩ := h.waits t w hw
    exact ⟨hp, ho, hwt.congr (ha.2 t (Option.isSome_of_eq_some hw))⟩

theorem SwitchInv.create {function aux : Word} (h : SwitchInv im s)
    (ha : Allowed im s (.create t function aux)) : SwitchInv im { s with
      cpu := { s.cpu with mem := threadCreate im s.cpu.mem t function aux }
      waiter := Function.update s.waiter t (some (.fresh function aux)) } := by
  obtain ⟨hpage, hout, hne, -⟩ := ha
  have hm := threadCreate_page im s.cpu.mem t function aux
  refine ⟨⟨h.cur.1, h.cur.2.1, ?_⟩, (hout.load hm).trans h.ofs, fun u w hw => ?_⟩
  · exact (Function.update_of_ne hne.symm ..).trans h.cur.2.2
  · by_cases hu : u = t
    · subst hu
      have hw : Function.update s.waiter u (some (.fresh function aux)) u = some w := hw
      rw [Function.update_self] at hw
      obtain rfl := Option.some.inj hw
      exact ⟨hpage, hout, threadCreate_fresh im s.cpu.mem u function aux⟩
    · obtain ⟨hp, ho, hwt⟩ := h.waits u w ((Function.update_of_ne hu ..).symm.trans hw)
      exact ⟨hp, ho, hwt.congr (hwt.spared (hp.same hpage hu hm))⟩

theorem SwitchInv.free (h : SwitchInv im s) :
    SwitchInv im { s with waiter := Function.update s.waiter t none } := by
  have hle : ∀ u w, Function.update s.waiter t none u = some w → s.waiter u = some w := by
    intro u w hw
    by_cases hu : u = t
    · subst hu
      rw [Function.update_self] at hw
      cases hw
    · rwa [Function.update_of_ne hu] at hw
  refine ⟨⟨h.cur.1, h.cur.2.1, Option.eq_none_iff_forall_ne_some.mpr fun w hw => ?_⟩, h.ofs,
    fun u w hw => h.waits u w (hle u w hw)⟩
  have := hle _ w hw
  rw [h.cur.2.2] at this
  cases this

/-- The frame of a thread that waits is what its call or its creation made it. -/
theorem Waits.frame (h : Waits im m t w) : match w with
    | .called d => Frame m t (d.reg .esp - 16) (d.reg .edi) (d.reg .esi) (d.reg .ebp) (d.reg .ebx) d.top
    | .fresh _ _ => Frame m t (t + 4052) 0 0 0 0 im.switchEntryAt := by
  cases w with
  | called d => exact h.2.frame
  | fresh function aux =>
    refine ⟨h.field, ?_, by bv_omega, by unfold pgSize; bv_omega⟩
    exact ((words_append [_, _, _, _, _]).mp h.words).1

theorem SwitchInv.switched {c : Cpu} (h : SwitchInv im s) (hc : Call im s.cpu s.cur next)
    (hw : s.waiter next = some w) (hm : c.mem = saved s.cpu s.cur) : SwitchInv im {
      cpu := c
      cur := next
      waiter := Function.update (Function.update s.waiter next none) s.cur (some (.called s.cpu)) } := by
  obtain ⟨hp, ho, -⟩ := h.waits next w hw
  have hne : next ≠ s.cur := by
    rintro rfl
    rw [h.cur.2.2] at hw
    cases hw
  have hpage := hc.saved_page
  rw [← hm] at hpage
  refine ⟨⟨hp, ho, ?_⟩, (h.cur.2.1.load hpage).trans h.ofs, fun u w hu => ?_⟩
  · exact (Function.update_of_ne hne ..).trans (Function.update_self ..)
  · have hu : Function.update (Function.update s.waiter next none) s.cur (some (.called s.cpu)) u =
        some w := hu
    by_cases hcur : u = s.cur
    · subst hcur
      rw [Function.update_self] at hu
      obtain rfl := Option.some.inj hu
      have hleft := hc.left
      rw [← hm] at hleft
      exact ⟨h.cur.1, h.cur.2.1, ⟨next, hc⟩, hleft⟩
    · rw [Function.update_of_ne hcur] at hu
      by_cases hun : u = next
      · subst hun
        rw [Function.update_self] at hu
        cases hu
      · rw [Function.update_of_ne hun] at hu
        obtain ⟨hup, huo, hut⟩ := h.waits u w hu
        exact ⟨hup, huo, hut.congr (hut.spared (hup.same h.cur.1 hcur hpage))⟩

/-- **A step to another thread**, which goes on as its call or its creation left it. -/
theorem SwitchInv.switch (h : SwitchInv im s) (ha : Allowed im s (.switch next)) :
    ∃ s' w, sysStep im s (.switch next) = some s' ∧ s.waiter next = some w ∧
      SwitchInv im s' ∧ Resumes im next s' s.cur w ∧ runningThread s'.cpu = next := by
  obtain ⟨hsome, hc⟩ := ha
  obtain ⟨w, hw⟩ := Option.isSome_iff_exists.mp hsome
  obtain ⟨hp, ho, hwt⟩ := h.waits next w hw
  have hne : s.cur ≠ next := fun e => by
    rw [← e, h.cur.2.2] at hw
    cases hw
  have hsame := hp.same h.cur.1 hne.symm hc.saved_page
  have hwt' := hwt.congr (hwt.spared hsame)
  cases w with
  | called d =>
    obtain ⟨c, hrun, hf, hm⟩ := switch_run hc h.cur.1 hp hne h.ofs h.cur.2.1 hwt.frame
    obtain ⟨⟨_, hd⟩, hleft⟩ := hwt'
    have hesp : c.reg .esp = d.reg .esp + 4 := by
      rw [hf.esp]
      bv_omega
    rw [← hm] at hleft
    refine ⟨_, _, by rw [sysStep, hrun]; rfl, hw, h.switched hc hw hm,
      ⟨hf.eip, hesp, ?_, hf.eax, hleft.stack⟩, runningThread_eq hp ?_⟩
    · simp [hf.ebx, hf.ebp, hf.esi, hf.edi]
    · have := hd.low
      have := hd.high
      show (c.reg .esp - next).toNat < pgSize
      rw [hesp]
      unfold pgSize at *
      bv_omega
  | fresh function aux =>
    obtain ⟨c, hrun, hf, hm⟩ := switch_run hc h.cur.1 hp hne h.ofs h.cur.2.1 hwt.frame
    have hwords := ((words_append [_, _, _, _, _]).mp hwt'.words).2
    refine ⟨_, _, by rw [sysStep, hrun]; rfl, hw, h.switched hc hw hm, ⟨hf.eip, hf.eax, ?_⟩,
      runningThread_eq hp ?_⟩
    · show Words c.mem (c.reg .esp) _
      rw [hm, hf.esp]
      exact hwords
    · show (c.reg .esp - next).toNat < pgSize
      rw [hf.esp]
      unfold pgSize
      bv_omega

theorem SwitchInv.step {a : Act} (h : SwitchInv im s) (ha : Allowed im s a)
    (hs : sysStep im s a = some s') : SwitchInv im s' := by
  cases a with
  | work c =>
    obtain rfl := Option.some.inj hs
    exact h.work ha
  | create t function aux =>
    obtain rfl := Option.some.inj hs
    exact h.create ha
  | switch next =>
    obtain ⟨_, _, hs₁, -, h', -⟩ := h.switch ha
    rw [hs] at hs₁
    obtain rfl := Option.some.inj hs₁
    exact h'
  | free t =>
    obtain rfl := Option.some.inj hs
    exact h.free

end

/-! ### Whole runs -/

/-- `thread_init` has made a thread of the code that runs, on the page of its stack. -/
structure Boot (im : Image) (s : Sys) : Prop where
  page : IsPage s.cur
  out : Outside im.threadStackOfs s.cur
  ofs : load s.cpu.mem im.threadStackOfs = stackOfs
  alone : ∀ t, s.waiter t = none

theorem Boot.inv {im : Image} {s : Sys} (h : Boot im s) : SwitchInv im s :=
  ⟨⟨h.page, h.out, h.alone s.cur⟩, h.ofs, fun t w hw => by rw [h.alone t] at hw; cases hw⟩

theorem SwitchInv.reached {im : Image} {s₀ s : Sys} (h₀ : Boot im s₀)
    (h : Reach (sysStep im) (Allowed im) s₀ s) : SwitchInv im s :=
  h.invariant h₀.inv fun _ _ _ hI ha hs => hI.step ha hs

/-- **In every run a thread that is switched to goes on where it was**, with the registers and the
stack it had, and it is the one `running_thread` finds. -/
theorem switch_threads_resumes (im : Image) {s₀ s : Sys} {next : Word} (h₀ : Boot im s₀)
    (h : Reach (sysStep im) (Allowed im) s₀ s) (ha : Allowed im s (.switch next)) :
    ∃ s' w, sysStep im s (.switch next) = some s' ∧ s.waiter next = some w ∧
      Resumes im next s' s.cur w ∧ runningThread s'.cpu = next := by
  obtain ⟨s', w, hs, hw, -, hr, hrt⟩ := (SwitchInv.reached h₀ h).switch ha
  exact ⟨s', w, hs, hw, hr, hrt⟩

/-! Two threads, on pages that follow each other. -/

def imageExample : Image where
  code x := (placed 0xc0100000 (switchThreads 0xc0200000) x).or
    (placed 0xc0100010 (switchEntry 0xc0100020) x)
  switchThreadsAt := 0xc0100000
  switchEntryAt := 0xc0100010
  scheduleTail := 0xc0100020
  kernelThread := 0xc0100030
  threadStackOfs := 0xc0200000
  switchThreads_code := ⟨_, _, rfl, _, rfl, _, rfl, _, rfl, _, rfl, _, rfl, _, rfl, _, rfl, _, rfl,
    _, rfl, _, rfl, _, rfl, _, rfl, _, rfl, rfl⟩
  switchEntry_code := ⟨_, _, rfl, _, rfl, _, rfl, _, rfl, _, rfl, rfl⟩

/-- The thread at `0xc0001000` calls `switch_threads` for the one at `0xc0002000`. -/
def sysExample : Sys where
  cpu := {
    reg := fun r => if r = .esp then 0xc0001f00 else 0
    seg := fun _ => 0
    eip := 0xc0100000
    eflags := 0
    mem := [((0xc0200000 : Word), (24 : Word)), (0xc0001f00, 0xc0100040), (0xc0001f04, 0xc0001000),
      (0xc0001f08, 0xc0002000)].foldl (fun m p => store m p.1 p.2) fun _ => 0 }
  cur := 0xc0001000
  waiter := fun _ => none

/-- The other thread has been created, for the function at `0xc0100060` and 7. -/
def createdExample : Sys where
  cpu := { sysExample.cpu with
    mem := threadCreate imageExample sysExample.cpu.mem 0xc0002000 0xc0100060 7 }
  cur := 0xc0001000
  waiter := Function.update (fun _ => none) 0xc0002000 (some (.fresh 0xc0100060 7))

theorem bootExample : Boot imageExample sysExample :=
  ⟨rfl, ⟨by decide, by decide⟩, by decide, fun _ => rfl⟩

theorem reachExample :
    Reach (sysStep imageExample) (Allowed imageExample) sysExample createdExample :=
  .next .refl (a := .create 0xc0002000 0xc0100060 7)
    ⟨rfl, ⟨by decide, by decide⟩, by decide, rfl⟩ rfl

theorem allowedExample : Allowed imageExample createdExample (.switch 0xc0002000) :=
  ⟨rfl, rfl, ⟨0xc0100040, by decide, by decide, by decide, trivial⟩, by decide, by decide⟩

theorem switch_threads_resumes_example : ∃ s' w,
    sysStep imageExample createdExample (.switch 0xc0002000) = some s' ∧
      createdExample.waiter 0xc0002000 = some w ∧
      Resumes imageExample 0xc0002000 s' 0xc0001000 w ∧ runningThread s'.cpu = 0xc0002000 :=
  switch_threads_resumes imageExample bootExample reachExample allowedExample

/-! ### The first run of a thread -/

section

variable {im : Image} {c : Cpu} {x y function aux : Word}

/-- `switch_entry` up to its call of `schedule_tail`. -/
theorem switchEntry_call (he : c.eip = im.switchEntryAt)
    (hst : Stack c [x, y, im.kernelThread, 0, function, aux]) :
    ∃ b ret, CodeAt im.code ret [.addl 4 .esp, .ret] b ∧ ∃ c', run im.code 3 c = some c' ∧
      c'.eip = im.scheduleTail ∧ c'.reg .esp = c.reg .esp ∧
      Stack c' [ret, c.reg .eax, im.kernelThread, 0, function, aux] := by
  obtain ⟨b, hcode⟩ := im.switchEntry_code
  obtain ⟨ret, hcode, hrun⟩ := CodeAt.run_next [.addl 8 .esp, .pushl (.reg .eax)]
    (.call im.scheduleTail) [.addl 4 .esp, .ret] hcode rfl he
  have hp : Stack (exec c (.addl 8 .esp)) [im.kernelThread, 0, function, aux] :=
    hst.addl [x, y]
  have hcall := (hp.push (by simp) (c.reg .eax)).push (by simp) ret
  refine ⟨b, ret, hcode, _, hrun, rfl, ?_, hcall⟩
  show ((exec c (.addl 8 .esp)).push (c.reg .eax)).reg .esp - 4 = c.reg .esp
  rw [Cpu.push_esp, addl_esp]
  bv_omega

/-- `switch_entry` from the return of `schedule_tail` on, which may have used the word that was its
argument. -/
theorem switchEntry_ret {b ret arg fn : Word} (h : CodeAt im.code ret [.addl 4 .esp, .ret] b)
    (he : c.eip = ret) (hst : Stack c [arg, fn, 0, function, aux]) :
    ∃ c', run im.code 2 c = some c' ∧ c'.eip = fn ∧ Stack c' [0, function, aux] := by
  obtain ⟨_, -, hrun⟩ := CodeAt.run_next [.addl 4 .esp] .ret [] h rfl he
  have hp : Stack (exec c (.addl 4 .esp)) [fn, 0, function, aux] := hst.addl [arg]
  exact ⟨_, hrun, hp.top, hp.drop⟩

/-- **A new thread begins at `kernel_thread`** with its function and the argument of that, after
`schedule_tail` has run on its stack with the thread switched from. -/
theorem switch_threads_begins (im : Image) {s₀ s : Sys} {next function aux : Word} (h₀ : Boot im s₀)
    (h : Reach (sysStep im) (Allowed im) s₀ s) (ha : Allowed im s (.switch next))
    (hw : s.waiter next = some (.fresh function aux)) :
    ∃ c ret, run im.code 17 s.cpu = some c ∧ c.eip = im.scheduleTail ∧ runningThread c = next ∧
      Stack c [ret, s.cur, im.kernelThread, 0, function, aux] ∧
      ∀ c' arg, c'.eip = ret → Stack c' [arg, im.kernelThread, 0, function, aux] →
        ∃ c'', run im.code 2 c' = some c'' ∧ c''.eip = im.kernelThread ∧
          Stack c'' [0, function, aux] := by
  obtain ⟨s', w, hs, hw', -, hr, hrt⟩ := (SwitchInv.reached h₀ h).switch ha
  rw [hw] at hw'
  obtain rfl := Option.some.inj hw'
  obtain ⟨heip, heax, hst⟩ := hr
  obtain ⟨b, ret, hcode, c, hrun, hc, hesp, hstc⟩ := switchEntry_call heip hst
  obtain ⟨c₁, hrun₁, rfl⟩ := Option.map_eq_some_iff.mp hs
  refine ⟨c, ret, ?_, hc, ?_, heax ▸ hstc, fun c' arg he hst' => switchEntry_ret hcode he hst'⟩
  · rw [show (17 : Nat) = 14 + 3 by rfl, run_add, hrun₁]
    exact hrun
  · rw [← hrt, runningThread, runningThread, hesp]

theorem switch_threads_begins_example : ∃ c ret, run imageExample.code 17 createdExample.cpu = some c ∧
    c.eip = 0xc0100020 ∧ runningThread c = 0xc0002000 ∧
      Stack c [ret, 0xc0001000, 0xc0100030, 0, 0xc0100060, 7] ∧
      ∀ c' arg, c'.eip = ret → Stack c' [arg, 0xc0100030, 0, 0xc0100060, 7] →
        ∃ c'', run imageExample.code 2 c' = some c'' ∧ c''.eip = 0xc0100030 ∧
          Stack c'' [0, 0xc0100060, 7] :=
  switch_threads_begins imageExample bootExample reachExample allowedExample rfl

end

end Pintos.Threads.Switch
