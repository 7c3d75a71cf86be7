import Pintos.Threads.Idt
import Pintos.Userprog.Syscall

/-!
# User programs and the kernel (lib/user/syscall.c, userprog/process.c)

A system call from the macros of the library to `syscall_handler` and back, and the start of a user
program. What is in memory at user addresses is what the page directory maps there.
-/

namespace Pintos.Userprog

open Pintos.Base Pintos.Base.Ia32 Pintos.Threads Pintos.Threads.Intr

/-! ## The code -/

/-- `syscall0` to `syscall3` up to `int $0x30`; an operand stands where the compiler has put it. -/
def syscallArgs (number : Word) (args : List Operand) : List Instr :=
  args.reverse.map .pushl ++ [.pushl (.imm number)]

/-- And from there on. -/
def syscallBack (args : List Operand) : List Instr :=
  [.addl (BitVec.ofNat 32 (4 * (args.length + 1))) .esp]

/-- Where a macro is in the code: `int $0x30` lies from `trap` up to `after`. -/
structure SyscallAt (code : Code) (a : Word) (number : Word) (args : List Operand)
    (trap after b : Word) : Prop where
  before : CodeAt code a (syscallArgs number args) trap
  behind : CodeAt code after (syscallBack args) b

/-- The end of `start_process`, with the operand that has the address of `if_`. -/
def enterUser (o : Operand) (intrExit : Word) : List Instr := [.movl o (.reg .esp), .jmp intrExit]

/-- `syscall_init` -/
def syscallInit {H : Type} (intrStubs : BitVec 8 → Word) (s : Tables H) (syscallHandler : H) :
    Option (Tables H) :=
  register intrStubs s (.int 0x30 3 true syscallHandler "syscall")

/-- `SEL_UCSEG` -/
def selUcseg : BitVec 16 := 0x1b

/-- `SEL_UDSEG` -/
def selUdseg : BitVec 16 := 0x23

/-! ## Arguments -/

/-- The operand means the same while up to `n` words are pushed: no operand that the macros push is
found through the stack pointer. -/
def Steady (c : Cpu) (n : Nat) (o : Operand) : Prop :=
  ∀ c' : Cpu, (∀ r ≠ Reg.esp, c'.reg r = c.reg r) →
    SameBut (c.reg .esp - (BitVec.ofNat 32 (4 * n) : Word)) (4 * n) c.mem c'.mem → c'.value o = c.value o

section

variable {c c' : Cpu} {n : Nat} {o : Operand} {os : List Operand}

theorem steady_imm (v : Word) : Steady c n (.imm v) := fun _ _ _ => rfl

theorem steady_reg {r : Reg} (h : r ≠ .esp) : Steady c n (.reg r) := fun _ hr _ => hr r h

/-- A word in memory that lies above the stack pointer, if it is not found through that. -/
theorem steady_mem {d : Word} {r : Reg} (h : r ≠ .esp) (hn : 4 * n + 4 ≤ 2 ^ 32)
    (ha : (c.reg r + d - c.reg .esp).toNat + 4 * n + 4 ≤ 2 ^ 32) : Steady c n (.mem d r) := by
  intro c' hr hm
  show load c'.mem (c'.reg r + d) = load c.mem (c.reg r + d)
  rw [hr r h]
  exact (hm.on (b := c.reg r + d) (k := 4) (by bv_omega) (by bv_omega)).load (by bv_omega) (by decide)

/-- The pushes put there what the operands were at the start. -/
theorem pushArgs (hos : ∀ o ∈ os, Steady c n o) (hn : 4 * n ≤ 2 ^ 32) {k : Nat} (hp : Pushed k c c')
    (hk : k + os.length ≤ n) :
    (os.map Instr.pushl).foldl exec c' = (os.map c.value).foldl Cpu.push c' := by
  induction os generalizing c' k with
  | nil => rfl
  | cons o os ih =>
    rw [List.length_cons] at hk
    have hm : SameBut (c.reg .esp - (BitVec.ofNat 32 (4 * n) : Word)) (4 * n) c.mem c'.mem := by
      have he := hp.esp
      exact hp.mem.mono (by bv_omega)
    have hv : c'.value o = c.value o := hos o (List.mem_cons_self ..) c' hp.reg hm
    have hp' : Pushed (k + 1) c (c'.push (c.value o)) :=
      hp.trans (pushes_pushed [c.value o] c' (by simp)) (by omega)
    show (os.map Instr.pushl).foldl exec (c'.push (c'.value o)) = _
    rw [hv, ih (fun o ho => hos o (List.mem_cons_of_mem _ ho)) hp' (by omega)]
    rfl

end

/-! ## A system call -/

/-- Memory as the handler reads it. -/
def userMem (m : Mem) (a : Nat) : UInt8 := .ofBitVec (m (BitVec.ofNat 32 a))

theorem word_userMem (pd : PageDir) (m : Mem) (a : Word) (i : Nat) :
    (User.mk pd (userMem m)).word (addr a.toNat i) = (load m (a + BitVec.ofNat 32 i)).toNat := by
  have hb : ∀ j, (userMem m (addr (addr a.toNat i) j)).toNat =
      (m (a + BitVec.ofNat 32 i + BitVec.ofNat 32 j)).toNat := by
    intro j
    have ha : BitVec.ofNat 32 (addr (addr a.toNat i) j) = a + BitVec.ofNat 32 i + BitVec.ofNat 32 j := by
      unfold addr
      bv_omega
    unfold userMem
    rw [ha]
    rfl
  have h0 := hb 0
  rw [show a + BitVec.ofNat 32 i + BitVec.ofNat 32 0 = a + BitVec.ofNat 32 i by bv_omega] at h0
  unfold User.word
  rw [h0, hb 1, hb 2, hb 3]
  unfold load
  have happ : ∀ {n k : Nat} (x : BitVec n) (y : BitVec k), (x ++ y).toNat = x.toNat * 2 ^ k + y.toNat := by
    intro n k x y
    rw [BitVec.toNat_append, ← Nat.shiftLeft_add_eq_or_of_lt y.isLt, Nat.shiftLeft_eq]
  rw [happ, happ, happ]
  omega

section

variable {H : Type} {im : Image} {c u : Cpu} {number trap after b : Word} {args : List Operand}

/-- What `syscall_handler` finds: its frame, and at the user program's stack pointer the number and
the arguments. Of the user program's memory only these are written. -/
structure SyscallEntered (im : Image) (c : Cpu) (number : Word) (args : List Word) (p : Cpu)
    (ret : Word) (f : IntrFrame) (esp : Word) : Prop where
  eip : p.eip = im.intrHandler
  vecNo : f.vecNo = 0x30
  stack : Stack p (ret :: (p.reg .esp + 8) :: f.words ++ [esp, (c.seg .ss).setWidth 32])
  word : ∀ i w, (number :: args)[i]? = some w →
    ∀ pd, (User.mk pd (userMem p.mem)).word (addr esp.toNat (4 * i)) = w.toNat
  mem : ∀ x : Word, x.toNat < physBase → 4 * (args.length + 1) ≤ (x - esp).toNat → p.mem x = c.mem x
  intrOn : p.eflags.getLsbD 9 = c.eflags.getLsbD 9

theorem syscallArgs_run (hcode : SyscallAt im.code c.eip number args trap after b)
    (hargs : ∀ o ∈ args, Steady c args.length o) (hlen : args.length ≤ 3) :
    ∃ u, run im.code (args.length + 1) c = some u ∧ u.eip = trap ∧ u.seg = c.seg ∧
      u.eflags = c.eflags ∧ Pushed (args.length + 1) c u ∧ Stack u (number :: args.map c.value) := by
  have hstraight : (syscallArgs number args).all Instr.straight = true := by
    rw [syscallArgs, List.all_append, List.all_map, Bool.and_eq_true]
    exact ⟨List.all_eq_true.mpr fun _ _ => rfl, rfl⟩
  have hrun := hcode.before.run hstraight rfl
  have hl : (syscallArgs number args).length = args.length + 1 := by simp [syscallArgs]
  have hargs' : ∀ o ∈ args.reverse, Steady c args.length o := fun o ho => hargs o (List.mem_reverse.mp ho)
  have hrefl : Pushed 0 c c := pushes_pushed [] c (by decide)
  have hpush := pushArgs hargs' (by omega) hrefl (by simp)
  have hexec : (syscallArgs number args).foldl exec c =
      (args.reverse.map c.value ++ [number]).foldl Cpu.push c := by
    rw [syscallArgs, List.foldl_append, hpush, List.foldl_append]
    rfl
  rw [hl, hexec] at hrun
  have hpushed := pushes_pushed (args.reverse.map c.value ++ [number]) c (by simp; omega)
  have hnil : Stack c [] := trivial
  have hstack := hnil.pushes (args.reverse.map c.value ++ [number]) (by simp; omega)
  have helse := Cpu.pushes_else c (args.reverse.map c.value ++ [number])
  have h : (args.reverse.map c.value ++ [number]).length = args.length + 1 := by simp
  have h' : (args.reverse.map c.value ++ [number]).reverse ++ [] = number :: args.map c.value := by simp
  rw [h] at hpushed
  rw [h'] at hstack
  exact ⟨_, hrun, rfl, helse.1, helse.2.2, ⟨hpushed.esp, hpushed.reg, hpushed.mem⟩, hstack⟩

theorem SyscallAt.run_behind (hcode : SyscallAt im.code c.eip number args trap after b) {d q : Cpu}
    (hd : run im.code 8 q = some d) (he : d.eip = after) :
    run im.code 9 q = some
      { exec d (.addl (BitVec.ofNat 32 (4 * (args.length + 1))) .esp) with eip := b } := by
  rw [show (9 : Nat) = 8 + 1 by rfl, run_add, hd]
  exact hcode.behind.run rfl he

/-- The gate of the system call, from `syscall_init` on. -/
theorem syscallInit_gate {intrStubs : BitVec 8 → Word} {s₁ s₂ s : Tables H} {k : H}
    (hs : syscallInit intrStubs s₁ k = some s₂) (h : Reach (register intrStubs) Free s₂ s) :
    s.intrHandlers 0x30 = some k ∧
      Gate.decode (s.idt 0x30) = some ⟨intrStubs 0x30, selKcseg, 3, true⟩ := by
  have hr : registerHandler intrStubs s₁ 0x30 3 true k "syscall" = some s₂ := hs
  obtain ⟨-, ⟨hk, -, hd⟩, -⟩ := registerHandler_some hr
  obtain ⟨h₁, h₂, -⟩ := registered_kept h hk
  exact ⟨h₁, h₂ ▸ hd⟩

/-- The gate through which system calls come in. -/
def syscallGate (im : Image) : Gate := ⟨im.intrStubs 0x30, selKcseg, 3, true⟩

/-- From `int $0x30` to `syscall_handler`. -/
theorem SyscallEntered.of_trap {tss : Tss} {ws : List Word} (hu : Pushed ws.length c u) (hst : Stack u ws)
    (hws : ws = number :: args.map c.value) (hlen : args.length ≤ 3) (hseg : u.seg = c.seg)
    (hfl : u.eflags = c.eflags) (hcs : c.seg .cs = selUcseg)
    (hlow : 4 * ws.length ≤ (c.reg .esp).toNat) (hhigh : (c.reg .esp).toNat ≤ physBase)
    (htss : physBase + 88 ≤ tss.esp0.toNat) {p : Cpu} {ret : Word}
    (he : Entered im { u with eip := after } (syscallGate im) tss
      (IntrFrame.of { u with eip := after } 0x30 none (p.reg .esp + 8)) p ret) :
    SyscallEntered im c number (args.map c.value) p ret
      (IntrFrame.of { u with eip := after } 0x30 none (p.reg .esp + 8)) (u.reg .esp) := by
  have hl : ws.length = args.length + 1 := by simp [hws]
  have hin : ({ u with eip := after } : Cpu).inward (syscallGate im) = true := by
    unfold Cpu.inward Cpu.cpl
    rw [show ({ u with eip := after } : Cpu).seg = c.seg from hseg, hcs]
    exact decide_eq_true (show Cpu.rpl selKcseg < Cpu.rpl selUcseg by decide)
  have houter : ({ u with eip := after } : Cpu).outer (syscallGate im) =
      [u.reg .esp, (c.seg .ss).setWidth 32] := by
    rw [Cpu.outer, if_pos hin, show ({ u with eip := after } : Cpu).seg = c.seg from hseg]
  have hesp : p.reg .esp = tss.esp0 - 88 := by
    have h := he.esp
    rw [houter, Cpu.entered, if_pos hin] at h
    exact h.trans (congrArg (· - (88 : Word)) (Cpu.set_self { u with eip := after } tss.esp0 .esp))
  have hmem : SameBut (p.reg .esp) 88 u.mem p.mem := by
    have h := he.mem
    rw [houter] at h
    exact h
  have husp := hu.esp
  have hst' : Words p.mem (u.reg .esp) ws :=
    hst.congr (hmem.on (by unfold physBase at *; bv_omega) (by unfold physBase at *; bv_omega)) (by omega)
  exact {
    eip := he.eip
    vecNo := rfl
    stack := houter ▸ he.stack
    word := fun i w hw pd => by
      rw [word_userMem, Words.get hst' (hws ▸ hw)]
    mem := fun x hx hx' => by
      rw [List.length_map] at hx'
      have h₁ : p.mem x = u.mem x := hmem x (by unfold physBase at *; bv_omega)
      have h₂ : u.mem x = c.mem x := hu.mem x (by omega)
      exact h₁.trans h₂
    intrOn := by
      rw [he.eflags]
      show (u.eflags &&& ~~~0x34100#32 &&& ~~~0x400#32).getLsbD 9 = _
      rw [hfl]
      simp }

/-- **A system call and back**, for any of the macros: `syscall_handler` finds the number and the
arguments at the user program's stack pointer, and with what it leaves in `eax` as its value the macro
comes to its end, every other register as it was before. -/
theorem syscall_round_trip (im : Image) {s₁ s₂ s : Tables H} {k : H} (c : Cpu) (tss : Tss)
    (hs : syscallInit im.intrStubs s₁ k = some s₂) (h : Reach (register im.intrStubs) Free s₂ s)
    (hcode : SyscallAt im.code c.eip number args trap after b) (hlen : args.length ≤ 3)
    (hargs : ∀ o ∈ args, Steady c args.length o) (hcs : c.seg .cs = selUcseg)
    (hlow : 4 * (args.length + 1) ≤ (c.reg .esp).toNat) (hhigh : (c.reg .esp).toNat ≤ physBase)
    (htss : physBase + 88 ≤ tss.esp0.toNat) :
    ∃ u e p ret f, run im.code (args.length + 1) c = some u ∧ u.eip = trap ∧
      s.intrHandlers 0x30 = some k ∧ Gate.decode (s.idt 0x30) = some (syscallGate im) ∧
      ({ u with eip := after } : Cpu).int (syscallGate im) tss = some e ∧ run im.code 16 e = some p ∧
      SyscallEntered im c number (args.map c.value) p ret f (u.reg .esp) ∧
      ∀ q v, Handled { u with eip := after } (syscallGate im) p q ret { f with eax := v } →
        ∃ r, run im.code 9 q = some r ∧ r.eip = b ∧ r.reg .eax = v ∧
          (∀ x ≠ Reg.eax, r.reg x = c.reg x) ∧ r.seg = c.seg ∧ r.mem = q.mem := by
  obtain ⟨u, hrun, htrap, hseg, hfl, hp, hst⟩ := syscallArgs_run hcode hargs hlen
  obtain ⟨hk, hg⟩ := syscallInit_gate hs h
  obtain ⟨p, ret, hrun', he, hback⟩ := there_and_back im { u with eip := after } 0x30
    (g := syscallGate im) tss rfl (show (none : Option Word).isSome = isReal 0x30 by decide)
  have hint : ({ u with eip := after } : Cpu).int (syscallGate im) tss =
      some (({ u with eip := after } : Cpu).deliver (syscallGate im) tss none) :=
    if_pos (show ({ u with eip := after } : Cpu).cpl ≤ (3 : BitVec 2) by bv_omega)
  have hl : (number :: args.map c.value).length = args.length + 1 := by simp
  refine ⟨u, _, p, ret, _, hrun, htrap, hk, hg, hint, hrun',
    .of_trap (hl ▸ hp) hst rfl hlen hseg hfl hcs (hl ▸ hlow) hhigh htss he, fun q v hq => ?_⟩
  have hcs' : ({ IntrFrame.of { u with eip := after } 0x30 none (p.reg .esp + 8) with
      eax := v } : IntrFrame).cs.setWidth 16 = u.seg .cs := setWidth_seg _
  obtain ⟨d, hd, hde, hdr, hds, hdm⟩ : ∃ d, run im.code 8 q = some d ∧ d.eip = after ∧
      d.reg = Function.update u.reg .eax v ∧ d.seg = c.seg ∧ d.mem = q.mem :=
    ⟨_, (hback q _ hq hcs').trans (congrArg some (IntrFrame.resume_eax _ _ _ _ v q.mem)), rfl, rfl,
      hseg, rfl⟩
  have hespne : Reg.esp ≠ .eax := by decide
  refine ⟨_, hcode.run_behind hd hde, rfl, ?_, fun x hx => ?_, hds, hdm⟩
  · show (exec d (.addl (BitVec.ofNat 32 (4 * (args.length + 1))) .esp)).reg .eax = v
    rw [addl_reg d _ hespne.symm, hdr, Function.update_self]
  · show (exec d (.addl (BitVec.ofNat 32 (4 * (args.length + 1))) .esp)).reg x = c.reg x
    by_cases hsp : x = .esp
    · subst hsp
      rw [addl_esp, hdr, Function.update_of_ne hespne, hp.esp]
      bv_omega
    · rw [addl_reg d _ hsp, hdr, Function.update_of_ne hx, hp.reg x hsp]

/-! The call `write (1, ebx, n)` with `n` a local variable. -/

def writeArgs : List Operand := [.imm 1, .reg .ebx, .mem (-8) .ebp]

def imageWithUser : Image where
  code x := (imageExample.code x).or
    ((placed 0x08048000 (syscallArgs 9 writeArgs) x).or
      ((placed 0x08048005 (syscallBack writeArgs) x).or
        (placed 0xc0103000 (enterUser (.reg .eax) imageExample.intrExitAt) x)))
  intrStubs := imageExample.intrStubs
  intrEntryAt := imageExample.intrEntryAt
  intrExitAt := imageExample.intrExitAt
  intrHandler := imageExample.intrHandler
  stub_code vec :=
    let ⟨b, h⟩ := imageExample.stub_code vec
    ⟨b, CodeAt.mono (fun x v hx => by rw [hx]; rfl) h⟩
  intrEntry_code := CodeAt.mono (fun x v hx => by rw [hx]; rfl) imageExample.intrEntry_code
  intrExit_code :=
    let ⟨b, h⟩ := imageExample.intrExit_code
    ⟨b, CodeAt.mono (fun x v hx => by rw [hx]; rfl) h⟩

def writerExample : Cpu where
  reg r := match r with
    | .esp => 0xbfffff00
    | .ebp => 0xbfffff20
    | .ebx => 0x0804a000
    | _ => 0
  seg s := match s with
    | .cs => 0x1b
    | _ => 0x23
  eip := 0x08048000
  eflags := 0x202
  mem := Base.Ia32.store (fun _ => 0) 0xbfffff18 5

theorem syscall_round_trip_example : ∃ s : Tables Unit, ∃ u e p ret f,
    run imageWithUser.code 4 writerExample = some u ∧ u.eip = 0x08048004 ∧
    Gate.decode (s.idt 0x30) = some (syscallGate imageWithUser) ∧
    ({ u with eip := 0x08048005 } : Cpu).int (syscallGate imageWithUser) ⟨0xc0003000, 0x10⟩ = some e ∧
    run imageWithUser.code 16 e = some p ∧
    SyscallEntered imageWithUser writerExample 9 [1, 0x0804a000, 5] p ret f (u.reg .esp) := by
  have hall : ∀ vec, (makeIntrGate (imageWithUser.intrStubs vec) 0).isSome := by decide
  obtain ⟨s, hs⟩ := Option.isSome_iff_exists.mp (by decide : (syscallInit imageWithUser.intrStubs {
    idt := fun vec => (makeIntrGate (imageWithUser.intrStubs vec) 0).getD 0
    intrHandlers := fun _ => none
    intrNames := exceptionName } ()).isSome)
  have hsteady : ∀ o ∈ writeArgs, Steady writerExample writeArgs.length o := by
    intro o ho
    simp only [writeArgs, List.mem_cons, List.not_mem_nil, or_false] at ho
    rcases ho with rfl | rfl | rfl
    · exact steady_imm 1
    · exact steady_reg (by decide)
    · exact steady_mem (by decide) (by decide) (by decide)
  have hat : SyscallAt imageWithUser.code writerExample.eip 9 writeArgs 0x08048004 0x08048005 0x08048006 :=
    ⟨⟨_, rfl, _, rfl, _, rfl, _, rfl, rfl⟩, ⟨_, rfl, rfl⟩⟩
  have hval : writeArgs.map writerExample.value = [1, 0x0804a000, 5] := by decide
  obtain ⟨u, e, p, ret, f, hrun, htrap, -, hg, he, hp, hent, -⟩ :=
    syscall_round_trip imageWithUser writerExample ⟨0xc0003000, 0x10⟩ hs .refl hat (by decide) hsteady rfl
      (by decide) (by decide) (by decide)
  exact ⟨s, u, e, p, ret, f, hrun, htrap, hg, he, hp, hval ▸ hent⟩

end

/-! ## The start of a program -/

/-- `if_` as `start_process` and `load` have filled it in, up to its last two words. -/
def startFrame (eip : Word) : IntrFrame where
  edi := 0
  esi := 0
  ebp := 0
  espDummy := 0
  ebx := 0
  edx := 0
  ecx := 0
  eax := 0
  gs := selUdseg.setWidth 32
  fs := selUdseg.setWidth 32
  es := selUdseg.setWidth 32
  ds := selUdseg.setWidth 32
  vecNo := 0
  errorCode := 0
  framePointer := 0
  eip := eip
  cs := selUcseg.setWidth 32
  -- `FLAG_IF | FLAG_MBS`
  eflags := 0x202

/-- A program that has yet to run its first instruction. -/
structure AtStart (u : Cpu) (eip esp : Word) : Prop where
  eip : u.eip = eip
  esp : u.reg .esp = esp
  regs : ∀ r ≠ Reg.esp, u.reg r = 0
  cs : u.seg .cs = selUcseg
  segs : ∀ s ≠ Seg.cs, u.seg s = selUdseg
  eflags : u.eflags = 0x202

/-- **The start of a user program**: the frame that `start_process` has made takes the processor out of
the kernel to the entry point and the stack that `load` has set, with interrupts on and nothing of the
kernel left in its registers. -/
theorem enterUser_run (im : Image) (c : Cpu) {o : Operand} {b eip esp : Word}
    (hcode : CodeAt im.code c.eip (enterUser o im.intrExitAt) b) (hcs : c.seg .cs = selKcseg)
    (hframe : Words c.mem (c.value o) ((startFrame eip).words ++ [esp, selUdseg.setWidth 32])) :
    ∃ u, run im.code 9 c = some u ∧ AtStart u eip esp ∧ u.cpl = 3 ∧ u.mem = c.mem := by
  obtain ⟨nxt, -, hrun⟩ := CodeAt.run_next [.movl o (.reg .esp)] (.jmp im.intrExitAt) [] hcode rfl rfl
  have hst : Stack { c.set .esp (c.value o) with eip := im.intrExitAt }
      ((startFrame eip).words ++ [esp, selUdseg.setWidth 32]) := by
    show Words c.mem ((c.set .esp (c.value o)).reg .esp) _
    rw [Cpu.set_self]
    exact hframe
  have hcpl : ({ c.set .esp (c.value o) with eip := im.intrExitAt } : Cpu).cpl <
      Cpu.rpl ((startFrame eip).cs.setWidth 16) := by
    show Cpu.rpl (c.seg .cs) < Cpu.rpl (selUcseg.setWidth 32 |>.setWidth 16)
    rw [hcs, setWidth_seg]
    decide
  have hexit := intrExit_outer rfl hst hcpl
  refine ⟨(startFrame eip).resume c.mem esp ((selUdseg.setWidth 32).setWidth 16), ?_,
    ⟨rfl, rfl, fun r hr => ?_, setWidth_seg _, fun s hs => ?_, rfl⟩, ?_, rfl⟩
  · rw [show (9 : Nat) = ([.movl o (.reg .esp)] : List Instr).length + 1 + 7 by rfl, run_add, hrun]
    exact hexit
  · cases r <;> first | exact absurd rfl hr | rfl
  · cases s <;> first | exact absurd rfl hs | exact setWidth_seg _
  · show Cpu.rpl (selUcseg.setWidth 32 |>.setWidth 16) = 3
    rw [setWidth_seg]
    rfl

/-- `start_process` with its stack, on the top of which it has `if_`, and its address in `eax`. -/
def beforeFrame : Cpu where
  reg r := match r with
    | .esp => 0xc0004f50
    | .eax => 0xc0004f00
    | _ => 7
  seg s := match s with
    | .cs => 0x08
    | _ => 0x10
  eip := 0xc0103000
  eflags := 0x202
  mem _ := 0

def frameWords : List Word := (startFrame 0x08048000).words ++ [0xbfffffe0, 0x23]

def starterExample : Cpu := frameWords.reverse.foldl Cpu.push beforeFrame

theorem enterUser_run_example : ∃ u, run imageWithUser.code 9 starterExample = some u ∧
    AtStart u 0x08048000 0xbfffffe0 ∧ u.cpl = 3 ∧ u.mem = starterExample.mem := by
  have hesp : starterExample.reg .esp = 0xc0004f00 := Cpu.pushes_esp ..
  have hnil : Stack beforeFrame [] := trivial
  have hst : Stack starterExample (frameWords.reverse.reverse ++ []) := hnil.pushes _ (by decide)
  rw [List.reverse_reverse, List.append_nil] at hst
  have heax : starterExample.value (.reg .eax) = starterExample.reg .esp := by
    rw [hesp]
    exact Cpu.pushes_reg _ _ (by decide)
  refine enterUser_run imageWithUser starterExample (o := .reg .eax) (b := 0xc0103002)
    ⟨_, rfl, _, rfl, rfl⟩ rfl ?_
  rw [heax]
  exact hst

end Pintos.Userprog
