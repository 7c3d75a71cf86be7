import Pintos.Base.Gates

/-!
# Interrupt entry and exit (threads/intr-stubs.S, threads/interrupt.h)

Each vector has a stub, which makes what the processor pushed for it uniform; `intr_entry` pushes the
rest of the `struct intr_frame` and calls `intr_handler`, and `intr_exit` goes back to what the frame
says.
-/

namespace Pintos.Threads.Intr

open Pintos.Base.Ia32

/-! ## The code -/

/-- `SEL_KCSEG` -/
def selKcseg : BitVec 16 := 0x08

/-- `SEL_KDSEG` -/
def selKdseg : Word := 0x10

/-- The stub of this vector is of type `REAL`. -/
def isReal (vec : BitVec 8) : Bool :=
  [0x08, 0x0a, 0x0b, 0x0d, 0x0e, 0x11, 0x18, 0x1a, 0x1b, 0x1d, 0x1e].contains vec

def zero : List Instr := [.pushl (.reg .ebp), .pushl (.imm 0)]

/-- `REAL` -/
def real : List Instr := [.pushl (.mem 0 .esp), .movl (.reg .ebp) (.mem 4 .esp)]

/-- `STUB`, given the address of `intr_entry`. -/
def stub (intrEntry : Word) (vec : BitVec 8) : List Instr :=
  (if isReal vec then real else zero) ++ [.pushl (.imm (vec.setWidth 32)), .jmp intrEntry]

/-- `intr_entry`, given the address of `intr_handler`. -/
def intrEntry (intrHandler : Word) : List Instr :=
  [ .pushSeg .ds,
    .pushSeg .es,
    .pushSeg .fs,
    .pushSeg .gs,
    .pushal,
    .cld,
    .movl (.imm selKdseg) (.reg .eax),
    .movSeg .eax .ds,
    .movSeg .eax .es,
    .leal (.mem 56 .esp) .ebp,
    .pushl (.reg .esp),
    .call intrHandler,
    .addl 4 .esp ]

/-- `intr_exit` -/
def intrExit : List Instr :=
  [ .popal,
    .popSeg .gs,
    .popSeg .fs,
    .popSeg .es,
    .popSeg .ds,
    .addl 12 .esp,
    .iret ]

/-- Where the linker has put the code; `intr_entry` falls through to `intr_exit`. -/
structure Image where
  code : Code
  intrStubs : BitVec 8 → Word
  intrEntryAt : Word
  intrExitAt : Word
  intrHandler : Word
  stub_code : ∀ vec, ∃ b, CodeAt code (intrStubs vec) (stub intrEntryAt vec) b
  intrEntry_code : CodeAt code intrEntryAt (intrEntry intrHandler) intrExitAt
  intrExit_code : ∃ b, CodeAt code intrExitAt intrExit b

/-! ## The frame -/

/-- `struct intr_frame` up to the words that are there only when the privilege level has changed,
`esp` and `ss`. -/
structure IntrFrame where
  edi : Word
  esi : Word
  ebp : Word
  espDummy : Word
  ebx : Word
  edx : Word
  ecx : Word
  eax : Word
  gs : Word
  fs : Word
  es : Word
  ds : Word
  vecNo : Word
  errorCode : Word
  framePointer : Word
  eip : Word
  cs : Word
  eflags : Word
  deriving DecidableEq, Repr

/-- A selector in a word. -/
theorem setWidth_seg (s : BitVec 16) : (s.setWidth 32).setWidth 16 = s := by
  rw [BitVec.setWidth_setWidth_of_le s (by omega), BitVec.setWidth_eq]

namespace IntrFrame

def words (f : IntrFrame) : List Word :=
  [f.edi, f.esi, f.ebp, f.espDummy, f.ebx, f.edx, f.ecx, f.eax, f.gs, f.fs, f.es, f.ds, f.vecNo,
    f.errorCode, f.framePointer, f.eip, f.cs, f.eflags]

/-- The frame at `a` of what was interrupted. -/
def of (c : Cpu) (vec : BitVec 8) (err : Option Word) (a : Word) : IntrFrame where
  edi := c.reg .edi
  esi := c.reg .esi
  ebp := c.reg .ebp
  espDummy := a + 32
  ebx := c.reg .ebx
  edx := c.reg .edx
  ecx := c.reg .ecx
  eax := c.reg .eax
  gs := (c.seg .gs).setWidth 32
  fs := (c.seg .fs).setWidth 32
  es := (c.seg .es).setWidth 32
  ds := (c.seg .ds).setWidth 32
  vecNo := vec.setWidth 32
  errorCode := err.getD 0
  framePointer := c.reg .ebp
  eip := c.eip
  cs := (c.seg .cs).setWidth 32
  eflags := c.eflags

/-- What goes on after the frame, with memory as it is. -/
def resume (f : IntrFrame) (m : Mem) (esp : Word) (ss : BitVec 16) : Cpu where
  reg
    | .eax => f.eax
    | .ecx => f.ecx
    | .edx => f.edx
    | .ebx => f.ebx
    | .esp => esp
    | .ebp => f.ebp
    | .esi => f.esi
    | .edi => f.edi
  seg
    | .cs => f.cs.setWidth 16
    | .ds => f.ds.setWidth 16
    | .es => f.es.setWidth 16
    | .fs => f.fs.setWidth 16
    | .gs => f.gs.setWidth 16
    | .ss => ss
  eip := f.eip
  eflags := f.eflags
  mem := m

theorem eq_resume {f : IntrFrame} {x : Cpu} {m : Mem} {esp : Word} {ss : BitVec 16}
    (hr : ∀ r ≠ Reg.esp, x.reg r = (f.resume m esp ss).reg r) (hsp : x.reg .esp = esp)
    (hs : ∀ s ≠ Seg.ss, x.seg s = (f.resume m esp ss).seg s) (hss : x.seg .ss = ss)
    (hip : x.eip = f.eip) (hfl : x.eflags = f.eflags) (hm : x.mem = m) : x = f.resume m esp ss := by
  have h₁ : x.reg = (f.resume m esp ss).reg := funext fun r => by
    by_cases h : r = .esp
    · subst h
      exact hsp
    · exact hr r h
  have h₂ : x.seg = (f.resume m esp ss).seg := funext fun s => by
    by_cases h : s = .ss
    · subst h
      exact hss
    · exact hs s h
  exact Cpu.ext h₁ h₂ hip hfl hm

/-- A frame of which only `eax` has been changed brings back what was interrupted, but for that. -/
theorem resume_eax (c : Cpu) (vec : BitVec 8) (err : Option Word) (a v : Word) (m : Mem) :
    ({ of c vec err a with eax := v } : IntrFrame).resume m (c.reg .esp) (c.seg .ss) =
      { c.set .eax v with mem := m } := by
  refine (eq_resume (f := { of c vec err a with eax := v }) (x := { c.set .eax v with mem := m })
    (fun r hr => ?_) ?_ (fun s hs => ?_) rfl rfl rfl rfl).symm
  · cases r <;> first | exact absurd rfl hr | rfl
  · rfl
  · cases s <;> first | exact absurd rfl hs | exact (setWidth_seg _).symm

end IntrFrame

/-! ## Entry -/

section

variable {im : Image} {c d p : Cpu} {vec : BitVec 8} {ws : List Word}

/-- A stub of type `zero`, on words without an error code. -/
theorem stub_zero {n : Nat} (hr : isReal vec = false) (he : d.eip = im.intrStubs vec)
    (hst : Stack d ws) (hl : 4 * ws.length + 12 ≤ 2 ^ 32) (hp : Pushed n c d)
    (hn : 4 * (n + 3) ≤ 2 ^ 32) :
    ∃ p, run im.code 4 d = some p ∧ p.eip = im.intrEntryAt ∧ p.seg = d.seg ∧ p.eflags = d.eflags ∧
      Pushed (n + 3) c p ∧ Stack p (vec.setWidth 32 :: 0 :: d.reg .ebp :: ws) := by
  obtain ⟨b, hcode⟩ := im.stub_code vec
  rw [stub, hr] at hcode
  obtain ⟨nxt, -, hrun⟩ := CodeAt.run_next (zero ++ [.pushl (.imm (vec.setWidth 32))])
    (.jmp im.intrEntryAt) [] hcode rfl he
  have hp' := pushes_pushed [d.reg .ebp, 0, vec.setWidth 32] d (by simp)
  have hs := hst.pushes [d.reg .ebp, 0, vec.setWidth 32] (by simp; omega)
  have hp := hp.trans hp' hn
  exact ⟨_, hrun, rfl, rfl, rfl, ⟨hp.esp, hp.reg, hp.mem⟩, hs⟩

/-- A stub of type `REAL`, on words with an error code. -/
theorem stub_real {n : Nat} {e : Word} (hr : isReal vec = true) (he : d.eip = im.intrStubs vec)
    (hst : Stack d (e :: ws)) (hl : 4 * ws.length + 12 ≤ 2 ^ 32) (hp : Pushed n c d) (h0 : 0 < n)
    (hn : 4 * (n + 2) ≤ 2 ^ 32) :
    ∃ p, run im.code 4 d = some p ∧ p.eip = im.intrEntryAt ∧ p.seg = d.seg ∧ p.eflags = d.eflags ∧
      Pushed (n + 2) c p ∧ Stack p (vec.setWidth 32 :: e :: d.reg .ebp :: ws) := by
  obtain ⟨b, hcode⟩ := im.stub_code vec
  rw [stub, hr] at hcode
  obtain ⟨nxt, -, hrun⟩ := CodeAt.run_next (real ++ [.pushl (.imm (vec.setWidth 32))])
    (.jmp im.intrEntryAt) [] hcode rfl he
  -- A copy of the error code is pushed, and `%ebp` takes the place of the error code.
  set d₁ := d.push e with hd₁
  have hp₁ : Pushed (n + 1) c d₁ := hp.trans (pushes_pushed [e] d (by simp)) (by omega)
  have hs₁ : Stack d₁ ([e] ++ e :: ws) := hst.push (by simp; omega) e
  set d₂ : Cpu := { d₁ with mem := store d₁.mem (d₁.reg .esp + BitVec.ofNat 32 (4 * 1)) (d.reg .ebp) }
    with hd₂
  have hp₂ : Pushed (n + 1) c d₂ := hp₁.store (by omega) (by omega) _
  have hs₂ : Stack d₂ ([e] ++ d.reg .ebp :: ws) :=
    Stack.set [e] hs₁ (by simp; omega) _
  have hp₃ := hp₂.trans (pushes_pushed [vec.setWidth 32] d₂ (by simp)) (by omega)
  have hs₃ := hs₂.push (by simp; omega) (vec.setWidth 32)
  have hexec : (real ++ [Instr.pushl (.imm (vec.setWidth 32))]).foldl exec d = d₂.push (vec.setWidth 32) := by
    have h₁ : exec d (.pushl (.mem 0 .esp)) = d₁ := by
      have htop : load d.mem (d.reg .esp + 0#32) = e := by
        rw [BitVec.add_zero]
        exact hst.top
      exact congrArg d.push htop
    have h₂ : exec d₁ (.movl (.reg .ebp) (.mem 4 .esp)) = d₂ := by
      rw [hd₂, ← Cpu.push_reg d e (r := .ebp) (by decide)]
      rfl
    rw [real, List.cons_append, List.foldl_cons, h₁, List.cons_append, List.foldl_cons, h₂]
    rfl
  rw [hexec] at hrun
  exact ⟨_, hrun, rfl, rfl, rfl, ⟨hp₃.esp, hp₃.reg, hp₃.mem⟩, hs₃⟩

/-- The registers as the kernel needs them. -/
def kernelRegs : List Instr :=
  [.cld, .movl (.imm selKdseg) (.reg .eax), .movSeg .eax .ds, .movSeg .eax .es,
    .leal (.mem 56 .esp) .ebp]

theorem kernelRegs_esp (c : Cpu) : (kernelRegs.foldl exec c).reg .esp = c.reg .esp := by
  simp [kernelRegs, exec, Cpu.assign, Cpu.set, Cpu.setSeg]

theorem kernelRegs_mem (c : Cpu) : (kernelRegs.foldl exec c).mem = c.mem := rfl

theorem kernelRegs_seg (c : Cpu) : (kernelRegs.foldl exec c).seg =
    Function.update (Function.update c.seg .ds 0x10) .es 0x10 := by
  simp [kernelRegs, exec, Cpu.assign, Cpu.set, Cpu.setSeg, Cpu.value, selKdseg]

theorem kernelRegs_eflags (c : Cpu) :
    (kernelRegs.foldl exec c).eflags = c.eflags &&& ~~~0x400#32 := rfl

/-- The segment registers in the order in which `intr_entry` pushes them. -/
def savedSegs (c : Cpu) : List Word :=
  [.ds, .es, .fs, .gs].map fun s => (c.seg s).setWidth 32

/-- `intr_entry` up to the call of `intr_handler`. -/
theorem intrEntry_run {n : Nat} (he : p.eip = im.intrEntryAt) (hst : Stack p ws)
    (hl : 4 * ws.length + 56 ≤ 2 ^ 32) (hp : Pushed n c p) (hn : 4 * (n + 14) ≤ 2 ^ 32) :
    ∃ p' ret, CodeAt im.code ret [.addl 4 .esp] im.intrExitAt ∧ run im.code 12 p = some p' ∧
      p'.eip = im.intrHandler ∧ p'.seg .cs = p.seg .cs ∧ p'.seg .ss = p.seg .ss ∧
      p'.seg .ds = 0x10 ∧ p'.seg .es = 0x10 ∧ p'.eflags = p.eflags &&& ~~~0x400#32 ∧
      p'.reg .esp = p.reg .esp - 56 ∧ SameBut (p'.reg .esp) (4 * (n + 14)) c.mem p'.mem ∧
      Stack p' (ret :: (p.reg .esp - 48) :: p.reg .edi :: p.reg .esi :: p.reg .ebp ::
        (p.reg .esp - 16) :: p.reg .ebx :: p.reg .edx :: p.reg .ecx :: p.reg .eax ::
        (savedSegs p).reverse ++ ws) := by
  obtain ⟨ret, hcode, hrun⟩ := CodeAt.run_next
    ([.pushSeg .ds, .pushSeg .es, .pushSeg .fs, .pushSeg .gs, .pushal] ++ kernelRegs ++
      [.pushl (.reg .esp)]) (.call im.intrHandler) [.addl 4 .esp] im.intrEntry_code rfl he
  -- The segment registers, then the general ones.
  have hp₁ := pushes_pushed (savedSegs p) p (by simp [savedSegs])
  have hs₁ := hst.pushes (savedSegs p) (by simp [savedSegs]; omega)
  have hseg₁ := (Cpu.pushes_else p (savedSegs p))
  have hexec₁ : [.pushSeg .ds, .pushSeg .es, .pushSeg .fs, .pushSeg .gs].foldl exec p =
      (savedSegs p).foldl Cpu.push p := rfl
  generalize (savedSegs p).foldl Cpu.push p = p₁ at *
  have hp₂ := pushes_pushed (allRegs.map p₁.reg) p₁ (by simp [allRegs])
  have hs₂ := hs₁.pushes (allRegs.map p₁.reg) (by simp [allRegs, savedSegs]; omega)
  have hseg₂ := Cpu.pushes_else p₁ (allRegs.map p₁.reg)
  have hexec₂ : exec p₁ .pushal = (allRegs.map p₁.reg).foldl Cpu.push p₁ := rfl
  generalize (allRegs.map p₁.reg).foldl Cpu.push p₁ = p₂ at *
  have hesp₁ : p₁.reg .esp = p.reg .esp - 16 := hp₁.esp
  have hesp₂ : p₂.reg .esp = p.reg .esp - 48 := by
    have : p₂.reg .esp = p₁.reg .esp - 32 := hp₂.esp
    bv_omega
  have hexec₀ : [Instr.pushSeg .ds, .pushSeg .es, .pushSeg .fs, .pushSeg .gs, .pushal].foldl exec p =
      p₂ := by
    simp only [List.foldl_cons, List.foldl_nil] at hexec₁ ⊢
    rw [hexec₁, hexec₂]
  have hexec : ([Instr.pushSeg .ds, .pushSeg .es, .pushSeg .fs, .pushSeg .gs, .pushal] ++ kernelRegs ++
      [Instr.pushl (.reg .esp)]).foldl exec p =
        (kernelRegs.foldl exec p₂).push ((kernelRegs.foldl exec p₂).reg .esp) := by
    rw [List.foldl_append, List.foldl_append, hexec₀, List.foldl_cons, List.foldl_nil]
    rfl
  rw [hexec] at hrun
  have hs₃ : Stack (kernelRegs.foldl exec p₂)
      ((allRegs.map p₁.reg).reverse ++ ((savedSegs p).reverse ++ ws)) := by
    unfold Stack
    rw [kernelRegs_mem, kernelRegs_esp]
    exact hs₂
  have hesp₃ := kernelRegs_esp p₂
  have hmem₃ := kernelRegs_mem p₂
  have hseg₃ := kernelRegs_seg p₂
  have hfl₃ := kernelRegs_eflags p₂
  generalize kernelRegs.foldl exec p₂ = p₃ at *
  have hlen : ((allRegs.map p₁.reg).reverse ++ ((savedSegs p).reverse ++ ws)).length = ws.length + 12 := by
    simp [allRegs, savedSegs]
  have hregs : allRegs.map p₁.reg = [p.reg .eax, p.reg .ecx, p.reg .edx, p.reg .ebx, p.reg .esp - 16,
      p.reg .ebp, p.reg .esi, p.reg .edi] := by
    simp [allRegs, hesp₁, hp₁.reg]
  -- The address of the frame and the return address.
  have hs₄ := (hs₃.push (by rw [hlen]; omega) (p₃.reg .esp)).push (by rw [List.length_cons, hlen]; omega) ret
  have hp₄ := pushes_pushed [p₃.reg .esp, ret] p₃ (by simp)
  have hseg₄ := Cpu.pushes_else p₃ [p₃.reg .esp, ret]
  have hlast : exec { p₃.push (p₃.reg .esp) with eip := ret } (.call im.intrHandler) =
      { [p₃.reg .esp, ret].foldl Cpu.push p₃ with eip := im.intrHandler } := rfl
  rw [hlast] at hrun
  rw [show (p₃.push (p₃.reg .esp)).push ret = [p₃.reg .esp, ret].foldl Cpu.push p₃ by rfl] at hs₄
  generalize hp₄' : [p₃.reg .esp, ret].foldl Cpu.push p₃ = p₄ at *
  have hesp₄ : p₄.reg .esp = p.reg .esp - 56 := by
    have : p₄.reg .esp = p₃.reg .esp - 8 := hp₄.esp
    rw [this, hesp₃, hesp₂]
    bv_omega
  have hmem : SameBut (p₄.reg .esp) (4 * (n + 14)) c.mem p₄.mem := by
    have h₁ : SameBut (p₁.reg .esp) 16 p.mem p₁.mem := hp₁.mem
    have h₂ : SameBut (p₂.reg .esp) 32 p₁.mem p₂.mem := hp₂.mem
    have h₄ : SameBut (p₄.reg .esp) 8 p₃.mem p₄.mem := hp₄.mem
    rw [hmem₃] at h₄
    exact (((hp.mem.mono (by bv_omega)).trans (h₁.mono (by bv_omega))).trans
      (h₂.mono (by bv_omega))).trans (h₄.mono (by bv_omega))
  have hsegs : p₄.seg = Function.update (Function.update p.seg .ds 0x10) .es 0x10 := by
    rw [hseg₄.1, hseg₃, hseg₂.1, hseg₁.1]
  rw [hregs, hesp₃, hesp₂] at hs₄
  exact ⟨_, ret, hcode, hrun, rfl, congrFun hsegs .cs, congrFun hsegs .ss, congrFun hsegs .ds,
    congrFun hsegs .es, by rw [hseg₄.2.2, hfl₃, hseg₂.2.2, hseg₁.2.2], hesp₄, hmem, hs₄⟩

/-- The words are the same whether the processor pushes an error code or the stub a zero. -/
theorem stub_run (im : Image) (c : Cpu) {g : Gate} {err : Option Word} (tss : Tss)
    (hg : g.offset = im.intrStubs vec) (hfit : err.isSome = isReal vec) :
    ∃ p, run im.code 4 (c.deliver g tss err) = some p ∧ p.eip = im.intrEntryAt ∧
      p.seg = (c.deliver g tss err).seg ∧ p.eflags = (c.deliver g tss err).eflags ∧
      Pushed (6 + (c.outer g).length) (c.entered g tss) p ∧
      Stack p (vec.setWidth 32 :: err.getD 0 :: c.reg .ebp :: c.eip :: (c.seg .cs).setWidth 32 ::
        c.eflags :: c.outer g) := by
  have hp := c.deliver_pushed g tss err
  have hst := c.deliver_stack g tss err
  have hlen := c.delivered_length g err
  have hebp := c.deliver_reg g tss err (r := .ebp) (by decide)
  cases err with
  | none =>
    have hl : (c.delivered g none).length = 3 + (c.outer g).length := by
      simp [Cpu.delivered]
      omega
    rw [hl] at hp hlen
    obtain ⟨p, hrun, he, hseg, hfl, hp, hs⟩ := stub_zero hfit.symm hg hst (by omega) hp (by omega)
    rw [hebp] at hs
    exact ⟨p, hrun, he, hseg, hfl, by rwa [show 6 + (c.outer g).length = 3 + (c.outer g).length + 3 by omega], hs⟩
  | some e =>
    have hl : (c.delivered g (some e)).length = 4 + (c.outer g).length := by
      simp [Cpu.delivered]
      omega
    rw [hl] at hp hlen
    obtain ⟨p, hrun, he, hseg, hfl, hp, hs⟩ := stub_real hfit.symm hg hst
      (by simp only [List.append_eq, List.nil_append, List.length_append, List.length_cons, List.length_nil]; omega)
      hp (by omega) (by omega)
    rw [hebp] at hs
    exact ⟨p, hrun, he, hseg, hfl, by rwa [show 6 + (c.outer g).length = 4 + (c.outer g).length + 2 by omega], hs⟩

/-- The stub and `intr_entry`: `intr_handler` is called with the address of a frame that holds what
was interrupted. -/
theorem enter_run (im : Image) (c : Cpu) {g : Gate} {err : Option Word} (tss : Tss)
    (hg : g.offset = im.intrStubs vec) (hfit : err.isSome = isReal vec) :
    ∃ p ret, CodeAt im.code ret [.addl 4 .esp] im.intrExitAt ∧
      run im.code 16 (c.deliver g tss err) = some p ∧ p.eip = im.intrHandler ∧
      p.seg .cs = g.selector ∧ p.seg .ss = (c.entered g tss).seg .ss ∧
      p.seg .ds = 0x10 ∧ p.seg .es = 0x10 ∧
      p.eflags = c.eflags &&& ~~~Cpu.clearedFlags g.trap &&& ~~~0x400#32 ∧
      p.reg .esp = (c.entered g tss).reg .esp - (BitVec.ofNat 32 (80 + 4 * (c.outer g).length) : Word) ∧
      SameBut (p.reg .esp) (80 + 4 * (c.outer g).length) c.mem p.mem ∧
      Stack p (ret :: (p.reg .esp + 8) :: (IntrFrame.of c vec err (p.reg .esp + 8)).words ++ c.outer g) := by
  obtain ⟨p₀, hrun₀, he, hseg, hfl, hp, hs⟩ := stub_run im c tss hg hfit
  have hlen : (c.outer g).length ≤ 2 := by
    unfold Cpu.outer
    split <;> simp
  obtain ⟨p, ret, hcode, hrun, hip, hcs, hss, hds, hes, hfl', hesp, hmem, hst⟩ :=
    intrEntry_run he hs (by simp only [List.length_cons]; omega) hp (by omega)
  have hreg : ∀ r ≠ Reg.esp, p₀.reg r = c.reg r := fun r hr =>
    (hp.reg r hr).trans (c.entered_reg g tss hr)
  have hsegs : savedSegs p₀ = savedSegs c := by
    simp only [savedSegs, List.map_cons, List.map_nil, hseg]
    rw [c.deliver_seg g tss err (s := .ds) (by decide) (by decide),
      c.deliver_seg g tss err (s := .es) (by decide) (by decide),
      c.deliver_seg g tss err (s := .fs) (by decide) (by decide),
      c.deliver_seg g tss err (s := .gs) (by decide) (by decide)]
  have hesp₀ : p₀.reg .esp = p.reg .esp + 56 := by bv_omega
  refine ⟨p, ret, hcode, ?_, hip, ?_, ?_, hds, hes, ?_, ?_, ?_, ?_⟩
  · rw [show (16 : Nat) = 4 + 12 by rfl, run_add, hrun₀]
    exact hrun
  · exact hcs.trans ((congrFun hseg .cs).trans (c.deliver_cs g tss err))
  · exact hss.trans ((congrFun hseg .ss).trans (c.deliver_ss g tss err))
  · rw [hfl', hfl]
    rfl
  · have := hp.esp
    bv_omega
  · rw [c.entered_mem, show 4 * (6 + (c.outer g).length + 14) = 80 + 4 * (c.outer g).length by omega]
      at hmem
    exact hmem
  · have hf : p₀.reg .esp - 48 = p.reg .esp + 8 := by bv_omega
    have hd : p₀.reg .esp - 16 = p.reg .esp + 8 + 32 := by bv_omega
    rw [hsegs, hf, hd, hreg .edi (by decide), hreg .esi (by decide), hreg .ebp (by decide),
      hreg .ebx (by decide), hreg .edx (by decide), hreg .ecx (by decide),
      hreg .eax (by decide)] at hst
    exact hst

end

/-! ## Exit -/

section

variable {im : Image} {c q : Cpu} {f : IntrFrame} {ws : List Word}

/-- `popal` takes the registers off that `pushal` has put there, but for the stack pointer. -/
theorem popal_exec {di si bp d bx dx cx ax : Word}
    (h : Stack c (di :: si :: bp :: d :: bx :: dx :: cx :: ax :: ws)) :
    ∃ q, exec c .popal = q ∧ q.reg .edi = di ∧ q.reg .esi = si ∧ q.reg .ebp = bp ∧ q.reg .ebx = bx ∧
      q.reg .edx = dx ∧ q.reg .ecx = cx ∧ q.reg .eax = ax ∧ q.reg .esp = c.reg .esp + 32 ∧
      q.seg = c.seg ∧ q.mem = c.mem ∧ Stack q ws := by
  have hp₁ := popRegs_popped [.edi, .esi, .ebp] (by decide) c
  obtain ⟨hr₁, hs₁⟩ := Stack.popRegs [.edi, .esi, .ebp] [di, si, bp] h rfl (by decide)
    (by decide)
  generalize hq₁ : [Reg.edi, .esi, .ebp].foldl Cpu.popReg c = q₁ at *
  have hp₂ := popRegs_popped [.ebx, .edx, .ecx, .eax] (by decide) q₁.drop
  obtain ⟨hr₂, hs₂⟩ := Stack.popRegs [.ebx, .edx, .ecx, .eax] [bx, dx, cx, ax] hs₁.drop
    rfl (by decide) (by decide)
  refine ⟨_, rfl, ?_⟩
  rw [exec, hq₁]
  generalize [Reg.ebx, .edx, .ecx, .eax].foldl Cpu.popReg q₁.drop = q₂ at *
  simp only [List.map_cons, List.map_nil, List.cons.injEq, and_true] at hr₁ hr₂
  have hkeep : ∀ r ∈ [Reg.edi, .esi, .ebp], q₂.reg r = q₁.reg r := fun r hr =>
    (hp₂.reg r (by revert hr; revert r; decide) (by revert hr; revert r; decide)).trans
      (Cpu.drop_reg q₁ (by revert hr; revert r; decide))
  refine ⟨(hkeep .edi (by decide)).trans hr₁.1, (hkeep .esi (by decide)).trans hr₁.2.1,
    (hkeep .ebp (by decide)).trans hr₁.2.2, hr₂.1, hr₂.2.1, hr₂.2.2.1, hr₂.2.2.2, ?_,
    hp₂.seg.trans hp₁.seg, hp₂.mem.trans hp₁.mem, hs₂⟩
  have h₁ : q₁.reg .esp = c.reg .esp + 12 := hp₁.esp
  have h₂ : q₂.reg .esp = q₁.drop.reg .esp + 16 := hp₂.esp
  rw [h₂, Cpu.drop_esp, h₁]
  bv_omega

theorem popSegs_exec {g f e d : Word} (h : Stack c (g :: f :: e :: d :: ws)) :
    ∃ q, [.popSeg .gs, .popSeg .fs, .popSeg .es, .popSeg .ds].foldl exec c = q ∧
      q.seg .gs = g.setWidth 16 ∧ q.seg .fs = f.setWidth 16 ∧ q.seg .es = e.setWidth 16 ∧
      q.seg .ds = d.setWidth 16 ∧ q.seg .cs = c.seg .cs ∧ q.seg .ss = c.seg .ss ∧
      (∀ r ≠ Reg.esp, q.reg r = c.reg r) ∧ q.reg .esp = c.reg .esp + 16 ∧ q.mem = c.mem ∧
      Stack q ws := by
  obtain ⟨h₁, hs₁⟩ := h.popSeg .gs
  obtain ⟨h₂, hs₂⟩ := hs₁.popSeg .fs
  obtain ⟨h₃, hs₃⟩ := hs₂.popSeg .es
  obtain ⟨h₄, hs₄⟩ := hs₃.popSeg .ds
  rw [h₃, h₂, h₁] at h₄
  refine ⟨_, rfl, congrFun h₄ .gs, congrFun h₄ .fs, congrFun h₄ .es, congrFun h₄ .ds,
    congrFun h₄ .cs, congrFun h₄ .ss, fun r hr => ?_, ?_, rfl, hs₄⟩
  · simp only [List.foldl_cons, List.foldl_nil, exec, popSeg_reg, Cpu.drop_reg _ hr]
  · simp only [List.foldl_cons, List.foldl_nil, exec, popSeg_reg, Cpu.drop_esp]
    bv_omega

/-- `intr_exit` up to its `iret`. -/
theorem exit_pops (h : Stack c (f.words ++ ws)) :
    ∃ q, intrExit.dropLast.foldl exec c = q ∧ q.reg .edi = f.edi ∧ q.reg .esi = f.esi ∧
      q.reg .ebp = f.ebp ∧ q.reg .ebx = f.ebx ∧ q.reg .edx = f.edx ∧ q.reg .ecx = f.ecx ∧
      q.reg .eax = f.eax ∧ q.reg .esp = c.reg .esp + 60 ∧ q.seg .gs = f.gs.setWidth 16 ∧
      q.seg .fs = f.fs.setWidth 16 ∧ q.seg .es = f.es.setWidth 16 ∧ q.seg .ds = f.ds.setWidth 16 ∧
      q.seg .cs = c.seg .cs ∧ q.seg .ss = c.seg .ss ∧ q.mem = c.mem ∧
      Stack q (f.eip :: f.cs :: f.eflags :: ws) := by
  obtain ⟨q₁, hq₁, hdi, hsi, hbp, hbx, hdx, hcx, hax, hsp, hseg, hmem, hs₁⟩ := popal_exec h
  obtain ⟨q₂, hq₂, hgs, hfs, hes, hds, hcs, hss, hreg, hsp₂, hmem₂, hs₂⟩ := popSegs_exec hs₁
  have hs₃ : Stack (exec q₂ (.addl 12 .esp)) (f.eip :: f.cs :: f.eflags :: ws) :=
    hs₂.addl [f.vecNo, f.errorCode, f.framePointer]
  have hreg₃ : ∀ r ≠ Reg.esp, (exec q₂ (.addl 12 .esp)).reg r = q₁.reg r := fun r hr =>
    (Cpu.set_of_ne q₂ _ hr).trans (hreg r hr)
  refine ⟨exec q₂ (.addl 12 .esp), ?_, ?_⟩
  · have hq₁ : [Instr.popal].foldl exec c = q₁ := by
      rw [List.foldl_cons, List.foldl_nil, hq₁]
    rw [show intrExit.dropLast = [.popal] ++ [.popSeg .gs, .popSeg .fs, .popSeg .es, .popSeg .ds] ++
      [.addl 12 .esp] by rfl, List.foldl_append, List.foldl_append, hq₁, hq₂]
    rfl
  · have hesp : (exec q₂ (.addl 12 .esp)).reg .esp = c.reg .esp + 60 := by
      rw [addl_esp, hsp₂, hsp]
      bv_omega
    exact ⟨(hreg₃ .edi (by decide)).trans hdi, (hreg₃ .esi (by decide)).trans hsi,
      (hreg₃ .ebp (by decide)).trans hbp, (hreg₃ .ebx (by decide)).trans hbx,
      (hreg₃ .edx (by decide)).trans hdx, (hreg₃ .ecx (by decide)).trans hcx,
      (hreg₃ .eax (by decide)).trans hax, hesp, hgs, hfs, hes, hds, hcs.trans (congrFun hseg .cs),
      hss.trans (congrFun hseg .ss), hmem₂.trans hmem, hs₃⟩

/-- `intr_exit` up to the `iret`. -/
theorem intrExit_run (he : c.eip = im.intrExitAt) (hst : Stack c (f.words ++ ws)) :
    ∃ q, run im.code 7 c = some q.iret ∧ q.reg .edi = f.edi ∧ q.reg .esi = f.esi ∧
      q.reg .ebp = f.ebp ∧ q.reg .ebx = f.ebx ∧ q.reg .edx = f.edx ∧ q.reg .ecx = f.ecx ∧
      q.reg .eax = f.eax ∧ q.reg .esp = c.reg .esp + 60 ∧ q.seg .gs = f.gs.setWidth 16 ∧
      q.seg .fs = f.fs.setWidth 16 ∧ q.seg .es = f.es.setWidth 16 ∧ q.seg .ds = f.ds.setWidth 16 ∧
      q.seg .cs = c.seg .cs ∧ q.seg .ss = c.seg .ss ∧ q.mem = c.mem ∧
      Stack q (f.eip :: f.cs :: f.eflags :: ws) := by
  obtain ⟨b, hexit⟩ := im.intrExit_code
  obtain ⟨nxt, -, hrun⟩ := CodeAt.run_next intrExit.dropLast .iret [] hexit rfl he
  obtain ⟨q, hq, hregs⟩ := exit_pops hst
  rw [hq] at hrun
  exact ⟨{ q with eip := nxt }, hrun, hregs⟩

theorem drop3_reg (q : Cpu) {r : Reg} (h : r ≠ .esp) : q.drop.drop.drop.reg r = q.reg r := by
  rw [Cpu.drop_reg _ h, Cpu.drop_reg _ h, Cpu.drop_reg _ h]

theorem drop3_esp (q : Cpu) : q.drop.drop.drop.reg .esp = q.reg .esp + 12 := by
  rw [Cpu.drop_esp, Cpu.drop_esp, Cpu.drop_esp]
  bv_omega

/-- `intr_exit` within the kernel. -/
theorem intrExit_inner (he : c.eip = im.intrExitAt) (hst : Stack c (f.words ++ ws))
    (hcs : ¬ c.cpl < Cpu.rpl (f.cs.setWidth 16)) :
    run im.code 7 c = some (f.resume c.mem (c.reg .esp + 72) (c.seg .ss)) := by
  obtain ⟨q, hrun, hdi, hsi, hbp, hbx, hdx, hcx, hax, hsp, hgs, hfs, hes, hds, hqcs, hss, hmem, hs⟩ :=
    intrExit_run he hst
  rw [hrun, hs.iret_inner (by rwa [Cpu.cpl, hqcs])]
  refine congrArg some (IntrFrame.eq_resume (fun r hr => ?_) ?_ (fun s hs => ?_) hss rfl rfl hmem)
  · refine (drop3_reg q hr).trans ?_
    cases r <;> first | exact absurd rfl hr | assumption
  · refine (drop3_esp q).trans ?_
    rw [hsp]
    bv_omega
  · cases s <;> first | exact absurd rfl hs | assumption | rfl

/-- `intr_exit` to a user program. -/
theorem intrExit_outer {sp ss : Word} (he : c.eip = im.intrExitAt) (hst : Stack c (f.words ++ [sp, ss]))
    (hcs : c.cpl < Cpu.rpl (f.cs.setWidth 16)) :
    run im.code 7 c = some (f.resume c.mem sp (ss.setWidth 16)) := by
  obtain ⟨q, hrun, hdi, hsi, hbp, hbx, hdx, hcx, hax, hsp, hgs, hfs, hes, hds, hqcs, hss, hmem, hs⟩ :=
    intrExit_run he hst
  rw [hrun, hs.iret_outer (by rwa [Cpu.cpl, hqcs])]
  refine congrArg some (IntrFrame.eq_resume (fun r hr => ?_) rfl (fun s hs => ?_) rfl rfl rfl hmem)
  · refine (Cpu.set_of_ne _ _ hr).trans ((drop3_reg q hr).trans ?_)
    cases r <;> first | exact absurd rfl hr | assumption
  · cases s <;> first | exact absurd rfl hs | assumption | rfl

section

variable {ret arg : Word} (hcode : CodeAt im.code ret [.addl 4 .esp] im.intrExitAt) (he : c.eip = ret)

include hcode he

/-- The return of `intr_handler`, which may have used the word that was its argument. -/
theorem return_run : run im.code 8 c = run im.code 7 { exec c (.addl 4 .esp) with eip := im.intrExitAt } := by
  rw [show (8 : Nat) = [Instr.addl 4 .esp].length + 7 by rfl, run_add, hcode.run rfl he]
  rfl

/-- The way back within the kernel. -/
theorem exit_inner (hst : Stack c (arg :: f.words ++ ws))
    (hcs : ¬ c.cpl < Cpu.rpl (f.cs.setWidth 16)) :
    run im.code 8 c = some (f.resume c.mem (c.reg .esp + 76) (c.seg .ss)) := by
  have hst' : Stack (exec c (.addl 4 .esp)) (f.words ++ ws) := hst.addl [arg]
  have hesp := addl_esp c 4
  rw [return_run hcode he,
    intrExit_inner (c := { exec c (.addl 4 .esp) with eip := im.intrExitAt }) rfl hst' hcs]
  show some (f.resume c.mem ((exec c (.addl 4 .esp)).reg .esp + 72) (c.seg .ss)) = _
  rw [hesp, show c.reg .esp + 4 + 72 = c.reg .esp + 76 by bv_omega]

/-- The way back to a user program. -/
theorem exit_outer {sp ss : Word} (hst : Stack c (arg :: f.words ++ [sp, ss]))
    (hcs : c.cpl < Cpu.rpl (f.cs.setWidth 16)) :
    run im.code 8 c = some (f.resume c.mem sp (ss.setWidth 16)) := by
  have hst' : Stack (exec c (.addl 4 .esp)) (f.words ++ [sp, ss]) := hst.addl [arg]
  rw [return_run hcode he]
  exact intrExit_outer (c := { exec c (.addl 4 .esp) with eip := im.intrExitAt }) rfl hst' hcs

end

end

/-! ## There and back -/

/-- The stubs and `intr_entry` have called `intr_handler` with the address of a frame of `c`, and
have written nothing but the stack on which they run. -/
structure Entered (im : Image) (c : Cpu) (g : Gate) (tss : Tss) (f : IntrFrame) (p : Cpu)
    (ret : Word) : Prop where
  eip : p.eip = im.intrHandler
  ds : p.seg .ds = 0x10
  es : p.seg .es = 0x10
  eflags : p.eflags = c.eflags &&& ~~~Cpu.clearedFlags g.trap &&& ~~~0x400#32
  mem : SameBut (p.reg .esp) (80 + 4 * (c.outer g).length) c.mem p.mem
  esp : p.reg .esp =
    (c.entered g tss).reg .esp - (BitVec.ofNat 32 (80 + 4 * (c.outer g).length) : Word)
  stack : Stack p (ret :: (p.reg .esp + 8) :: f.words ++ c.outer g)

/-- `intr_handler`, called in `p`, has returned in `q` and left the frame `f`. -/
structure Handled (c : Cpu) (g : Gate) (p q : Cpu) (ret : Word) (f : IntrFrame) : Prop where
  eip : q.eip = ret
  esp : q.reg .esp = p.reg .esp + 4
  cs : q.seg .cs = p.seg .cs
  ss : q.seg .ss = p.seg .ss
  stack : ∃ arg, Stack q (arg :: f.words ++ c.outer g)

/-- To the handler, and from its return on. -/
theorem there_and_back (im : Image) (c : Cpu) (vec : BitVec 8) {g : Gate} {err : Option Word}
    (tss : Tss) (hg : g.offset = im.intrStubs vec) (hfit : err.isSome = isReal vec) :
    ∃ p ret, run im.code 16 (c.deliver g tss err) = some p ∧
      Entered im c g tss (IntrFrame.of c vec err (p.reg .esp + 8)) p ret ∧
      ∀ q f, Handled c g p q ret f → f.cs.setWidth 16 = c.seg .cs →
        run im.code 8 q = some (f.resume q.mem (c.reg .esp) (c.seg .ss)) := by
  obtain ⟨p, ret, hcode, hrun, hip, hcs, hss, hds, hes, hfl, hesp, hmem, hst⟩ :=
    enter_run im c tss hg hfit
  refine ⟨p, ret, hrun, ⟨hip, hds, hes, hfl, hmem, hesp, hst⟩, fun q f hq hf => ?_⟩
  obtain ⟨arg, hqs⟩ := hq.stack
  have hcpl : q.cpl = Cpu.rpl g.selector := by rw [Cpu.cpl, hq.cs, hcs]
  have hcpl' : Cpu.rpl (f.cs.setWidth 16) = c.cpl := by rw [hf, Cpu.cpl]
  have hqe := hq.esp
  by_cases hin : Cpu.rpl g.selector < c.cpl
  · rw [Cpu.outer, if_pos (by simpa [Cpu.inward] using hin)] at hqs
    have h := exit_outer hcode hq.eip hqs (by rwa [hcpl, hcpl'])
    rwa [setWidth_seg] at h
  · have hin' : c.inward g = false := by simpa [Cpu.inward] using hin
    have h := exit_inner hcode hq.eip hqs (by rwa [hcpl, hcpl'])
    rw [Cpu.outer, Cpu.entered, hin'] at hesp
    rw [Cpu.entered, hin'] at hss
    have hsp : q.reg .esp + 76 = c.reg .esp := by
      have hesp : p.reg .esp = c.reg .esp - 80 := hesp
      bv_omega
    rw [hsp, hq.ss, hss] at h
    exact h

/-- The stubs 16 addresses apart, and after them `intr_entry` and `intr_exit`. -/
def codeExample : Code := fun x =>
  let o := (x - 0xc0100000).toNat
  if o < 4096 then (stub 0xc0101000 (BitVec.ofNat 8 (o / 16)))[o % 16]?.map fun i => (i, x + 1)
  else (placed 0xc0101000 (intrEntry 0xc0102000) x).or (placed 0xc010100d intrExit x)

theorem stub_codeExample (vec : BitVec 8) :
    ∃ b, CodeAt codeExample (0xc0100000 + BitVec.ofNat 32 (16 * vec.toNat)) (stub 0xc0101000 vec) b := by
  refine ⟨_, codeAt_of_get fun k hk => ?_⟩
  have hl : (stub 0xc0101000 vec).length = 4 := by
    unfold stub
    split <;> rfl
  have hv := vec.isLt
  have ho : (0xc0100000 + BitVec.ofNat 32 (16 * vec.toNat) + BitVec.ofNat 32 k - 0xc0100000 : Word).toNat =
      16 * vec.toNat + k := by bv_omega
  have hdiv : (16 * vec.toNat + k) / 16 = vec.toNat := by omega
  have hmod : (16 * vec.toNat + k) % 16 = k := by omega
  unfold codeExample
  simp only [ho]
  rw [if_pos (by omega), hdiv, hmod, BitVec.ofNat_toNat, BitVec.setWidth_eq,
    List.getElem?_eq_getElem hk, Option.map_some]

def imageExample : Image where
  code := codeExample
  intrStubs vec := 0xc0100000 + BitVec.ofNat 32 (16 * vec.toNat)
  intrEntryAt := 0xc0101000
  intrExitAt := 0xc010100d
  intrHandler := 0xc0102000
  stub_code := stub_codeExample
  intrEntry_code := ⟨_, rfl, _, rfl, _, rfl, _, rfl, _, rfl, _, rfl, _, rfl, _, rfl, _, rfl, _, rfl, _, rfl,
    _, rfl, _, rfl, rfl⟩
  intrExit_code := ⟨_, _, rfl, _, rfl, _, rfl, _, rfl, _, rfl, _, rfl, _, rfl, rfl⟩

/-- The exceptions for which the processor pushes an error code. -/
def pushesError (vec : BitVec 8) : Bool :=
  [0x08, 0x0a, 0x0b, 0x0c, 0x0d, 0x0e, 0x11].contains vec

/-- For the vector `intr_handler` always finds a frame of what was interrupted. -/
def FrameExact (im : Image) (vec : BitVec 8) : Prop :=
  ∀ (c : Cpu) (g : Gate) (tss : Tss) (err : Option Word), g.offset = im.intrStubs vec →
    err.isSome = pushesError vec → ∃ p ret, run im.code 16 (c.deliver g tss err) = some p ∧
      Stack p (ret :: (p.reg .esp + 8) :: (IntrFrame.of c vec err (p.reg .esp + 8)).words ++ c.outer g)

section

variable {im : Image} {c p : Cpu} {vec : BitVec 8} {x y z w : Word} {ws : List Word}

/-- What stands below the words of the stub is where `intr_handler` looks for `eip`. -/
theorem entry_eip {n : Nat} (he : p.eip = im.intrEntryAt) (hst : Stack p (x :: y :: z :: w :: ws))
    (hw : ws.length ≤ 5) (hp : Pushed n c p) (hn : n ≤ 10) :
    ∃ p' vs, run im.code 12 p = some p' ∧ vs.length = 17 ∧ Stack p' (vs ++ [w]) := by
  obtain ⟨p', ret, -, hrun, -, -, -, -, -, -, -, -, hst⟩ := intrEntry_run he hst
    (by simp only [List.length_cons]; omega) hp (by omega)
  refine ⟨p', [ret, p.reg .esp - 48, p.reg .edi, p.reg .esi, p.reg .ebp, p.reg .esp - 16, p.reg .ebx,
    p.reg .edx, p.reg .ecx, p.reg .eax] ++ (savedSegs p).reverse ++ [x, y, z], hrun, rfl, ?_⟩
  exact ((words_append [_, _, _, _, _, _, _, _, _, _, _, _, _, _, _, _, _, w]).mp hst).1

/-- So it has to be the address that was interrupted. -/
theorem eip_eq {ret a : Word} {vs : List Word} {f : IntrFrame} (hst : Stack p (vs ++ [w]))
    (hl : vs.length = 17) (hst' : Stack p (ret :: a :: f.words ++ ws)) : w = f.eip := by
  have h₁ : Stack p (ret :: a :: (f.words.take 16)) :=
    ((words_append (ret :: a :: f.words.take 16) ).mp hst').1
  have h := Words.inj hst h₁ (by simp [hl, IntrFrame.words])
  have := congrArg (·[17]?) h
  simpa [hl, IntrFrame.words] using this

end

theorem isReal_eq_pushesError_iff (vec : BitVec 8) :
    isReal vec = pushesError vec ↔ vec ∉ [0x0c#8, 0x18#8, 0x1a#8, 0x1b#8, 0x1d#8, 0x1e#8] := by
  revert vec
  decide

/-- **The frame is exact for the vectors whose stub is of the right type**, which that of the stack
fault is not. For the others the handler does not even find the address that was interrupted. -/
theorem frameExact_iff (im : Image) (vec : BitVec 8) :
    FrameExact im vec ↔ vec ∉ [0x0c#8, 0x18#8, 0x1a#8, 0x1b#8, 0x1d#8, 0x1e#8] := by
  rw [← isReal_eq_pushesError_iff]
  constructor
  · intro h
    by_contra hne
    -- The two ways of being wrong: an error code is left on the stack, or one is taken that is not there.
    let c : Cpu := ⟨fun _ => 0, fun _ => 0, 1, 0, fun _ => 0⟩
    let g : Gate := ⟨im.intrStubs vec, 0, 0, false⟩
    let tss : Tss := ⟨0, 0⟩
    cases hr : isReal vec with
    | false =>
      have herr : pushesError vec = true := by simpa [hr] using hne
      obtain ⟨p, ret, hrun, hst⟩ := h c g tss (some 2) rfl herr.symm
      have hlen := c.delivered_length g (some 2)
      obtain ⟨p₀, hrun₀, he, -, -, hp, hs⟩ := stub_zero hr (show (c.deliver g tss (some 2)).eip = im.intrStubs vec by rfl)
        (c.deliver_stack g tss (some 2)) (by omega) (c.deliver_pushed g tss (some 2)) (by omega)
      obtain ⟨p', vs, hrun', hl, hst'⟩ := entry_eip he
        (show Stack p₀ (_ :: _ :: _ :: 2 :: [1, 0, 0]) from hs) (by decide) hp (by omega)
      rw [show (16 : Nat) = 4 + 12 by rfl, run_add, hrun₀, Option.bind_some, hrun'] at hrun
      obtain rfl := Option.some.inj hrun
      exact absurd (eip_eq hst' hl hst) (show (2 : Word) ≠ 1 by decide)
    | true =>
      have herr : pushesError vec = false := by simpa [hr] using hne
      obtain ⟨p, ret, hrun, hst⟩ := h c g tss none rfl herr.symm
      have hlen := c.delivered_length g none
      obtain ⟨p₀, hrun₀, he, -, -, hp, hs⟩ := stub_real hr
        (show (c.deliver g tss none).eip = im.intrStubs vec by rfl)
        (show Stack (c.deliver g tss none) (1 :: [0, 0]) from c.deliver_stack g tss none) (by decide) (c.deliver_pushed g tss none) (Nat.succ_pos _)
        (by omega)
      obtain ⟨p', vs, hrun', hl, hst'⟩ := entry_eip he (show Stack p₀ (_ :: _ :: _ :: 0 :: [0]) from hs)
        (by decide) hp (by omega)
      rw [show (16 : Nat) = 4 + 12 by rfl, run_add, hrun₀, Option.bind_some, hrun'] at hrun
      obtain rfl := Option.some.inj hrun
      exact absurd (eip_eq hst' hl hst) (show (0 : Word) ≠ 1 by decide)
  · intro h c g tss err hg herr
    obtain ⟨p, ret, -, hrun, -, -, -, -, -, -, -, -, hst⟩ := enter_run im c tss hg (herr.trans h.symm)
    exact ⟨p, ret, hrun, hst⟩

end Pintos.Threads.Intr
