import Pintos.Base.Reach
import Pintos.Kernel.Bitmap
import Mathlib.Algebra.Order.Ring.Int
import Mathlib.Logic.Function.Basic

/-!
# The descriptor table of a process (userprog/syscall.c, threads/thread.c)

`fd_bitmap` and `file_names` of `struct thread`, and the cases `SYS_OPEN`,
`SYS_CLOSE`, `SYS_READ` and `SYS_WRITE` of `syscall_handler` past their argument
checks. The file system answers an open with a handle or a null pointer; a handle
is fresh memory from `calloc`, so it is none of those the process has open.

The open case flips the bit before it knows whether the file exists, and does not
flip it back. `table_ok_iff` shows that this is the only way the table goes wrong.
-/

namespace Pintos.Userprog

open Pintos.Base Pintos.Kernel

/-- A `struct file *` other than the null pointer. -/
abbrev Handle := Nat

/-- `file_map_size`. -/
def fileMapSize : Nat := 128

structure Fds where
  /-- `fd_bitmap` -/
  bitmap : Bitmap
  /-- `file_names`, with `none` for the null pointer -/
  names : Nat → Option Handle

/-- The table `thread_create` gives a thread: descriptors 0 and 1 taken. -/
def fdsCreate : Fds where
  bitmap := bitmapSetMultiple (bitmapCreate fileMapSize) 0 2 true
  names _ := none

/-- `fd_ok` -/
def fdOk (fd : Int) (map : Bitmap) : Bool :=
  decide (fd < (bitmapSize map : Int)) && decide (0 ≤ fd) && bitmapTest map fd.toNat

/-- The case `SYS_OPEN`: the new table and the value returned, given what
`filesys_open` answers. It is not called when the bitmap is full. -/
def sysOpen (s : Fds) (filesysOpen : Option Handle) : Fds × Int :=
  match bitmapScanAndFlip s.bitmap 0 1 false with
  | (none, _) => (s, -1)
  | (some fd, map) =>
    match filesysOpen with
    | none => ({ s with bitmap := map }, -1)
    | some h => ({ bitmap := map, names := Function.update s.names fd (some h) }, fd)

/-- The case `SYS_CLOSE`: the new table and the pointer given to `file_close`. -/
def sysClose (s : Fds) (fd : Int) : Fds × Option Handle :=
  if fdOk fd s.bitmap then
    ({ bitmap := bitmapSet s.bitmap fd.toNat false
       names := Function.update s.names fd.toNat none }, s.names fd.toNat)
  else (s, none)

/-- Where a read or a write goes. -/
inductive Target where
  | console
  /-- `file_read` or `file_write` on this pointer -/
  | file (h : Option Handle)
  /-- The call returns -1. -/
  | invalid
  deriving DecidableEq, Repr

/-- The descriptor tests of the case `SYS_READ`. -/
def sysRead (s : Fds) (fd : Int) : Target :=
  if fd = 0 then .console
  else if fd ≠ 1 ∧ fdOk fd s.bitmap then .file (s.names fd.toNat)
  else .invalid

/-- The descriptor tests of the case `SYS_WRITE`. -/
def sysWrite (s : Fds) (fd : Int) : Target :=
  if fd = 1 then .console
  else if fd = 0 ∨ ¬ fdOk fd s.bitmap then .invalid
  else .file (s.names fd.toNat)

theorem fdOk_iff {fd : Int} {map : Bitmap} :
    fdOk fd map = true ↔ ∃ n < bitmapSize map, fd = n ∧ bitmapTest map n = true := by
  simp only [fdOk, Bool.and_eq_true, decide_eq_true_eq]
  constructor
  · rintro ⟨⟨h1, h2⟩, h3⟩
    exact ⟨fd.toNat, by omega, by omega, h3⟩
  · rintro ⟨n, h1, rfl, h3⟩
    exact ⟨⟨by omega, by omega⟩, by simpa using h3⟩

/-! ## Runs of a process -/

structure Table where
  fds : Fds
  /-- The handles the process has opened and not yet closed. -/
  opened : List Handle

def Table.init : Table := { fds := fdsCreate, opened := [] }

inductive FdCall where
  /-- `SYS_OPEN`, answered by `filesys_open` -/
  | open (r : Option Handle)
  | close (fd : Int)
  | read (fd : Int)
  | write (fd : Int)
  deriving DecidableEq, Repr

/-- One system call. A handle from `filesys_open` is not one in use. -/
def fdStep (s : Table) : FdCall → Option Table
  | .open r =>
    if (∃ h ∈ s.opened, r = some h) then none
    else
      let (fds, ret) := sysOpen s.fds r
      some { fds, opened := if ret = -1 then s.opened else r.toList ++ s.opened }
  | .close fd =>
    let (fds, h) := sysClose s.fds fd
    some { fds, opened := h.elim s.opened s.opened.erase }
  | .read _ | .write _ => some s

/-- The bit of a descriptor from 2 on is set exactly when the descriptor holds an
open handle of the process, and no two descriptors hold the same one. -/
structure TableOk (s : Table) : Prop where
  bit_iff : ∀ fd, 2 ≤ fd → fd < fileMapSize →
    (bitmapTest s.fds.bitmap fd = true ↔ ∃ h ∈ s.opened, s.fds.names fd = some h)
  inj : ∀ fd fd' h, s.fds.names fd = some h → s.fds.names fd' = some h → fd = fd'

/-- What a call must do: keep the table in order, change nothing when an open
fails, and never hand a null pointer to `file_read` or `file_write`. -/
def CallOk (s : Table) (a : FdCall) (s' : Table) : Prop :=
  TableOk s' ∧
    (∀ r, a = .open r → (sysOpen s.fds r).2 = -1 → s'.fds = s.fds) ∧
    (∀ fd, a = .read fd → sysRead s.fds fd ≠ .file none) ∧
    (∀ fd, a = .write fd → sysWrite s.fds fd ≠ .file none)

/-- An open that finds a free descriptor finds its file too. -/
def OpenFinds (s : Table) (a : FdCall) (_ : Table) : Prop :=
  a = .open none → bitmapScan s.fds.bitmap 0 1 false = none

/-! ## The invariant -/

/-- `TableOk`, with what the standard descriptors need to keep it. -/
structure TableInv (s : Table) : Prop where
  size : bitmapSize s.fds.bitmap = fileMapSize
  named : ∀ fd h, s.fds.names fd = some h →
    fd < fileMapSize ∧ bitmapTest s.fds.bitmap fd = true ∧ h ∈ s.opened
  filled : ∀ fd, 2 ≤ fd → bitmapTest s.fds.bitmap fd = true → ∃ h, s.fds.names fd = some h
  inj : ∀ fd fd' h, s.fds.names fd = some h → s.fds.names fd' = some h → fd = fd'

theorem TableInv.ok {s : Table} (h : TableInv s) : TableOk s where
  bit_iff fd h2 _ := by
    constructor
    · intro hb
      obtain ⟨x, hx⟩ := h.filled fd h2 hb
      exact ⟨x, (h.named fd x hx).2.2, hx⟩
    · rintro ⟨x, -, hx⟩
      exact (h.named fd x hx).2.1
  inj := h.inj

theorem bitmapTest_fdsCreate (i : Nat) : bitmapTest fdsCreate.bitmap i = decide (i < 2) := by
  rw [fdsCreate, bitmapTest_setMultiple (by simp [fileMapSize])]
  simp

theorem tableInv_init : TableInv Table.init where
  size := by simp [Table.init, fdsCreate, fileMapSize]
  named fd h e := by cases e
  filled fd h2 hb := by
    rw [Table.init, bitmapTest_fdsCreate, decide_eq_true_eq] at hb
    omega
  inj fd fd' h e := by cases e

/-- A descriptor the scan finds is free. -/
theorem TableInv.scan {s : Table} (h : TableInv s) {fd : Nat}
    (hs : bitmapScan s.fds.bitmap 0 1 false = some fd) :
    fd < fileMapSize ∧ bitmapTest s.fds.bitmap fd = false ∧ s.fds.names fd = none := by
  obtain ⟨-, hlt, hbit⟩ := bitmapScan_some hs
  have hbit : bitmapTest s.fds.bitmap fd = false := by simpa using hbit 0 (by omega)
  refine ⟨by rw [← h.size]; omega, hbit, ?_⟩
  cases hn : s.fds.names fd with
  | none => rfl
  | some x => rw [(h.named fd x hn).2.1] at hbit; cases hbit

/-- The bits after an open has taken descriptor `fd`. -/
theorem TableInv.bits_open {s : Table} (h : TableInv s) {fd : Nat} (hlt : fd < fileMapSize)
    (j : Nat) : bitmapTest (bitmapSetMultiple s.fds.bitmap fd 1 true) j =
      if j = fd then true else bitmapTest s.fds.bitmap j := by
  rw [bitmapTest_setMultiple (by rw [h.size]; omega)]
  refine if_congr (by omega) rfl rfl

theorem TableInv.open {s : Table} (h : TableInv s) {fd : Nat} {x : Handle}
    (hs : bitmapScan s.fds.bitmap 0 1 false = some fd) (hx : x ∉ s.opened) :
    TableInv { fds := { bitmap := bitmapSetMultiple s.fds.bitmap fd 1 true
                        names := Function.update s.fds.names fd (some x) }
               opened := x :: s.opened } := by
  obtain ⟨hlt, -, -⟩ := h.scan hs
  refine ⟨by simpa using h.size, ?_, ?_, ?_⟩
  · intro j y hy
    rw [h.bits_open hlt]
    by_cases hj : j = fd
    · subst hj
      simp only [Function.update_self, Option.some.injEq] at hy
      subst hy
      exact ⟨hlt, by simp, List.mem_cons_self⟩
    · simp only [Function.update_of_ne hj] at hy
      obtain ⟨h1, h2, h3⟩ := h.named j y hy
      exact ⟨h1, by simp [hj, h2], List.mem_cons_of_mem _ h3⟩
  · intro j h2 hb
    rw [h.bits_open hlt] at hb
    by_cases hj : j = fd
    · exact ⟨x, by simp [hj]⟩
    · simp only [Function.update_of_ne hj]
      exact h.filled j h2 (by simpa [hj] using hb)
  · intro j j' y hy hy'
    by_cases hj : j = fd <;> by_cases hj' : j' = fd
    · rw [hj, hj']
    -- One of the two is the new handle, which no other descriptor holds.
    · subst hj
      simp only [Function.update_self, Option.some.injEq, Function.update_of_ne hj'] at hy hy'
      exact absurd (hy ▸ (h.named j' y hy').2.2) hx
    · subst hj'
      simp only [Function.update_self, Option.some.injEq, Function.update_of_ne hj] at hy hy'
      exact absurd (hy' ▸ (h.named j y hy).2.2) hx
    · simp only [Function.update_of_ne hj, Function.update_of_ne hj'] at hy hy'
      exact h.inj j j' y hy hy'

theorem TableInv.close {s : Table} (h : TableInv s) {fd : Nat} (hlt : fd < fileMapSize) :
    TableInv { fds := { bitmap := bitmapSet s.fds.bitmap fd false
                        names := Function.update s.fds.names fd none }
               opened := (s.fds.names fd).elim s.opened s.opened.erase } := by
  have hbits : ∀ j, bitmapTest (bitmapSet s.fds.bitmap fd false) j =
      if j = fd then false else bitmapTest s.fds.bitmap j := fun j =>
    bitmapTest_set (by rw [h.size]; exact hlt) false j
  refine ⟨by simpa using h.size, ?_, ?_, ?_⟩
  · intro j y hy
    by_cases hj : j = fd
    · subst hj; simp at hy
    · simp only [Function.update_of_ne hj] at hy
      obtain ⟨h1, h2, h3⟩ := h.named j y hy
      refine ⟨h1, by rw [hbits, if_neg hj]; exact h2, ?_⟩
      cases hn : s.fds.names fd with
      | none => exact h3
      | some x =>
        refine (List.mem_erase_of_ne ?_).mpr h3
        rintro rfl
        exact hj (h.inj j fd y hy hn)
  · intro j h2 hb
    by_cases hj : j = fd
    · rw [hbits, if_pos hj] at hb; cases hb
    · rw [hbits, if_neg hj] at hb
      simpa only [Function.update_of_ne hj] using h.filled j h2 hb
  · intro j j' y hy hy'
    by_cases hj : j = fd
    · subst hj; simp at hy
    by_cases hj' : j' = fd
    · subst hj'; simp at hy'
    simp only [Function.update_of_ne hj, Function.update_of_ne hj'] at hy hy'
    exact h.inj j j' y hy hy'

/-! ## The calls -/

/-- What an open does to the table, by the outcome of the scan and of `filesys_open`. -/
theorem sysOpen_cases (s : Fds) (r : Option Handle) :
    (bitmapScan s.bitmap 0 1 false = none ∧ sysOpen s r = (s, -1)) ∨
    (∃ fd, bitmapScan s.bitmap 0 1 false = some fd ∧ r = none ∧
      sysOpen s r = ({ s with bitmap := bitmapSetMultiple s.bitmap fd 1 true }, -1)) ∨
    (∃ fd x, bitmapScan s.bitmap 0 1 false = some fd ∧ r = some x ∧
      sysOpen s r = ({ bitmap := bitmapSetMultiple s.bitmap fd 1 true
                       names := Function.update s.names fd (some x) }, (fd : Int))) := by
  cases hs : bitmapScan s.bitmap 0 1 false with
  | none => exact .inl ⟨rfl, by simp [sysOpen, bitmapScanAndFlip, hs]⟩
  | some fd =>
    right
    cases r with
    | none => exact .inl ⟨fd, rfl, rfl, by simp [sysOpen, bitmapScanAndFlip, hs]⟩
    | some x => exact .inr ⟨fd, x, rfl, rfl, by simp [sysOpen, bitmapScanAndFlip, hs]⟩

theorem TableInv.step {s s' : Table} {a : FdCall} (h : TableInv s) (hs : fdStep s a = some s')
    (hok : OpenFinds s a s') : TableInv s' := by
  cases a with
  | «open» r =>
    simp only [fdStep] at hs
    split at hs
    · cases hs
    next hfresh =>
    simp only [Option.some.injEq] at hs
    subst hs
    rcases sysOpen_cases s.fds r with ⟨-, e⟩ | ⟨fd, hfd, rfl, -⟩ | ⟨fd, x, hfd, rfl, e⟩
    · simpa only [e, ↓reduceIte] using h
    · rw [hok rfl] at hfd; cases hfd
    · have hne : ¬ ((fd : Int) = -1) := by omega
      simp only [e, hne, ↓reduceIte, Option.toList_some, List.cons_append, List.nil_append]
      exact h.open hfd fun hx => hfresh ⟨x, hx, rfl⟩
  | close fd =>
    simp only [fdStep, Option.some.injEq] at hs
    subst hs
    unfold sysClose
    split
    · next hfd =>
      obtain ⟨n, hn, rfl, -⟩ := fdOk_iff.mp hfd
      exact h.close (by rw [← h.size]; exact hn)
    · exact h
  | read fd => cases hs; exact h
  | write fd => cases hs; exact h

/-- `fd_ok` admits a null handle only for the standard descriptors. -/
theorem TableInv.fdOk_names {s : Table} (h : TableInv s) {fd : Int}
    (hfd : fdOk fd s.fds.bitmap = true) (h0 : fd ≠ 0) (h1 : fd ≠ 1) :
    s.fds.names fd.toNat ≠ none := by
  obtain ⟨n, -, rfl, hb⟩ := fdOk_iff.mp hfd
  obtain ⟨x, hx⟩ := h.filled n (by omega) hb
  simp [hx]

theorem TableInv.sysRead {s : Table} (h : TableInv s) (fd : Int) :
    Userprog.sysRead s.fds fd ≠ .file none := by
  unfold Userprog.sysRead
  split
  · simp
  split
  · next h0 h1 => simpa using h.fdOk_names h1.2 h0 h1.1
  · simp

theorem TableInv.sysWrite {s : Table} (h : TableInv s) (fd : Int) :
    Userprog.sysWrite s.fds fd ≠ .file none := by
  unfold Userprog.sysWrite
  split
  · simp
  split
  · simp
  · next h1 h0 =>
    push Not at h0
    simpa using h.fdOk_names h0.2 h0.1 h1

theorem callOk_iff {s s' : Table} {a : FdCall} (h : TableInv s) (hs : fdStep s a = some s') :
    CallOk s a s' ↔ OpenFinds s a s' := by
  constructor
  · rintro ⟨-, hfail, -, -⟩ rfl
    rcases sysOpen_cases s.fds none with ⟨hsc, -⟩ | ⟨fd, hfd, -, e⟩ | ⟨_, _, _, hr, _⟩
    · exact hsc
    · -- The reserved bit was clear before the call and is set after it.
      simp only [fdStep, e, reduceCtorEq, and_false, exists_false, ↓reduceIte,
        Option.some.injEq] at hs
      have heq := hfail none rfl (by rw [e])
      subst hs
      have hmap : bitmapSetMultiple s.fds.bitmap fd 1 true = s.fds.bitmap :=
        congrArg Fds.bitmap heq
      obtain ⟨hlt, hclear, -⟩ := h.scan hfd
      have hset := h.bits_open hlt fd
      rw [hmap, hclear] at hset
      simp at hset
    · cases hr
  · intro hok
    refine ⟨(h.step hs hok).ok, ?_, fun fd _ => h.sysRead fd, fun fd _ => h.sysWrite fd⟩
    rintro r rfl hret
    simp only [fdStep] at hs
    split at hs
    · cases hs
    simp only [Option.some.injEq] at hs
    subst hs
    rcases sysOpen_cases s.fds r with ⟨-, e⟩ | ⟨fd, hfd, rfl, -⟩ | ⟨fd, x, -, -, e⟩
    · rw [e]
    · rw [hok rfl] at hfd; cases hfd
    · rw [e] at hret
      simp only at hret
      omega

/-- **The descriptor table**: in every run of opens, closes, reads and writes,
every call keeps the table in order, a failed open changes nothing and no null
handle is read or written, if and only if no open fails after it has reserved a
descriptor. -/
theorem table_ok_iff (as : List FdCall) :
    Along fdStep CallOk Table.init as ↔ Along fdStep OpenFinds Table.init as :=
  along_iff (I := TableInv) (fun _ a _ h hs => callOk_iff (a := a) h hs)
    (fun _ a _ h hs hok => h.step (a := a) hs hok) tableInv_init

/-- The first descriptor a new process is given. -/
theorem scan_fdsCreate : bitmapScan fdsCreate.bitmap 0 1 false = some 2 := by decide +kernel

/-- Opening a missing file takes descriptor 2 for good, and a read of it reaches
`file_read` with a null pointer. -/
theorem open_missing_leaks :
    ¬ Along fdStep CallOk Table.init [.open none] ∧
      ∃ s, runFrom fdStep Table.init [.open none] = some s ∧
        bitmapTest s.fds.bitmap 2 = true ∧ s.fds.names 2 = none ∧ sysRead s.fds 2 = .file none := by
  have hstep : fdStep Table.init (.open none) = some { Table.init with
      fds := { fdsCreate with bitmap := bitmapSetMultiple fdsCreate.bitmap 2 1 true } } := by
    simp [fdStep, sysOpen, bitmapScanAndFlip, Table.init, scan_fdsCreate]
  have hset : bitmapTest (bitmapSetMultiple fdsCreate.bitmap 2 1 true) 2 = true := by
    decide +kernel
  constructor
  · intro h
    obtain ⟨x, -, hx⟩ := ((h _ hstep).1.1.bit_iff 2 (by decide) (by decide)).mp hset
    cases hx
  · refine ⟨_, by rw [runFrom, hstep]; rfl, hset, rfl, ?_⟩
    decide +kernel

/-! ## The standard descriptors -/

/-- What the standard descriptors need of a call: it leaves their bits set, an open does
not return one of them but the descriptor of the file it opened, a descriptor keeps its
file until it is closed, and reads and writes go to that file. -/
structure StdOk (s : Table) (a : FdCall) (s' : Table) : Prop where
  bits : bitmapTest s'.fds.bitmap 0 = true ∧ bitmapTest s'.fds.bitmap 1 = true
  opened : ∀ r, a = .open r → (sysOpen s.fds r).2 ≠ 0 ∧ (sysOpen s.fds r).2 ≠ 1 ∧
    ((sysOpen s.fds r).2 ≠ -1 → r ≠ none ∧ s'.fds.names (sysOpen s.fds r).2.toNat = r)
  keeps : ∀ fd h, s.fds.names fd = some h → a ≠ .close fd → s'.fds.names fd = some h
  target : ∀ fd h, s'.fds.names fd = some h →
    sysRead s'.fds fd = .file (some h) ∧ sysWrite s'.fds fd = .file (some h)

/-- The call does not close a standard descriptor. -/
def NoStdClose (_ : Table) (a : FdCall) (_ : Table) : Prop := a ≠ .close 0 ∧ a ≠ .close 1

structure StdInv (s : Table) : Prop where
  size : bitmapSize s.fds.bitmap = fileMapSize
  std : ∀ fd, fd < 2 → bitmapTest s.fds.bitmap fd = true
  named : ∀ fd h, s.fds.names fd = some h →
    2 ≤ fd ∧ fd < fileMapSize ∧ bitmapTest s.fds.bitmap fd = true

theorem stdInv_init : StdInv Table.init where
  size := tableInv_init.size
  std fd h := by
    rw [Table.init, bitmapTest_fdsCreate]
    simpa using h
  named fd h e := by cases e

section

variable {s s' : Table} {a : FdCall}

/-- A file's descriptor is not a standard one, so a read or a write of it goes to the file. -/
theorem StdInv.target (hi : StdInv s) {fd : Nat} {h : Handle} (hn : s.fds.names fd = some h) :
    sysRead s.fds fd = .file (some h) ∧ sysWrite s.fds fd = .file (some h) := by
  obtain ⟨h2, hlt, hb⟩ := hi.named fd h hn
  have hok : fdOk fd s.fds.bitmap = true := fdOk_iff.mpr ⟨fd, by rw [hi.size]; exact hlt, rfl, hb⟩
  have h0 : ¬ (fd : Int) = 0 := by omega
  have h1 : ¬ (fd : Int) = 1 := by omega
  simp only [sysRead, sysWrite, h0, h1, hok, ne_eq, not_false_eq_true, and_self, not_true, or_self,
    ↓reduceIte, Int.toNat_natCast, hn]

/-- The scan finds a descriptor from 2 on, and it has no file. -/
theorem StdInv.scan (hi : StdInv s) {fd : Nat} (hs : bitmapScan s.fds.bitmap 0 1 false = some fd) :
    2 ≤ fd ∧ fd < fileMapSize ∧ s.fds.names fd = none := by
  obtain ⟨-, hlt, hbit⟩ := bitmapScan_some hs
  have hbit : bitmapTest s.fds.bitmap fd = false := by simpa using hbit 0 (by omega)
  refine ⟨?_, by rw [← hi.size]; omega, ?_⟩
  · by_contra hlt2
    rw [hi.std fd (by omega)] at hbit
    cases hbit
  · cases hn : s.fds.names fd with
    | none => rfl
    | some h =>
      rw [(hi.named fd h hn).2.2] at hbit
      cases hbit

/-- An open sets the bit of a descriptor from 2 on and may give it a file. -/
theorem StdInv.reserve (hi : StdInv s) {fd : Nat} (h2 : 2 ≤ fd) (hlt : fd < fileMapSize)
    {names : Nat → Option Handle} (hnames : ∀ j h, names j = some h → j = fd ∨ s.fds.names j = some h)
    (opened : List Handle) :
    StdInv ⟨⟨bitmapSetMultiple s.fds.bitmap fd 1 true, names⟩, opened⟩ := by
  have hbits : ∀ j, bitmapTest (bitmapSetMultiple s.fds.bitmap fd 1 true) j =
      if j = fd then true else bitmapTest s.fds.bitmap j := by
    intro j
    rw [bitmapTest_setMultiple (by rw [hi.size]; omega)]
    exact if_congr (by omega) rfl rfl
  refine ⟨by simpa using hi.size, fun j hj => ?_, fun j h hn => ?_⟩
  · rw [hbits, if_neg (by omega)]
    exact hi.std j hj
  · rw [hbits]
    rcases hnames j h hn with rfl | hn
    · exact ⟨h2, hlt, by simp⟩
    · obtain ⟨h1, h2, h3⟩ := hi.named j h hn
      exact ⟨h1, h2, by simp [h3]⟩

theorem StdInv.step (hi : StdInv s) (hs : fdStep s a = some s') (hok : NoStdClose s a s') :
    StdInv s' ∧ ∀ fd h, s.fds.names fd = some h → a ≠ .close fd → s'.fds.names fd = some h := by
  cases a with
  | «open» r =>
    simp only [fdStep] at hs
    split at hs
    · cases hs
    simp only [Option.some.injEq] at hs
    subst hs
    rcases sysOpen_cases s.fds r with ⟨-, e⟩ | ⟨fd, hfd, rfl, e⟩ | ⟨fd, x, hfd, rfl, e⟩
    · simp only [e, ↓reduceIte]
      exact ⟨hi, fun _ _ h _ => h⟩
    · obtain ⟨h2, hlt, -⟩ := hi.scan hfd
      simp only [e, ↓reduceIte]
      exact ⟨hi.reserve h2 hlt (fun _ _ h => .inr h) _, fun _ _ h _ => h⟩
    · obtain ⟨h2, hlt, hnone⟩ := hi.scan hfd
      simp only [e]
      refine ⟨hi.reserve h2 hlt (fun j h hj => ?_) _, fun j h hj _ => ?_⟩
      · by_cases he : j = fd
        · exact .inl he
        · rw [Function.update_of_ne he] at hj
          exact .inr hj
      · rw [Function.update_of_ne]
        · exact hj
        · rintro rfl
          rw [hnone] at hj
          cases hj
  | close fd =>
    simp only [fdStep, Option.some.injEq] at hs
    subst hs
    unfold sysClose
    split
    · next hfd =>
      obtain ⟨n, hn, rfl, -⟩ := fdOk_iff.mp hfd
      have hn2 : 2 ≤ n := by
        by_contra hlt
        rcases (show n = 0 ∨ n = 1 by omega) with rfl | rfl
        · exact hok.1 rfl
        · exact hok.2 rfl
      have hbits := bitmapTest_set (b := s.fds.bitmap) hn false
      simp only [Int.toNat_natCast]
      refine ⟨⟨by simpa using hi.size, fun j hj => ?_, fun j h hj => ?_⟩, fun j h hj hne => ?_⟩
      · rw [hbits, if_neg (by omega)]
        exact hi.std j hj
      · by_cases he : j = n
        · subst he
          simp at hj
        · simp only [Function.update_of_ne he] at hj
          rw [hbits, if_neg he]
          exact hi.named j h hj
      · rw [Function.update_of_ne]
        · exact hj
        · rintro rfl
          exact hne rfl
    · exact ⟨hi, fun _ _ h _ => h⟩
  | read fd =>
    cases hs
    exact ⟨hi, fun _ _ h _ => h⟩
  | write fd =>
    cases hs
    exact ⟨hi, fun _ _ h _ => h⟩

/-- What an open returns. -/
theorem StdInv.open_returns (hi : StdInv s) {r : Option Handle} (hs : fdStep s (.open r) = some s') :
    (sysOpen s.fds r).2 ≠ 0 ∧ (sysOpen s.fds r).2 ≠ 1 ∧
      ((sysOpen s.fds r).2 ≠ -1 → r ≠ none ∧ s'.fds.names (sysOpen s.fds r).2.toNat = r) := by
  simp only [fdStep] at hs
  split at hs
  · cases hs
  simp only [Option.some.injEq] at hs
  subst hs
  rcases sysOpen_cases s.fds r with ⟨-, e⟩ | ⟨fd, hfd, rfl, e⟩ | ⟨fd, x, hfd, rfl, e⟩
  · simp [e]
  · simp [e]
  · obtain ⟨h2, -, -⟩ := hi.scan hfd
    simp only [e]
    exact ⟨by omega, by omega, fun _ => ⟨by simp, by simp⟩⟩

/-- The close of a standard descriptor clears its bit. -/
theorem StdInv.close_clears (hi : StdInv s) (fd : Nat) (hfd : fd < 2)
    (hs : fdStep s (.close fd) = some s') : bitmapTest s'.fds.bitmap fd = false := by
  have hlt : fd < bitmapSize s.fds.bitmap := by
    rw [hi.size]
    exact Nat.lt_trans hfd (by decide)
  have hok : fdOk fd s.fds.bitmap = true := fdOk_iff.mpr ⟨fd, hlt, rfl, hi.std fd hfd⟩
  simp only [fdStep, sysClose, hok, if_true, Option.some.injEq] at hs
  subst hs
  simp only [Int.toNat_natCast]
  rw [bitmapTest_set hlt, if_pos rfl]

theorem stdOk_iff (hi : StdInv s) (hs : fdStep s a = some s') :
    StdOk s a s' ↔ NoStdClose s a s' := by
  constructor
  · intro h
    refine ⟨?_, ?_⟩ <;> rintro rfl
    · have := hi.close_clears 0 (by decide) hs
      rw [h.bits.1] at this
      cases this
    · have := hi.close_clears 1 (by decide) hs
      rw [h.bits.2] at this
      cases this
  · intro hok
    obtain ⟨hi', hkeep⟩ := hi.step hs hok
    refine ⟨⟨hi'.std 0 (by decide), hi'.std 1 (by decide)⟩, ?_, hkeep, fun fd h => hi'.target⟩
    rintro r rfl
    exact hi.open_returns hs

end

/-- **The standard descriptors are reserved** in every run of a process, call by call, if
and only if it closes neither of them. -/
theorem std_reserved_iff (as : List FdCall) :
    Along fdStep StdOk Table.init as ↔ Along fdStep NoStdClose Table.init as :=
  along_iff (I := StdInv) (fun _ a _ hi hs => stdOk_iff (a := a) hi hs)
    (fun _ a _ hi hs hok => (hi.step (a := a) hs hok).1) stdInv_init

/-- After a close of descriptor 0 a file is opened there, and a read goes to the console. -/
theorem close_stdin_reads_console :
    ¬ Along fdStep StdOk Table.init [.close 0, .open (some 7)] ∧
      ∃ s, runFrom fdStep Table.init [.close 0, .open (some 7)] = some s ∧
        s.fds.names 0 = some 7 ∧ sysRead s.fds 0 = .console ∧ sysWrite s.fds 0 = .invalid := by
  have hclose : fdStep Table.init (.close 0) = some ⟨(sysClose fdsCreate 0).1, []⟩ := by
    have hnull : (sysClose fdsCreate 0).2 = none := by decide +kernel
    simp only [fdStep, Table.init, hnull, Option.elim_none]
  have hopen : fdStep ⟨(sysClose fdsCreate 0).1, []⟩ (.open (some 7)) =
      some ⟨(sysOpen (sysClose fdsCreate 0).1 (some 7)).1,
        if (sysOpen (sysClose fdsCreate 0).1 (some 7)).2 = -1 then [] else [7]⟩ := by
    simp [fdStep]
  constructor
  · intro h
    have hset := (h _ hclose).1.bits.1
    rw [stdInv_init.close_clears 0 (by decide) hclose] at hset
    cases hset
  · refine ⟨_, by rw [runFrom, hclose, Option.bind_some, runFrom, hopen]; rfl, ?_⟩
    decide +kernel

end Pintos.Userprog
