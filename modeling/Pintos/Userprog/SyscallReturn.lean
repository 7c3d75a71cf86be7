import Pintos.Filesys.Calls
import Pintos.Filesys.Ownership
import Pintos.Userprog.FdTable

/-!
# What `SYS_READ` and `SYS_WRITE` return

The two cases of `syscall_handler` past their argument checks, on the console, the
descriptor table and the file system. Descriptor 0 is the console for reading and 1
for writing, whatever the table says. Every branch sets `f->eax` but one: a write to
the console leaves it as the user program had it.
-/

namespace Pintos.Userprog

open Pintos.Base Pintos.Kernel Pintos.Filesys

structure Io where
  fds : Fds
  fs : Fs
  /-- The keys, in the order in which they are typed. -/
  keys : Nat → UInt8
  /-- How many of them `input_getc` has taken. -/
  taken : Nat
  /-- What the console shows. -/
  output : List UInt8
  buffer : Buffer
  /-- `f->eax` -/
  eax : Int

abbrev IoM (α : Type) : Type := Prog Io Panic α

def setEax (v : Int) : IoM Unit := modify fun io => { io with eax := v }

def inputGetc : IoM UInt8 := do
  let io ← get
  set { io with taken := io.taken + 1 }
  pure (io.keys io.taken)

/-- The loop over the console input; the value of `i` after it. -/
def readKeys : (left i : Nat) → IoM Nat
  | 0, i => pure i
  | left + 1, i => do
    let key ← inputGetc
    modify fun io => { io with buffer := Function.update io.buffer i key }
    readKeys left (i + 1)

/-- `putbuf`, from the byte `i` on -/
def putbuf : (n i : Nat) → IoM Unit
  | 0, _ => pure ()
  | n + 1, i => do
    modify fun io => { io with output := io.output ++ [io.buffer i] }
    putbuf n (i + 1)

/-- A call of the file system. -/
def onFs {α : Type} (m : M α) : IoM α := fun io =>
  (m io.fs).map fun r => (r.1, { io with fs := r.2 })

/-- The case `SYS_READ`; `(int) size` and the `off_t` of `file_read` are signed. -/
def readCase (fd : Int) (size : Nat) : IoM Unit := do
  let io ← get
  match sysRead io.fds fd with
  | .console => do
    let i ← readKeys (asInt32 size).toNat 0
    setEax i
  | .file none => throw .wild
  | .file (some file) => do
    let r ← onFs (fileRead file io.buffer (asInt32 size))
    modify fun io => { io with buffer := r.2 }
    setEax r.1
  | .invalid => setEax (-1)

/-- The case `SYS_WRITE` -/
def writeCase (fd : Int) (size : Nat) : IoM Unit := do
  let io ← get
  match sysWrite io.fds fd with
  | .console => putbuf size 0
  | .invalid => setEax (-1)
  | .file none => throw .wild
  | .file (some file) => do
    let status ← onFs (fileWrite file io.buffer (asInt32 size))
    setEax status

/-- A read or a write. -/
inductive IoCall where
  | read (fd : Int) (size : Nat)
  | write (fd : Int) (size : Nat)

def IoCall.run : IoCall → IoM Unit
  | .read fd size => readCase fd size
  | .write fd size => writeCase fd size

/-- The file behind the descriptor, and its inode. -/
structure Behind (io : Io) (fd : Int) (f : File) (n : Inode) : Prop where
  name : io.fds.names fd.toNat = some f.addr
  file : io.fs.file? f.addr = some f
  inode : io.fs.inode? f.inode = some n

/-- The read has moved `k` bytes to the buffer. -/
def ReadMoves (fd : Int) (size : Nat) (io io' : Io) (k : Nat) : Prop :=
  if fd = 0 then
    io'.taken = io.taken + k ∧ io'.buffer = memcpy io.buffer 0 io.keys io.taken k ∧ io'.fs = io.fs
  else ∃ f n, Behind io fd f n ∧ k ≤ ioLen n.data size f.pos ∧
    io'.buffer = memcpy io.buffer 0 (fileByte io.fs.disk n.data.start) f.pos k ∧
    io'.fs.disk = io.fs.disk ∧ io'.fs.file? f.addr = some { f with pos := f.pos + k } ∧
    io'.taken = io.taken

/-- The write has moved `k` bytes from the buffer. -/
def WriteMoves (fd : Int) (size : Nat) (io io' : Io) (k : Nat) : Prop :=
  if fd = 1 then
    io'.output = io.output ++ (List.range k).map io.buffer ∧ io'.fs = io.fs
  else ∃ f n, Behind io fd f n ∧ k ≤ ioLen n.data size f.pos ∧
    io'.fs.disk = splice io.fs.disk n.data.start f.pos k io.buffer ∧
    io'.fs.file? f.addr = some { f with pos := f.pos + k } ∧ io'.output = io.output

def IoCall.Moves : IoCall → Io → Io → Nat → Prop
  | .read fd size => ReadMoves fd size
  | .write fd size => WriteMoves fd size

/-- The descriptor is open for the direction of the call. -/
def IoCall.Open (fds : Fds) : IoCall → Prop
  | .read fd _ => fd = 0 ∨ fd ≠ 1 ∧ fdOk fd fds.bitmap = true
  | .write fd _ => fd = 1 ∨ fd ≠ 0 ∧ fdOk fd fds.bitmap = true

/-- What the call is to return, if it returns: the number of bytes it has moved, or -1. -/
def IoCall.Returns (c : IoCall) (io : Io) : Prop := ∀ io', c.run io = .ok ((), io') →
  (c.Open io.fds → ∃ k : Nat, c.Moves io io' k ∧ io'.eax = k) ∧ (¬ c.Open io.fds → io'.eax = -1)

/-- The call is not a write to the console, or `f->eax` happens to hold the size already. -/
def IoCall.Answered (eax : Int) : IoCall → Prop
  | .read _ _ => True
  | .write fd size => fd ≠ 1 ∨ eax = size

def IoCall.size : IoCall → Nat
  | .read _ size => size
  | .write _ size => size

section

variable {io io' : Io} {fd : Int} {size : Nat}

theorem asInt32_of_lt (h : size < 2 ^ 31) : asInt32 size = size := if_pos h

/-! ## The console -/

theorem readKeys_run : ∀ (left i : Nat) (io : Io), readKeys left i io = .ok (i + left, { io with
    taken := io.taken + left, buffer := memcpy io.buffer i io.keys io.taken left })
  | 0, i, io => by
    rw [memcpy_zero]
    rfl
  | left + 1, i, io => by
    rw [readKeys, inputGetc, bind_run, bind_run, get_run, ok_bind, bind_run, set_run, ok_bind, pure_run,
      ok_bind, bind_run, modify_run, ok_bind, readKeys_run left]
    have hbuf : memcpy (Function.update io.buffer i (io.keys io.taken)) (i + 1) io.keys (io.taken + 1) left =
        memcpy io.buffer i io.keys io.taken (left + 1) := by
      rw [Nat.add_comm left 1, ← memcpy_memcpy]
      congr 1
      funext k
      by_cases hk : k = i
      · subst hk
        rw [Function.update_self, memcpy_in (Nat.le_refl _) (Nat.lt_succ_self _), Nat.sub_self, Nat.add_zero]
      · rw [Function.update_of_ne hk, memcpy_out (by omega)]
    simp only [hbuf, Nat.add_assoc, Nat.add_comm 1 left]

theorem putbuf_run : ∀ (n i : Nat) (io : Io), putbuf n i io = .ok ((), { io with
    output := io.output ++ (List.range n).map fun k => io.buffer (i + k) })
  | 0, i, io => by
    rw [List.range_zero, List.map_nil, List.append_nil]
    rfl
  | n + 1, i, io => by
    rw [putbuf, bind_run, modify_run, ok_bind, putbuf_run n, List.range_succ_eq_map, List.map_cons,
      List.map_map, List.append_assoc, List.singleton_append]
    simp only [Function.comp_def, Nat.add_zero, Nat.add_assoc, Nat.add_comm 1, Nat.succ_eq_add_one]

/-! ## Files -/

/-- The file after its position has moved. -/
theorem file?_advance {s : Fs} {p : Ptr} {f : File} (hf : s.file? p = some f) (k : Nat) :
    (s.files.map fun g => if g.addr = p then { g with pos := g.pos + k } else g).find?
      (fun g => g.addr == p) = some { f with pos := f.pos + k } := by
  have haddr : f.addr = p := by simpa using List.find?_some hf
  have hsame : ((fun g => g.addr == p) ∘ fun g : File => if g.addr = p then { g with pos := g.pos + k } else g) =
      fun g => g.addr == p := by
    funext g
    show ((if g.addr = p then { g with pos := g.pos + k } else g).addr == p) = _
    split <;> rfl
  rw [List.find?_map, hsame]
  show (s.file? p).map _ = _
  rw [hf, Option.map_some, if_pos haddr]

theorem behind_of_ready {s : Fs} (h : Ready s) {p : Ptr} {f : File} (hf : s.file? p = some f) :
    ∃ n, s.inode? f.inode = some n ∧ n.denyWriteCnt = 0 ∧ OnDisk s.capacity n.data := by
  obtain ⟨n, hn, haddr⟩ := h.inode_of_file (List.mem_of_find?_eq_some hf)
  exact ⟨n, haddr ▸ h.inv.inode? hn, h.inv.deny n hn, h.inv.onDisk hn⟩

/-- The state after the position of the file at `p` has moved by `k`. -/
def advanced (s : Fs) (p : Ptr) (k : Nat) : Fs :=
  { s with files := s.files.map fun g => if g.addr = p then { g with pos := g.pos + k } else g }

theorem fileRead_run {s : Fs} {p : Ptr} {f : File} {n : Inode} (hf : s.file? p = some f)
    (hn : s.inode? f.inode = some n) (hd : OnDisk s.capacity n.data) (buffer : Buffer) (size : Nat) :
    ∃ k mem, k ≤ ioLen n.data size f.pos ∧ fileRead p buffer size s =
      .ok ((k, memcpy buffer 0 (fileByte s.disk n.data.start) f.pos k),
        advanced { s with mem := mem } p k) := by
  have hread := @readAt_run _ n s size f.pos hn hd buffer
  have hle := @Filesys.transfer_le n.data size f.pos false s.mem
  refine ⟨(Filesys.transfer n.data size f.pos false s.mem).1,
    (Filesys.transfer n.data size f.pos false s.mem).2, hle, ?_⟩
  rw [fileRead, bind_run, getFile_run hf, ok_bind, bind_run, hread]
  rfl

theorem fileWrite_run {s : Fs} {p : Ptr} {f : File} {n : Inode} (hf : s.file? p = some f)
    (hn : s.inode? f.inode = some n) (hdeny : n.denyWriteCnt = 0) (hd : OnDisk s.capacity n.data)
    (buffer : Buffer) (size : Nat) :
    ∃ k mem, k ≤ ioLen n.data size f.pos ∧ fileWrite p buffer size s =
      .ok (k, advanced { s with disk := splice s.disk n.data.start f.pos k buffer, mem := mem } p k) := by
  have hwrite := @writeAt_run _ n s size f.pos hn hdeny hd buffer
  have hle := @Filesys.transfer_le n.data size f.pos false s.mem
  refine ⟨(Filesys.transfer n.data size f.pos false s.mem).1,
    (Filesys.transfer n.data size f.pos false s.mem).2, hle, ?_⟩
  rw [fileWrite, bind_run, getFile_run hf, ok_bind, bind_run, hwrite]
  rfl

theorem onFs_ok {α : Type} {m : M α} {a : α} {s : Fs} (h : m io.fs = .ok (a, s)) :
    onFs m io = .ok (a, { io with fs := s }) := by
  rw [onFs, h]
  rfl

/-- The call ended in the file system without an answer. -/
theorem onFs_error {α : Type} {m : M α} {e : Panic} (h : m io.fs = .error e) :
    onFs m io = .error e := by
  rw [onFs, h]
  rfl

theorem getFile_none {s : Fs} {p : Ptr} (h : s.file? p = none) : getFile p s = .error .wild := by
  show Filesys.deref (s.file? p) s = _
  rw [h]
  rfl

/-! ## The two cases -/

theorem sysRead_file {fds : Fds} {h : Option Handle} (hr : sysRead fds fd = .file h) :
    fd ≠ 0 ∧ fd ≠ 1 ∧ fdOk fd fds.bitmap = true ∧ h = fds.names fd.toNat := by
  unfold sysRead at hr
  split at hr
  · cases hr
  · next h0 =>
    split at hr
    · next h1 => exact ⟨h0, h1.1, h1.2, (Target.file.inj hr).symm⟩
    · cases hr

theorem sysWrite_file {fds : Fds} {h : Option Handle} (hr : sysWrite fds fd = .file h) :
    fd ≠ 0 ∧ fd ≠ 1 ∧ fdOk fd fds.bitmap = true ∧ h = fds.names fd.toNat := by
  unfold sysWrite at hr
  split at hr
  · cases hr
  · next h1 =>
    split at hr
    · cases hr
    · next h0 =>
      rw [not_or, not_not] at h0
      exact ⟨h0.1, h1, h0.2, (Target.file.inj hr).symm⟩

theorem read_returns (h : Ready io.fs) (hsize : size < 2 ^ 31) : (IoCall.read fd size).Returns io := by
  intro io' hrun
  rw [IoCall.run, readCase, bind_run, get_run, ok_bind, asInt32_of_lt hsize] at hrun
  cases hr : sysRead io.fds fd with
  | console =>
    have hfd : fd = 0 := by
      unfold sysRead at hr
      split at hr
      · assumption
      · split at hr <;> cases hr
    rw [hr] at hrun
    simp only [bind_run, readKeys_run, ok_bind, setEax, modify_run] at hrun
    cases hrun
    refine ⟨fun _ => ⟨size, ?_, ?_⟩, fun hno => absurd (.inl hfd) hno⟩
    · show ReadMoves fd size io _ size
      rw [ReadMoves, if_pos hfd]
      exact ⟨rfl, rfl, rfl⟩
    · show ((0 + (size : Int).toNat : Nat) : Int) = size
      simp
  | file p =>
    obtain ⟨h0, h1, hok, hp⟩ := sysRead_file hr
    rw [hr] at hrun
    cases p with
    | none => cases hrun
    | some p =>
      cases hf : io.fs.file? p with
      | none =>
        have herr : fileRead p io.buffer size io.fs = .error .wild := by
          rw [fileRead, bind_run, getFile_none hf]
          rfl
        dsimp only at hrun
        rw [bind_run, onFs_error herr] at hrun
        cases hrun
      | some f =>
        obtain ⟨n, hn, -, hd⟩ := behind_of_ready h hf
        obtain ⟨k, mem, hle, hread⟩ := fileRead_run hf hn hd io.buffer size
        dsimp only at hrun
        rw [bind_run, onFs_ok hread, ok_bind] at hrun
        cases hrun
        obtain rfl : f.addr = p := by simpa using List.find?_some hf
        refine ⟨fun _ => ⟨k, ?_, rfl⟩, fun hno => absurd (.inr ⟨h1, hok⟩) hno⟩
        show ReadMoves fd size io _ k
        rw [ReadMoves, if_neg h0]
        exact ⟨f, n, ⟨hp.symm, hf, hn⟩, hle, rfl, rfl, file?_advance hf k, rfl⟩
  | invalid =>
    rw [hr] at hrun
    cases hrun
    have hno : ¬ (IoCall.read fd size).Open io.fds := by
      unfold sysRead at hr
      rintro (h0 | h1)
      · rw [if_pos h0] at hr
        cases hr
      · by_cases h0 : fd = 0
        · rw [if_pos h0] at hr
          cases hr
        · rw [if_neg h0, if_pos h1] at hr
          cases hr
    exact ⟨fun ho => absurd ho hno, fun _ => rfl⟩

theorem write_invalid_not_open (hr : sysWrite io.fds fd = .invalid) :
    ¬ (IoCall.write fd size).Open io.fds := by
  unfold sysWrite at hr
  rintro (h1 | ⟨h0, hok⟩)
  · rw [if_pos h1] at hr
    cases hr
  · split at hr
    · cases hr
    · rw [if_neg (by simp [h0, hok])] at hr
      cases hr

/-- A write to anything but the console. -/
theorem write_returns (h : Ready io.fs) (hsize : size < 2 ^ 31) (hfd : fd ≠ 1) :
    (IoCall.write fd size).Returns io := by
  intro io' hrun
  rw [IoCall.run, writeCase, bind_run, get_run, ok_bind, asInt32_of_lt hsize] at hrun
  cases hr : sysWrite io.fds fd with
  | console =>
    unfold sysWrite at hr
    rw [if_neg hfd] at hr
    split at hr <;> cases hr
  | invalid =>
    rw [hr] at hrun
    cases hrun
    exact ⟨fun ho => absurd ho (write_invalid_not_open hr), fun _ => rfl⟩
  | file p =>
    obtain ⟨h0, -, hok, hp⟩ := sysWrite_file hr
    rw [hr] at hrun
    cases p with
    | none => cases hrun
    | some p =>
      cases hf : io.fs.file? p with
      | none =>
        have herr : fileWrite p io.buffer size io.fs = .error .wild := by
          rw [fileWrite, bind_run, getFile_none hf]
          rfl
        dsimp only at hrun
        rw [bind_run, onFs_error herr] at hrun
        cases hrun
      | some f =>
        obtain ⟨n, hn, hdeny, hd⟩ := behind_of_ready h hf
        obtain ⟨k, mem, hle, hwrite⟩ := fileWrite_run hf hn hdeny hd io.buffer size
        dsimp only at hrun
        rw [bind_run, onFs_ok hwrite, ok_bind] at hrun
        cases hrun
        obtain rfl : f.addr = p := by simpa using List.find?_some hf
        refine ⟨fun _ => ⟨k, ?_, rfl⟩, fun hno => absurd (.inr ⟨h0, hok⟩) hno⟩
        show WriteMoves fd size io _ k
        rw [WriteMoves, if_neg hfd]
        exact ⟨f, n, ⟨hp.symm, hf, hn⟩, hle, rfl, file?_advance hf k, rfl⟩

/-- A write to the console moves every byte and leaves `f->eax` alone. -/
theorem console_write_run (io : Io) (size : Nat) : (IoCall.write 1 size).run io =
    .ok ((), { io with output := io.output ++ (List.range size).map io.buffer }) := by
  have hrun := putbuf_run size 0 io
  simp only [Nat.zero_add] at hrun
  exact hrun

theorem console_write_returns_iff : (IoCall.write 1 size).Returns io ↔ io.eax = size := by
  constructor
  · intro h
    obtain ⟨k, hk, he⟩ := (h _ (console_write_run io size)).1 (.inl rfl)
    have hk : io.output ++ (List.range size).map io.buffer = io.output ++ (List.range k).map io.buffer :=
      (show WriteMoves 1 size io _ k from hk).1
    have hlen := congrArg List.length hk
    simp only [List.length_append, List.length_map, List.length_range] at hlen
    obtain rfl : size = k := by omega
    exact he
  · intro he io' hrun
    obtain rfl : _ = io' := congrArg Prod.snd (Except.ok.inj ((console_write_run io size).symm.trans hrun))
    exact ⟨fun _ => ⟨size, ⟨rfl, rfl⟩, he⟩, fun hno => absurd (.inl rfl) hno⟩

end

/-- **`SYS_READ` and `SYS_WRITE` return the number of bytes they have moved, or -1**, unless
the call is a write to the console and `f->eax` is not already the size. -/
theorem call_returns_iff {io : Io} (h : Ready io.fs) {c : IoCall} (hsize : c.size < 2 ^ 31) :
    c.Returns io ↔ c.Answered io.eax := by
  cases c with
  | read fd size => exact iff_of_true (read_returns h hsize) trivial
  | write fd size =>
    by_cases hfd : fd = 1
    · subst hfd
      rw [console_write_returns_iff]
      exact ⟨.inr, fun hc => hc.resolve_left fun h1 => h1 rfl⟩
    · exact iff_of_true (write_returns h hsize hfd) (.inl hfd)

/-- A process that has only its standard descriptors; `f->eax` is 7. -/
def bootIo (fs : Fs) : Io := ⟨fdsCreate, fs, fun _ => 65, 0, [], zeros, 7⟩

theorem read_two_keys : Ready smallDisk ∧ (IoCall.read 0 2).Returns (bootIo smallDisk) := by
  have h : Ready smallDisk := filesysInit_ready smallDisk_init
  generalize smallDisk = s at h ⊢
  have hsize : (IoCall.read 0 2).size < 2 ^ 31 := by decide
  exact ⟨h, (@call_returns_iff (bootIo s) h (.read 0 2) hsize).mpr trivial⟩

theorem bootIo_write (fs : Fs) : ¬ (IoCall.write 1 2).Returns (bootIo fs) ∧
    ∃ io, (IoCall.write 1 2).run (bootIo fs) = .ok ((), io) ∧ io.output = [0, 0] ∧ io.eax = 7 := by
  refine ⟨fun h => ?_, _, console_write_run _ 2, rfl, rfl⟩
  have he : (7 : Int) = (2 : Nat) := console_write_returns_iff.mp h
  exact absurd he (by decide)

/-- Two bytes written to the console are on it, and the call returns 7. -/
theorem console_write_returns_eax : ¬ (IoCall.write 1 2).Returns (bootIo smallDisk) ∧
    ∃ io, (IoCall.write 1 2).run (bootIo smallDisk) = .ok ((), io) ∧ io.output = [0, 0] ∧ io.eax = 7 :=
  bootIo_write smallDisk

end Pintos.Userprog
