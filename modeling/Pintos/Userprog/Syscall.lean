import Pintos.Threads.Vaddr
import Pintos.Userprog.FdTable

/-!
# `syscall_handler` and user memory (userprog/syscall.c)

The handler as a sequence of pointer checks and accesses to user memory. A run
records every check and every access, in order; `check_valid_pointer`
and `check_pagedir` end the run with `exit (-1)` when they fail, the ASSERT in
`pagedir_get_page` and a page fault in kernel mode end it with a panic.

Addresses are 32-bit and pointer arithmetic wraps. An access to a kernel address
reads whatever is there: nothing stops the handler.
-/

namespace Pintos.Userprog

open Pintos.Threads

/-- A page directory: the kernel address of the frame of each mapped user page. -/
abbrev PageDir := Nat → Option Nat

/-- `pagedir_get_page` past its ASSERT. -/
def pagedirGetPage (pd : PageDir) (uaddr : Nat) : Option Nat :=
  (pd (pgNo uaddr)).map (· + pgOfs uaddr)

/-- The address space of the calling process. -/
structure User where
  pd : PageDir
  mem : Nat → UInt8

/-- Pointer arithmetic in bytes. -/
def addr (p i : Nat) : Nat := (p + i) % 2 ^ 32

/-- The four bytes at `p`, little-endian. -/
def User.word (u : User) (p : Nat) : Nat :=
  (u.mem (addr p 0)).toNat + 2 ^ 8 * (u.mem (addr p 1)).toNat +
    2 ^ 16 * (u.mem (addr p 2)).toNat + 2 ^ 24 * (u.mem (addr p 3)).toNat

/-- A word as an `int`. -/
def toInt32 (n : Nat) : Int := if n < 2 ^ 31 then n else n - 2 ^ 32

inductive Event where
  /-- `check_valid_pointer (p)` passed. -/
  | valid (p : Nat)
  /-- `check_pagedir (p)` passed. -/
  | paged (p : Nat)
  /-- A check of `p` failed. -/
  | refused (p : Nat)
  /-- The word at `p` is read. -/
  | word (p : Nat)
  /-- The string at `p` is given to the file system or to `process_execute`. -/
  | str (p : Nat)
  /-- The `n` bytes at `p` are read or written. -/
  | bytes (p n : Nat)
  deriving DecidableEq, Repr

inductive Outcome where
  | returned
  /-- `exit (status)` -/
  | exit (status : Int)
  /-- `thread_exit ()` without `exit` -/
  | threadExit
  | powerOff
  | panic
  deriving DecidableEq, Repr

structure Run where
  trace : List Event
  outcome : Outcome
  deriving DecidableEq, Repr

def Run.log (e : Event) (r : Run) : Run := { r with trace := e :: r.trace }

/-- The test of `check_valid_pointer`. -/
def validPointer (p : Nat) : Bool := isUserVaddr p && decide (0x08048000 ≤ p)

/-- `check_valid_pointer (p)`, then `k`. -/
def checkValidPointer (p : Nat) (k : Run) : Run :=
  if validPointer p then k.log (.valid p) else ⟨[.refused p], .exit (-1)⟩

/-- `check_pagedir (p)`, then `k`. -/
def checkPagedir (pd : PageDir) (p : Nat) (k : Run) : Run :=
  if isUserVaddr p then
    if (pagedirGetPage pd p).isSome then k.log (.paged p) else ⟨[.refused p], .exit (-1)⟩
  else ⟨[], .panic⟩

/-- A kernel access to an unmapped user address is a page fault in kernel mode. -/
def faults (pd : PageDir) (a : Nat) : Bool := isUserVaddr a && (pagedirGetPage pd a).isNone

/-- Read the word at `p`, then `k`. -/
def deref (u : User) (p : Nat) (k : Nat → Run) : Run :=
  if (List.range 4).any (fun i => faults u.pd (addr p i)) then ⟨[.word p], .panic⟩
  else (k (u.word p)).log (.word p)

/-- The calls `syscall_handler` has a case for. -/
inductive Sys where
  | halt | exit | exec | wait | create | open | read | write | close
  deriving DecidableEq, Repr

/-- Call numbers (lib/syscall-nr.h). -/
def Sys.ofNr : Nat → Option Sys
  | 0 => some .halt
  | 1 => some .exit
  | 2 => some .exec
  | 3 => some .wait
  | 4 => some .create
  | 6 => some .open
  | 8 => some .read
  | 9 => some .write
  | 12 => some .close
  | _ => none

/-- The bytes `SYS_READ` writes: `i < (int) size`, and `off_t` for a file. -/
def readSize (t : Target) (size : Nat) : Option Nat :=
  match t with
  | .console | .file _ => some (toInt32 size).toNat
  | .invalid => none

/-- The bytes `SYS_WRITE` reads: `size_t` for the console, `off_t` for a file. -/
def writeSize (t : Target) (size : Nat) : Option Nat :=
  match t with
  | .console => some size
  | .file _ => some (toInt32 size).toNat
  | .invalid => none

/-- A buffer handed over, if the descriptor is good. -/
def transfer (buffer : Nat) : Option Nat → Run
  | some n => ⟨[.bytes buffer n], .returned⟩
  | none => ⟨[], .returned⟩

/-- The switch of `syscall_handler` on the call number. -/
def callArgs (u : User) (fds : Fds) (p nr : Nat) : Run :=
  match Sys.ofNr nr with
  | some .halt => ⟨[], .powerOff⟩
  | some .read =>
    deref u (addr p 4) fun fd => checkValidPointer (addr p 4) <|
    deref u (addr p 8) fun buffer => checkValidPointer buffer <| checkPagedir u.pd (addr p 8) <|
    deref u (addr p 12) fun size => checkValidPointer (addr p 12) <|
    transfer buffer (readSize (sysRead fds (toInt32 fd)) size)
  | some .write =>
    deref u (addr p 4) fun fd => checkValidPointer (addr p 4) <|
    deref u (addr p 8) fun buffer => checkValidPointer buffer <| checkPagedir u.pd buffer <|
    deref u (addr p 12) fun size => checkValidPointer (addr p 12) <|
    transfer buffer (writeSize (sysWrite fds (toInt32 fd)) size)
  | some .create =>
    deref u (addr p 4) fun name => checkValidPointer name <| checkPagedir u.pd name <|
    deref u (addr p 8) fun _size => checkValidPointer (addr p 12) <|
    ⟨[.str name], .returned⟩
  | some .open =>
    deref u (addr p 4) fun name => checkValidPointer name <| checkPagedir u.pd name <|
    -- With no free descriptor `filesys_open` is not called.
    match Kernel.bitmapScan fds.bitmap 0 1 false with
    | none => ⟨[], .returned⟩
    | some _ => ⟨[.str name], .returned⟩
  | some .close =>
    deref u (addr p 4) fun _fd => checkValidPointer (addr p 4) ⟨[], .returned⟩
  | some .exec =>
    deref u (addr p 4) fun name => checkValidPointer name <| checkPagedir u.pd name <|
    if name = 0 then ⟨[], .returned⟩ else ⟨[.str name], .returned⟩
  | some .exit =>
    deref u (addr p 4) fun status => checkValidPointer (addr p 4) ⟨[], .exit (toInt32 status)⟩
  | some .wait =>
    deref u (addr p 4) fun _tid => checkValidPointer (addr p 4) ⟨[], .returned⟩
  | none => ⟨[], .threadExit⟩

/-- `syscall_handler` with the stack pointer `p` of the interrupt frame. -/
def syscallHandler (u : User) (fds : Fds) (p : Nat) : Run :=
  checkValidPointer p <| checkPagedir u.pd p <| deref u p fun nr => callArgs u fds p nr

end Pintos.Userprog
