import Pintos.Filesys.FreeMap

/-!
# Inodes (filesys/inode.c)

The in-memory inodes and their life: created on disk, opened, reopened, marked as
removed and closed.
-/

namespace Pintos.Filesys

open Pintos.Base Pintos.Kernel

/-- `n` sectors from `start` on filled with zeros. -/
def zeroSectors (start : Nat) : (n : Nat) → M Unit
  | 0 => pure ()
  | n + 1 => do
    diskWrite start zeros
    zeroSectors (start + 1) n

def inodeCreate (sector : Nat) (length : Int) : M Bool := do
  assert (decide (0 ≤ length)) .length
  if ← malloc then
    match ← freeMapAllocate (bytesToSectors length) with
    | none => pure false
    | some start => do
      diskWrite sector (encodeInode { start, length, magic := inodeMagic })
      zeroSectors start (bytesToSectors length)
      pure true
  else pure false

def inodeReopen (p : Ptr) : M Unit := do
  let n ← getInode p
  assert (decide (n.openCnt ≠ 0)) .reopen
  modifyInode p fun n => { n with openCnt := n.openCnt + 1 }

/-- The inode in `sector`: the one in the list if it is open already. -/
def inodeOpen (sector : Nat) : M (Option Ptr) := do
  let s ← get
  match s.openInodes.find? fun n => n.sector == sector with
  | some n => do
    inodeReopen n.addr
    pure (some n.addr)
  | none =>
    if ← malloc then
      let addr ← newAddr
      let b ← diskRead sector
      modify fun s => { s with openInodes :=
        { addr, sector, openCnt := 1, removed := false, denyWriteCnt := 0,
          data := decodeInode b } :: s.openInodes }
      pure (some addr)
    else pure none

/-- `list_remove` -/
def removeInode (p : Ptr) : M Unit :=
  modify fun s => { s with openInodes := s.openInodes.filter fun n => n.addr ≠ p }

def inodeClose : Option Ptr → M Unit
  | none => pure ()
  | some p => do
    let n ← getInode p
    modifyInode p fun n => { n with openCnt := n.openCnt - 1 }
    if n.openCnt - 1 = 0 then
      removeInode p
      if n.removed then
        freeMapRelease n.sector 1
        freeMapRelease n.data.start (bytesToSectors n.data.length)
      else pure ()
    else pure ()

def inodeRemove (p : Ptr) : M Unit := do
  discard (getInode p)
  modifyInode p fun n => { n with removed := true }

def inodeDenyWrite (p : Ptr) : M Unit := do
  let n ← getInode p
  modifyInode p fun n => { n with denyWriteCnt := n.denyWriteCnt + 1 }
  assert (decide (n.denyWriteCnt + 1 ≤ n.openCnt)) .denyWrite

def inodeAllowWrite (p : Ptr) : M Unit := do
  let n ← getInode p
  assert (decide (0 < n.denyWriteCnt)) .denyWrite
  assert (decide (n.denyWriteCnt ≤ n.openCnt)) .denyWrite
  modifyInode p fun n => { n with denyWriteCnt := n.denyWriteCnt - 1 }

end Pintos.Filesys
