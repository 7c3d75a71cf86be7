import Pintos.Filesys.Inode

/-!
# Open files (filesys/file.c)
-/

namespace Pintos.Filesys

open Pintos.Base Pintos.Kernel

/-- A `struct file` for the inode, which is closed if there is no memory for one. -/
def fileOpen (inode : Option Ptr) : M (Option Ptr) := do
  let ok ← malloc
  match inode, ok with
  | some p, true => do
    let addr ← newAddr
    modify fun s => { s with files := { addr, inode := p, pos := 0, denyWrite := false } :: s.files }
    pure (some addr)
  | _, _ => do
    inodeClose inode
    pure none

def fileReopen (f : Ptr) : M (Option Ptr) := do
  let file ← getFile f
  inodeReopen file.inode
  fileOpen (some file.inode)

def fileDenyWrite (f : Ptr) : M Unit := do
  let file ← getFile f
  if file.denyWrite then pure ()
  else
    modifyFile f fun file => { file with denyWrite := true }
    inodeDenyWrite file.inode

def fileAllowWrite (f : Ptr) : M Unit := do
  let file ← getFile f
  if file.denyWrite then
    modifyFile f fun file => { file with denyWrite := false }
    inodeAllowWrite file.inode
  else pure ()

/-- `free` -/
def freeFile (f : Ptr) : M Unit :=
  modify fun s => { s with files := s.files.filter fun file => file.addr ≠ f }

def fileClose : Option Ptr → M Unit
  | none => pure ()
  | some f => do
    fileAllowWrite f
    let file ← getFile f
    inodeClose (some file.inode)
    freeFile f

/-- The number of bytes read, and the caller's buffer. -/
def fileRead (f : Ptr) (buffer : Buffer) (size : Int) : M (Nat × Buffer) := do
  let file ← getFile f
  let r ← inodeReadAt file.inode buffer size file.pos
  modifyFile f fun file => { file with pos := file.pos + r.1 }
  pure r

def fileWrite (f : Ptr) (buffer : Buffer) (size : Int) : M Nat := do
  let file ← getFile f
  let n ← inodeWriteAt file.inode buffer size file.pos
  modifyFile f fun file => { file with pos := file.pos + n }
  pure n

def fileSeek (f : Ptr) (newPos : Int) : M Unit := do
  discard (getFile f)
  assert (decide (0 ≤ newPos)) .seek
  modifyFile f fun file => { file with pos := newPos.toNat }

end Pintos.Filesys
