import Pintos.Filesys.File

/-!
# Directories (filesys/directory.c)

A directory is an array of entries in the data of an inode. The functions that
search it read one entry at a time and stop at the first short read, whether it
comes from the end of the file or from a failed allocation.
-/

namespace Pintos.Filesys

open Pintos.Base Pintos.Kernel

/-- `NAME_MAX` -/
def nameMax : Nat := 14

/-- `sizeof (struct dir_entry)`: the sector, the name and the flag. -/
def entrySize : Nat := 20

/-- `struct dir_entry` in memory -/
def entrySector (e : Buffer) : Nat := load32 e 0

def entryName (e : Buffer) : Buffer := bufferAt e 4

def entryInUse (e : Buffer) : Bool := e 19 != 0

def setInUse (e : Buffer) (v : Bool) : Buffer := fun i => if i = 19 then cond v 1 0 else e i

/-- The assignments of `dir_add` to its entry. -/
def fillEntry (e : Buffer) (name : CString) (sector : Nat) : Buffer :=
  store32 (strlcpy (setInUse e true) 4 name (nameMax + 1)) 0 sector

/-- `struct dir`, without the position `dir_readdir` keeps. -/
structure Dir where
  inode : Ptr

def dirCreate (sector entryCnt : Nat) : M Bool := inodeCreate sector (entryCnt * entrySize : Nat)

def dirOpen (inode : Option Ptr) : M (Option Dir) := do
  let ok ← malloc
  match inode, ok with
  | some p, true => pure (some ⟨p⟩)
  | _, _ => do
    inodeClose inode
    pure none

def dirOpenRoot : M (Option Dir) := do
  let inode ← inodeOpen rootDirSector
  dirOpen inode

def dirReopen (dir : Dir) : M (Option Dir) := do
  inodeReopen dir.inode
  dirOpen (some dir.inode)

def dirClose : Option Dir → M Unit
  | none => pure ()
  | some dir => inodeClose (some dir.inode)

/-- The loop of `lookup`: the entry and its offset. -/
def lookupLoop (p : Ptr) (name : CString) : (fuel : Nat) → Buffer → (ofs : Nat) → M (Option (Buffer × Nat))
  | 0, _, _ => pure none
  | fuel + 1, e, ofs => do
    let r ← inodeReadAt p e entrySize ofs
    if r.1 = entrySize then
      if entryInUse r.2 && strEq name (entryName r.2) then pure (some (r.2, ofs))
      else lookupLoop p name fuel r.2 (ofs + entrySize)
    else pure none

/-- The reads that can succeed, and the one that ends a loop over the directory. -/
def entryReads (n : Inode) : Nat := n.data.length.toNat / entrySize + 1

/-- `lookup`, with what is on the stack where it keeps its entry. -/
def lookup (dir : Dir) (name : CString) (stack : Buffer) : M (Option (Buffer × Nat)) := do
  let n ← getInode dir.inode
  lookupLoop dir.inode name (entryReads n) stack 0

/-- The inode of the file, opened. -/
def dirLookup (dir : Dir) (name : CString) (stack : Buffer) : M (Option Ptr) := do
  match ← lookup dir name stack with
  | some r => inodeOpen (entrySector r.1)
  | none => pure none

/-- The search of `dir_add` for a free slot: the entry last read and the offset. -/
def freeSlotLoop (p : Ptr) : (fuel : Nat) → Buffer → (ofs : Nat) → M (Buffer × Nat)
  | 0, e, ofs => pure (e, ofs)
  | fuel + 1, e, ofs => do
    let r ← inodeReadAt p e entrySize ofs
    if r.1 = entrySize then
      if entryInUse r.2 then freeSlotLoop p fuel r.2 (ofs + entrySize) else pure (r.2, ofs)
    else pure (r.2, ofs)

/-- `NAME` is not empty and not too long. -/
def nameOk (name : CString) : Bool := decide (strlen name ≠ 0) && decide (strlen name ≤ nameMax)

def dirAdd (dir : Dir) (name : CString) (inodeSector : Nat) (stack : Buffer) : M Bool := do
  if nameOk name then
    match ← lookup dir name stack with
    | some _ => pure false
    | none => do
      let n ← getInode dir.inode
      let r ← freeSlotLoop dir.inode (entryReads n) stack 0
      let m ← inodeWriteAt dir.inode (fillEntry r.1 name inodeSector) entrySize r.2
      pure (decide (m = entrySize))
  else pure false

/-- What `dir_remove` does with the entry it has found. -/
def eraseEntry (dir : Dir) (e : Buffer) (ofs : Nat) (p : Ptr) : M Bool := do
  let m ← inodeWriteAt dir.inode (setInUse e false) entrySize ofs
  if m = entrySize then
    inodeRemove p
    pure true
  else pure false

def dirRemove (dir : Dir) (name : CString) (stack : Buffer) : M Bool := do
  match ← lookup dir name stack with
  | none => pure false
  | some r =>
    match ← inodeOpen (entrySector r.1) with
    | none => pure false
    | some p => do
      let success ← eraseEntry dir r.1 r.2 p
      inodeClose (some p)
      pure success

end Pintos.Filesys
