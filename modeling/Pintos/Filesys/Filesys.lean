import Pintos.Base.Reach
import Pintos.Filesys.Directory

/-!
# The file system (filesys/filesys.c)
-/

namespace Pintos.Filesys

open Pintos.Base Pintos.Kernel

/-- The chain of `filesys_create` after the directory is open: whether it succeeds, and
the value of `inode_sector` it leaves. -/
def createChain (dir : Dir) (name : CString) (initialSize : Int) (stack : Buffer) :
    M (Bool × Nat) := do
  match ← freeMapAllocate 1 with
  | none => pure (false, 0)
  | some inodeSector =>
    if ← inodeCreate inodeSector initialSize then
      let ok ← dirAdd dir name inodeSector stack
      pure (ok, inodeSector)
    else pure (false, inodeSector)

/-- `if (!success && inode_sector != 0) free_map_release (inode_sector, 1)` -/
def cleanUp (success : Bool) (inodeSector : Nat) : M Unit :=
  if !success && inodeSector != 0 then freeMapRelease inodeSector 1 else pure ()

def filesysCreate (name : CString) (initialSize : Int) (stack : Buffer) : M Bool := do
  match ← dirOpenRoot with
  | none => pure false
  | some dir => do
    let r ← createChain dir name initialSize stack
    cleanUp r.1 r.2
    dirClose (some dir)
    pure r.1

def filesysOpen (name : CString) (stack : Buffer) : M (Option Ptr) := do
  match ← dirOpenRoot with
  | none => fileOpen none
  | some dir => do
    let inode ← dirLookup dir name stack
    dirClose (some dir)
    fileOpen inode

def filesysRemove (name : CString) (stack : Buffer) : M Bool := do
  match ← dirOpenRoot with
  | none => pure false
  | some dir => do
    let success ← dirRemove dir name stack
    dirClose (some dir)
    pure success

/-- `free_map_file = file_open (inode_open (FREE_MAP_SECTOR))` -/
def openFreeMapFile : M Ptr := do
  let inode ← inodeOpen freeMapSector
  match ← fileOpen inode with
  | none => throw .freeMapOpen
  | some f => do
    modify fun s => { s with freeMapFile := some f }
    pure f

def freeMapCreate : M Unit := do
  let s ← get
  if ← inodeCreate freeMapSector (byteCnt (bitmapSize s.freeMap) : Nat) then
    let f ← openFreeMapFile
    if ← bitmapWrite f then pure () else throw .freeMapWrite
  else throw .freeMapCreate

def freeMapOpen : M Unit := do
  let f ← openFreeMapFile
  if ← bitmapRead f then pure () else throw .freeMapRead

def freeMapClose : M Unit := do
  let s ← get
  fileClose s.freeMapFile

/-- The entries of the root directory. -/
def rootEntries : Nat := 16

def doFormat : M Unit := do
  freeMapCreate
  if ← dirCreate rootDirSector rootEntries then pure () else throw .rootDirCreate
  freeMapClose

/-- `filesys_init (true)` -/
def filesysInit : M Unit := do
  freeMapInit
  doFormat
  freeMapOpen

/-- `filesys_init (false)` -/
def filesysMount : M Unit := do
  freeMapInit
  freeMapOpen

def filesysDone : M Unit := freeMapClose

end Pintos.Filesys
