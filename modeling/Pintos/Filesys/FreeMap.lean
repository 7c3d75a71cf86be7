import Pintos.Filesys.InodeIo

/-!
# The free map (filesys/free-map.c, lib/kernel/bitmap.c)

One bit per sector, kept in memory and written to the free map file after each
change. The bits of the last word that no sector uses are taken to be 0.
-/

namespace Pintos.Filesys

open Pintos.Base Pintos.Kernel

/-- `byte_cnt`: the bytes of the words that hold `bitCnt` bits. -/
def byteCnt (bitCnt : Nat) : Nat := 4 * ((bitCnt + 31) / 32)

/-- The bits of a bitmap in memory. -/
def bitmapBytes (b : Bitmap) : Buffer := fun k =>
  UInt8.ofNat (Nat.ofBits fun j : Fin 8 => bitmapTest b (8 * k + j))

/-- The first `n` bits of a buffer. -/
def bitmapOfBytes (n : Nat) (buffer : Buffer) : Bitmap :=
  ⟨(List.range n).map fun i => (buffer (i / 8)).toNat.testBit (i % 8)⟩

def fileReadAt (f : Ptr) (buffer : Buffer) (size : Int) (fileOfs : Nat) : M (Nat × Buffer) := do
  let file ← getFile f
  inodeReadAt file.inode buffer size fileOfs

def fileWriteAt (f : Ptr) (buffer : Buffer) (size : Int) (fileOfs : Nat) : M Nat := do
  let file ← getFile f
  inodeWriteAt file.inode buffer size fileOfs

/-- `bitmap_read` on the free map. -/
def bitmapRead (f : Ptr) : M Bool := do
  let s ← get
  let size := byteCnt (bitmapSize s.freeMap)
  if bitmapSize s.freeMap = 0 then pure true
  else do
    let r ← fileReadAt f (bitmapBytes s.freeMap) size 0
    modify fun s => { s with freeMap := bitmapOfBytes (bitmapSize s.freeMap) r.2 }
    pure (decide (r.1 = size))

/-- `bitmap_write` on the free map. -/
def bitmapWrite (f : Ptr) : M Bool := do
  let s ← get
  let size := byteCnt (bitmapSize s.freeMap)
  let n ← fileWriteAt f (bitmapBytes s.freeMap) size 0
  pure (decide (n = size))

def setFreeMap (b : Bitmap) : M Unit := modify fun s => { s with freeMap := b }

def freeMapInit : M Unit := do
  let s ← get
  if ← malloc then
    let bits ← malloc
    if bits || s.capacity == 0 then
      setFreeMap (bitmapSet (bitmapSet (bitmapCreate s.capacity) freeMapSector true)
        rootDirSector true)
    else throw .freeMapMemory
  else throw .freeMapMemory

/-- The first of `cnt` sectors taken from the free map. -/
def freeMapAllocate (cnt : Nat) : M (Option Nat) := do
  let s ← get
  match bitmapScanAndFlip s.freeMap 0 cnt false with
  | (none, _) => pure none
  | (some sector, map) => do
    setFreeMap map
    match s.freeMapFile with
    | none => pure (some sector)
    | some f =>
      if ← bitmapWrite f then pure (some sector)
      else do
        setFreeMap (bitmapSetMultiple map sector cnt false)
        pure none

def freeMapRelease (sector cnt : Nat) : M Unit := do
  let s ← get
  assert (decide (sector + cnt ≤ bitmapSize s.freeMap)) .bitmap
  assert (bitmapAll s.freeMap sector cnt) .release
  set { s with freeMap := bitmapSetMultiple s.freeMap sector cnt false
               released := s.released ++ [(sector, cnt)] }
  let f ← deref s.freeMapFile
  discard (bitmapWrite f)

end Pintos.Filesys
