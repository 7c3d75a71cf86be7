import Pintos.Base.Prog
import Pintos.Kernel.Bitmap
import Pintos.Kernel.Memory

/-!
# The state of the file system

The disk, the in-memory structures of inode.c, file.c and free-map.c, and the
programs over them. A failed ASSERT or a PANIC stops the kernel. The memory
allocator answers each request from a list given with the call, so that every
pattern of failures is covered; an address is never handed out twice, and a use of
an address that is not allocated stops the program.
-/

namespace Pintos.Filesys

open Pintos.Base Pintos.Kernel

/-- `DISK_SECTOR_SIZE` -/
def sectorSize : Nat := 512

/-- `FREE_MAP_SECTOR` -/
def freeMapSector : Nat := 0

/-- `ROOT_DIR_SECTOR` -/
def rootDirSector : Nat := 1

abbrev Disk := Nat → Buffer

/-- `struct inode_disk`, without the words it does not use. -/
structure DiskInode where
  start : Nat
  length : Int
  magic : Nat
  deriving DecidableEq, Repr

abbrev Ptr := Nat

/-- `struct inode`, with its address. -/
structure Inode where
  addr : Ptr
  sector : Nat
  openCnt : Int
  removed : Bool
  denyWriteCnt : Int
  data : DiskInode
  deriving DecidableEq, Repr

/-- `struct file`, with its address. -/
structure File where
  addr : Ptr
  inode : Ptr
  pos : Nat
  denyWrite : Bool
  deriving DecidableEq, Repr

/-- Why the kernel stops. -/
inductive Panic where
  /-- `ASSERT (sec_no < d->capacity)` -/
  | capacity
  /-- `ASSERT (sec_no < (1UL << 28))` -/
  | lba28
  /-- `ASSERT (length >= 0)` in `inode_create` -/
  | length
  /-- `ASSERT (bitmap_all (free_map, sector, cnt))` in `free_map_release` -/
  | release
  /-- The range ASSERTs of the bitmap functions. -/
  | bitmap
  /-- `ASSERT (inode->open_cnt != 0)` in `inode_reopen` -/
  | reopen
  /-- The ASSERTs on `deny_write_cnt`. -/
  | denyWrite
  /-- `ASSERT (new_pos >= 0)` in `file_seek` -/
  | seek
  /-- An access to memory that is not allocated. -/
  | wild
  /-- "bitmap creation failed--disk is too large" -/
  | freeMapMemory
  /-- "free map creation failed" -/
  | freeMapCreate
  /-- "can't open free map" -/
  | freeMapOpen
  /-- "can't write free map" -/
  | freeMapWrite
  /-- "can't read free map" -/
  | freeMapRead
  /-- "root directory creation failed" -/
  | rootDirCreate
  deriving DecidableEq, Repr

structure Fs where
  /-- `d->capacity` of the file system disk. -/
  capacity : Nat
  /-- An ATA disk has 28-bit sector numbers. -/
  lba28 : capacity ≤ 2 ^ 28
  disk : Disk
  freeMap : Bitmap
  freeMapFile : Option Ptr
  /-- `open_inodes` -/
  openInodes : List Inode
  /-- The `struct file`s allocated. -/
  files : List File
  /-- The next address of the allocator. -/
  next : Ptr
  /-- The answers of the allocator to come; all further ones succeed. -/
  mem : List Bool
  /-- The calls of `free_map_release` so far, oldest first. -/
  released : List (Nat × Nat)

abbrev M (α : Type) : Type := Prog Fs Panic α

def assert (b : Bool) (e : Panic) : M Unit := if b then pure () else throw e

/-- Whether `malloc` or `calloc` succeeds. -/
def malloc : M Bool := do
  let s ← get
  set { s with mem := s.mem.tail }
  pure (s.mem.headD true)

def newAddr : M Ptr := do
  let s ← get
  set { s with next := s.next + 1 }
  pure s.next

/-- The sector `n` overwritten by the first `sectorSize` bytes of `b`. -/
def writeSector (d : Disk) (n : Nat) (b : Buffer) : Disk := fun x i =>
  if x = n ∧ i < sectorSize then b i else d x i

/-- `select_sector` -/
def selectSector (n : Nat) : M Unit := do
  let s ← get
  assert (decide (n < s.capacity)) .capacity
  assert (decide (n < 2 ^ 28)) .lba28

def diskRead (n : Nat) : M Buffer := do
  selectSector n
  let s ← get
  pure (s.disk n)

def diskWrite (n : Nat) (b : Buffer) : M Unit := do
  selectSector n
  modify fun s => { s with disk := writeSector s.disk n b }

/-- What a pointer refers to, if it is allocated. -/
def deref {α : Type} : Option α → M α
  | some a => pure a
  | none => throw .wild

def Fs.inode? (s : Fs) (p : Ptr) : Option Inode := s.openInodes.find? fun n => n.addr == p

def Fs.file? (s : Fs) (p : Ptr) : Option File := s.files.find? fun f => f.addr == p

def getInode (p : Ptr) : M Inode := do
  let s ← get
  deref (s.inode? p)

def modifyInode (p : Ptr) (f : Inode → Inode) : M Unit :=
  modify fun s => { s with openInodes := s.openInodes.map fun n => if n.addr = p then f n else n }

def getFile (p : Ptr) : M File := do
  let s ← get
  deref (s.file? p)

def modifyFile (p : Ptr) (g : File → File) : M Unit :=
  modify fun s => { s with files := s.files.map fun f => if f.addr = p then g f else f }

/-! ## Runs of the primitives -/

theorem assert_run {b : Bool} (h : b = true) (e : Panic) (s : Fs) : assert b e s = .ok ((), s) := by
  rw [assert, if_pos h]
  rfl

theorem malloc_run (s : Fs) :
    malloc s = .ok (s.mem.headD true, { s with mem := s.mem.tail }) := rfl

/-- A request that fails has an answer that says so. -/
theorem mem_of_headD {mem : List Bool} (h : mem.headD true = false) : false ∈ mem := by
  cases mem with
  | nil => cases h
  | cons b l =>
    rw [← show b = false from h]
    exact List.mem_cons_self

theorem newAddr_run (s : Fs) : newAddr s = .ok (s.next, { s with next := s.next + 1 }) := rfl

theorem selectSector_run {n : Nat} {s : Fs} (h : n < s.capacity) :
    selectSector n s = .ok ((), s) := by
  have h28 : n < 2 ^ 28 := Nat.lt_of_lt_of_le h s.lba28
  rw [selectSector, bind_run]
  show (assert _ _ >>= fun _ => assert _ _) s = _
  rw [bind_run, assert_run (by simpa using h)]
  exact assert_run (by simpa using h28) _ s

theorem diskRead_run {n : Nat} {s : Fs} (h : n < s.capacity) :
    diskRead n s = .ok (s.disk n, s) := by
  rw [diskRead, bind_run, selectSector_run h]
  rfl

theorem diskWrite_run {n : Nat} {s : Fs} (h : n < s.capacity) (b : Buffer) :
    diskWrite n b s = .ok ((), { s with disk := writeSector s.disk n b }) := by
  rw [diskWrite, bind_run, selectSector_run h]
  rfl

theorem getInode_run {p : Ptr} {n : Inode} {s : Fs} (h : s.inode? p = some n) :
    getInode p s = .ok (n, s) := by
  show deref (s.inode? p) s = _
  rw [h]
  rfl

theorem getFile_run {p : Ptr} {f : File} {s : Fs} (h : s.file? p = some f) :
    getFile p s = .ok (f, s) := by
  show deref (s.file? p) s = _
  rw [h]
  rfl

end Pintos.Filesys
