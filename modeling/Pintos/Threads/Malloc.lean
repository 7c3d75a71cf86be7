import Mathlib.Data.Finset.Card
import Mathlib.Logic.Function.Basic
import Pintos.Base.Prog
import Pintos.Base.Reach
import Pintos.Kernel.Memory
import Pintos.Threads.Palloc

/-!
# The block allocator (threads/malloc.c)

Arenas and their headers are words in memory; the free list of a descriptor is the list of
its blocks' addresses. The page allocator answers from a list, with any free run of pages
or with none. The locks of the descriptors are left out: one call is made at a time.
-/

namespace Pintos.Threads.Malloc

open Pintos.Base Pintos.Kernel

/-- `struct desc`, without its list and lock. -/
structure Desc where
  blockSize : Nat
  blocksPerArena : Nat
  deriving DecidableEq, Repr

/-- `sizeof (struct arena)` -/
def arenaSize : Nat := 12

/-- `ARENA_MAGIC` -/
def arenaMagic : Nat := 0x9a548eed

/-- The loop of `malloc_init`, for at most the given number of rounds. -/
def mallocInit : Nat → Nat → List Desc
  | 0, _ => []
  | n + 1, blockSize =>
    if blockSize < pgSize / 2 then
      ⟨blockSize, (pgSize - arenaSize) / blockSize⟩ :: mallocInit n (blockSize * 2)
    else []

/-- `descs` has room for ten. -/
def descs : List Desc := mallocInit 10 16

/-- Why the kernel stops. -/
inductive HeapStop where
  | assertion
  /-- An access behind the end of memory, or through a pointer that is not to a descriptor. -/
  | fault
  /-- A list function on an element that is not in the list. -/
  | undefined
  deriving DecidableEq, Repr

structure Heap where
  /-- The kernel pool. -/
  pool : Pool
  /-- The end of memory. -/
  top : Nat
  mem : Buffer
  /-- The free list of each descriptor. -/
  freeList : Nat → List Nat
  /-- The answers of the page allocator to come; after them memory is exhausted. -/
  answers : List (Option Nat)
  /-- The runs of pages that malloc.c holds: the address and the number of pages. -/
  groups : List (Nat × Nat)

abbrev M (α : Type) : Type := Prog Heap HeapStop α

def assert (b : Bool) : M Unit := if b then pure () else throw .assertion

namespace Heap

def magic (s : Heap) (a : Nat) : Nat := load32 s.mem a

/-- The index of the descriptor that `desc` points to; none if it is a null pointer. -/
def descOf (s : Heap) (a : Nat) : Option Nat :=
  if load32 s.mem (a + 4) = 0 then none else some (load32 s.mem (a + 4) - 1)

def freeCnt (s : Heap) (a : Nat) : Nat := load32 s.mem (a + 8)

def setFreeCnt (s : Heap) (a n : Nat) : Heap := { s with mem := store32 s.mem (a + 8) n }

/-- The header of an arena. -/
def setHeader (s : Heap) (a desc n : Nat) : Heap :=
  { s with mem := store32 (store32 (store32 s.mem a arenaMagic) (a + 4) desc) (a + 8) n }

def setList (s : Heap) (d : Nat) (l : List Nat) : Heap :=
  { s with freeList := Function.update s.freeList d l }

end Heap

/-! ## The page allocator -/

/-- `palloc_get_multiple` for kernel pages. -/
def pallocGetMultiple (n : Nat) : M (Option Nat) := do
  if n = 0 then pure none
  else do
    let s ← get
    let next := { s with answers := s.answers.tail }
    match s.answers.headD none with
    | none => do set next; pure none
    | some i =>
      if i + n ≤ bitmapSize s.pool.usedMap ∧ bitmapContains s.pool.usedMap i n true = false then do
        set { next with
          pool := { s.pool with usedMap := bitmapSetMultiple s.pool.usedMap i n true }
          groups := (s.pool.base + pgSize * i, n) :: s.groups }
        pure (some (s.pool.base + pgSize * i))
      else do set next; pure none

/-- `palloc_free_multiple` for pages of the kernel pool. -/
def pallocFreeMultiple (pages n : Nat) : M Unit := do
  assert (pgOfs pages == 0)
  if pages = 0 ∨ n = 0 then pure ()
  else do
    let s ← get
    assert (pageFromPool s.pool pages)
    let i := pgNo pages - pgNo s.pool.base
    assert (bitmapAll s.pool.usedMap i n)
    set { s with
      mem := memcpy s.mem pages (fun _ => 0xcc) 0 (pgSize * n)
      pool := { s.pool with usedMap := bitmapSetMultiple s.pool.usedMap i n false }
      groups := s.groups.erase (pages, n) }

/-- `memcpy` and `memset` inside memory. -/
def copy (dst : Nat) (src : Buffer) (i n : Nat) : M Unit := do
  let s ← get
  if dst + n ≤ s.top then set { s with mem := memcpy s.mem dst src i n } else throw .fault

/-! ## Arenas and blocks -/

/-- What `a->desc` points to. -/
def getDesc (d : Nat) : M Desc :=
  match descs[d]? with
  | some desc => pure desc
  | none => throw .fault

/-- `block_to_arena` -/
def blockToArena (b : Nat) : M Nat := do
  let a := b - pgOfs b
  assert (a != 0)
  let s ← get
  assert (s.magic a == arenaMagic)
  match s.descOf a with
  | none => do
    assert (pgOfs b == arenaSize)
    pure a
  | some d => do
    let desc ← getDesc d
    assert ((pgOfs b + 2 ^ 32 - arenaSize) % 2 ^ 32 % desc.blockSize == 0)
    pure a

/-- `arena_to_block` -/
def arenaToBlock (a idx : Nat) : M Nat := do
  assert (a != 0)
  let s ← get
  assert (s.magic a == arenaMagic)
  match s.descOf a with
  | none => throw .fault
  | some d => do
    let desc ← getDesc d
    assert (decide (idx < desc.blocksPerArena))
    pure (a + arenaSize + idx * desc.blockSize)

/-- The blocks with the given indices put at the end of the free list. -/
def addBlocks (a d : Nat) : List Nat → M Unit
  | [] => pure ()
  | i :: is => do
    let b ← arenaToBlock a i
    modify fun s => s.setList d (s.freeList d ++ [b])
    addBlocks a d is

/-- `list_remove` -/
def listRemove (d b : Nat) : M Unit := do
  let s ← get
  if b ∈ s.freeList d then set (s.setList d ((s.freeList d).erase b)) else throw .undefined

/-- The blocks with the given indices taken out of the free list. -/
def removeBlocks (a d : Nat) : List Nat → M Unit
  | [] => pure ()
  | i :: is => do
    let b ← arenaToBlock a i
    listRemove d b
    removeBlocks a d is

/-! ## The functions -/

/-- The block for a size that is too big for the descriptors. The sums wrap. -/
def mallocBig (size : Nat) : M (Option Nat) := do
  let pageCnt := (size + arenaSize + pgSize - 1) % 2 ^ 32 / pgSize
  match ← pallocGetMultiple pageCnt with
  | none => pure none
  | some a => do
    modify fun s => s.setHeader a 0 pageCnt
    pure (some (a + arenaSize))

/-- The first block of the free list. -/
def takeBlock (d : Nat) : M (Option Nat) := do
  let s ← get
  match s.freeList d with
  | [] => throw .undefined
  | b :: l => do
    set (s.setList d l)
    let a ← blockToArena b
    modify fun s => s.setFreeCnt a ((s.freeCnt a + 2 ^ 32 - 1) % 2 ^ 32)
    pure (some b)

def mallocSmall (d : Nat) : M (Option Nat) := do
  let s ← get
  if s.freeList d = [] then do
    match ← pallocGetMultiple 1 with
    | none => pure none
    | some a => do
      let desc ← getDesc d
      modify fun s => s.setHeader a (d + 1) desc.blocksPerArena
      addBlocks a d (List.range desc.blocksPerArena)
      takeBlock d
  else takeBlock d

def malloc (size : Nat) : M (Option Nat) :=
  if size = 0 then pure none
  else
    match descs.findIdx? (fun desc => size ≤ desc.blockSize) with
    | none => mallocBig size
    | some d => mallocSmall d

def calloc (a b : Nat) : M (Option Nat) := do
  let size := a * b % 2 ^ 32
  if size < a ∨ size < b then pure none
  else do
    let p ← malloc size
    match p with
    | none => pure none
    | some p => do
      copy p zeros 0 size
      pure (some p)

/-- `block_size` -/
def blockSize (b : Nat) : M Nat := do
  let a ← blockToArena b
  let s ← get
  match s.descOf a with
  | some d => do
    let desc ← getDesc d
    pure desc.blockSize
  | none => pure ((pgSize * s.freeCnt a + 2 ^ 32 - pgOfs b) % 2 ^ 32)

/-- The branch of `free` for a normal block. -/
def freeSmall (a b d : Nat) : M Unit := do
  let desc ← getDesc d
  copy b (fun _ => 0xcc) 0 desc.blockSize
  modify fun s => s.setList d (b :: s.freeList d)
  modify fun s => s.setFreeCnt a ((s.freeCnt a + 1) % 2 ^ 32)
  let s ← get
  if desc.blocksPerArena ≤ s.freeCnt a then do
    assert (s.freeCnt a == desc.blocksPerArena)
    removeBlocks a d (List.range desc.blocksPerArena)
    pallocFreeMultiple a 1
  else pure ()

def free : Option Nat → M Unit
  | none => pure ()
  | some b => do
    let a ← blockToArena b
    let s ← get
    match s.descOf a with
    | some d => freeSmall a b d
    | none => pallocFreeMultiple a (s.freeCnt a)

/-- The part of `realloc` for two blocks. -/
def moveBlock (old new newSize : Nat) : M Unit := do
  let oldSize ← blockSize old
  let s ← get
  copy new s.mem old (min newSize oldSize)
  free (some old)

def realloc (oldBlock : Option Nat) (newSize : Nat) : M (Option Nat) := do
  if newSize = 0 then do
    free oldBlock
    pure none
  else do
    let newBlock ← malloc newSize
    match oldBlock, newBlock with
    | some old, some new => do
      moveBlock old new newSize
      pure newBlock
    | _, _ => pure newBlock

end Pintos.Threads.Malloc
