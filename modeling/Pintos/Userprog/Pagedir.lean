import Pintos.Base.Prog
import Pintos.Kernel.Memory
import Pintos.Threads.Palloc

/-!
# Page directories (userprog/pagedir.c, threads/pte.h)

Physical memory is a map from pages, by their kernel address, to their bytes; page
directories and page tables are words in such pages. `palloc_get_page` is answered from
a list: an index of the pool, granted if the page is free, or a null pointer. So every
choice of the allocator and every pattern of failures is covered.
-/

namespace Pintos.Userprog.Loader

open Pintos.Base Pintos.Kernel Pintos.Threads

/-- Why the kernel stops. -/
inductive Stop where
  /-- A failed ASSERT or NOT_REACHED. -/
  | assertion
  /-- A page fault in kernel mode. -/
  | fault
  /-- A store behind the end of a local array, or a use of a variable without a value. -/
  | undefined
  deriving DecidableEq, Repr

structure Vm where
  ramPages : Nat
  pool : PoolId → Pool
  /-- The bytes of each page. -/
  mem : Nat → Buffer
  basePageDir : Nat
  /-- `thread_current ()->pagedir` -/
  pagedir : Option Nat
  /-- The answers of `palloc_get_page` to come; after them memory is exhausted. -/
  answers : List (Option Nat)
  /-- The pages obtained so far, oldest first. -/
  obtained : List Nat
  /-- The pages freed so far, oldest first. -/
  freed : List Nat
  /-- The position in the executable that is loaded. -/
  pos : Nat
  /-- How many bytes each `file_read` to come gets at most, for want of a bounce buffer;
  after them there is no such limit. -/
  reads : List Nat

abbrev M (α : Type) : Type := Prog Vm Stop α

def assert (b : Bool) : M Unit := if b then pure () else throw .assertion

namespace Vm

/-- The page with index `i` of a pool. -/
def page (s : Vm) (p : PoolId) (i : Nat) : Nat := (s.pool p).base + pgSize * i

def size (s : Vm) (p : PoolId) : Nat := bitmapSize (s.pool p).usedMap

def used (s : Vm) (p : PoolId) (i : Nat) : Bool := bitmapTest (s.pool p).usedMap i

def setUsed (s : Vm) (p : PoolId) (i : Nat) (v : Bool) : Vm :=
  { s with
    pool := Function.update s.pool p
      { s.pool p with usedMap := bitmapSet (s.pool p).usedMap i v } }

def setPage (s : Vm) (page : Nat) (b : Buffer) : Vm := { s with mem := Function.update s.mem page b }

end Vm

/-! ## The allocator -/

/-- `palloc_get_page` -/
def pallocGetPage (p : PoolId) (zero : Bool) : M (Option Nat) := do
  let s ← get
  let next := { s with answers := s.answers.tail }
  match s.answers.headD none with
  | none => do set next; pure none
  | some i =>
    if i < s.size p ∧ s.used p i = false then do
      let t := next.setUsed p i true
      set { (if zero then t.setPage (s.page p i) zeros else t) with
        obtained := s.obtained ++ [s.page p i] }
      pure (some (s.page p i))
    else do set next; pure none

/-- The pool that `palloc_free_multiple` finds a page in. -/
def Vm.poolOf (s : Vm) (page : Nat) : Option PoolId :=
  if pageFromPool (s.pool .kernel) page then some .kernel
  else if pageFromPool (s.pool .user) page then some .user
  else none

/-- `palloc_free_page`. The page is filled with 0xcc. -/
def pallocFreePage (page : Nat) : M Unit := do
  assert (pgOfs page == 0)
  if page = 0 then pure ()
  else do
    let s ← get
    match s.poolOf page with
    | none => throw .assertion
    | some p => do
      let i := pgNo page - pgNo (s.pool p).base
      assert (s.used p i)
      set { (s.setUsed p i false).setPage page (fun _ => 0xcc) with freed := s.freed ++ [page] }

/-! ## Entries -/

/-- `pd_no` -/
def pdNo (va : Nat) : Nat := va / 2 ^ 22

/-- `pt_no` -/
def ptNo (va : Nat) : Nat := va / 2 ^ 12 % 2 ^ 10

/-- `pde_create` past its ASSERT. -/
def pdeCreate (pt : Nat) : Nat := vtop pt ||| 4 ||| 1 ||| 2

/-- `pde_get_pt` past its ASSERT. -/
def pdeGetPt (pde : Nat) : Nat := ptov (pde &&& 0xfffff000)

/-- `pte_create_user` past its ASSERT. -/
def pteCreateUser (page : Nat) (writable : Bool) : Nat :=
  vtop page ||| 1 ||| (if writable then 2 else 0) ||| 4

/-- `pte_get_page` -/
def pteGetPage (pte : Nat) : Nat := ptov (pte &&& 0xfffff000)

/-- `PTE_P` -/
def present (entry : Nat) : Bool := entry &&& 1 != 0

/-- Entry `i` of a page directory or a page table. -/
def Vm.entry (s : Vm) (page i : Nat) : Nat := load32 (s.mem page) (4 * i)

def Vm.setEntry (s : Vm) (page i w : Nat) : Vm := s.setPage page (store32 (s.mem page) (4 * i) w)

/-! ## Page directories -/

/-- `pagedir_create` -/
def pagedirCreate : M (Option Nat) := do
  match ← pallocGetPage .kernel false with
  | none => pure none
  | some pd => do
    modify fun s => s.setPage pd (memcpy (s.mem pd) 0 (s.mem s.basePageDir) 0 pgSize)
    pure (some pd)

/-- A page table for the entry of the directory: the middle of `lookup_page`. -/
def addTable (pd i : Nat) : M Bool := do
  match ← pallocGetPage .kernel true with
  | none => pure false
  | some pt => do
    assert (pgOfs pt == 0)
    modify fun s => s.setEntry pd i (pdeCreate pt)
    pure true

/-- `lookup_page`: the page table and the index in it. -/
def lookupPage (pd va : Nat) (create : Bool) : M (Option (Nat × Nat)) := do
  assert (!create || isUserVaddr va)
  let s ← get
  let there ←
    if s.entry pd (pdNo va) ≠ 0 then pure true
    else if create then addTable pd (pdNo va)
    else pure false
  if there then do
    let s ← get
    assert (present (s.entry pd (pdNo va)))
    pure (some (pdeGetPt (s.entry pd (pdNo va)), ptNo va))
  else pure none

/-- The end of `pagedir_set_page`, with what `lookup_page` has returned. -/
def setPte (kpage : Nat) (writable : Bool) : Option (Nat × Nat) → M Bool
  | none => pure false
  | some (pt, i) => do
    let s ← get
    assert (!present (s.entry pt i))
    modify fun s => s.setEntry pt i (pteCreateUser kpage writable)
    pure true

/-- `pagedir_set_page` -/
def pagedirSetPage (pd upage kpage : Nat) (writable : Bool) : M Bool := do
  assert (pgOfs upage == 0)
  assert (pgOfs kpage == 0)
  assert (isUserVaddr upage)
  let s ← get
  assert (decide (vtop kpage / pgSize < s.ramPages))
  assert (pd != s.basePageDir)
  let pte ← lookupPage pd upage true
  setPte kpage writable pte

/-- `pagedir_get_page` -/
def pagedirGetPage (pd uaddr : Nat) : M (Option Nat) := do
  assert (isUserVaddr uaddr)
  match ← lookupPage pd uaddr false with
  | none => pure none
  | some (pt, i) => do
    let s ← get
    if present (s.entry pt i) then pure (some (pteGetPage (s.entry pt i) + pgOfs uaddr))
    else pure none

/-- The pointer that `lookup_page` returns without creating, used to change the entry. Reloading
the page directory base register afterwards changes nothing in memory. -/
def updatePte (pd va : Nat) (f : Nat → Nat) : M Unit := do
  match ← lookupPage pd va false with
  | none => pure ()
  | some (pt, i) => modify fun s => s.setEntry pt i (f (s.entry pt i))

/-- `*pte &= ~PTE_P` for an entry that is present. -/
def notPresent (pte : Nat) : Nat := if present pte then pte &&& 0xfffffffe else pte

/-- `pagedir_clear_page` -/
def pagedirClearPage (pd upage : Nat) : M Unit := do
  assert (pgOfs upage == 0)
  assert (isUserVaddr upage)
  updatePte pd upage notPresent

/-- A flag of an entry is set or reset. -/
def setFlag (flag : Nat) (v : Bool) (pte : Nat) : Nat :=
  if v then pte ||| flag else pte &&& (0xffffffff - flag)

/-- `PTE_D` -/
def pteD : Nat := 0x40

/-- `PTE_A` -/
def pteA : Nat := 0x20

/-- `pagedir_set_dirty` -/
def pagedirSetDirty (pd vpage : Nat) (dirty : Bool) : M Unit := updatePte pd vpage (setFlag pteD dirty)

/-- `pagedir_set_accessed` -/
def pagedirSetAccessed (pd vpage : Nat) (accessed : Bool) : M Unit :=
  updatePte pd vpage (setFlag pteA accessed)

/-- The inner loop of `pagedir_destroy`, over the given entries of a page table. -/
def freePages (pt : Nat) : List Nat → M Unit
  | [] => pure ()
  | j :: js => do
    let s ← get
    if present (s.entry pt j) then pallocFreePage (pteGetPage (s.entry pt j))
    freePages pt js

/-- The outer loop of `pagedir_destroy`, over the given entries of the directory. -/
def freeTables (pd : Nat) : List Nat → M Unit
  | [] => pure ()
  | i :: is => do
    let s ← get
    if present (s.entry pd i) then do
      freePages (pdeGetPt (s.entry pd i)) (List.range 1024)
      pallocFreePage (pdeGetPt (s.entry pd i))
    freeTables pd is

/-- `pagedir_destroy` -/
def pagedirDestroy (pd : Nat) : M Unit := do
  let s ← get
  assert (pd != s.basePageDir)
  freeTables pd (List.range (pdNo physBase))
  pallocFreePage pd

end Pintos.Userprog.Loader
