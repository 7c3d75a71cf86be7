import Mathlib.Data.List.Basic
import Mathlib.Data.Nat.Bitwise
import Mathlib.Tactic.Common

/-!
# Hash tables (lib/kernel/hash.c)

An element is a pointer, known by its identity; what `hash` and `less` read through it does
not change while it is in the table. A bucket is the list of its elements, first one first.
The argument `alloc` says whether `malloc` has memory for the new buckets. The elements
are distinct objects in memory, so `elem_cnt` does not wrap.
-/

namespace Pintos.Kernel

structure Hash (α : Type) where
  elemCnt : Nat
  bucketCnt : Nat
  buckets : List (List α)
  /-- The hash function, with its auxiliary data. -/
  hash : α → UInt32
  less : α → α → Bool

namespace Hash

variable {α : Type} [DecidableEq α]

/-- `hash_clear`: the elements that the destructor is called for, if there is one. -/
def hashClear (h : Hash α) (destructor : Bool) : List α × Hash α :=
  (if destructor then h.buckets.flatten else [],
    { h with elemCnt := 0, buckets := h.buckets.map fun _ => [] })

/-- `hash_init`; `none` is false. -/
def hashInit (hash : α → UInt32) (less : α → α → Bool) (alloc : Bool) : Option (Hash α) :=
  if alloc then some (hashClear ⟨0, 4, List.replicate 4 [], hash, less⟩ false).2 else none

/-- `find_bucket` -/
def findBucket (h : Hash α) (e : α) : Nat := (h.hash e).toNat &&& (h.bucketCnt - 1)

/-- `find_elem` in the given bucket. -/
def findElem (h : Hash α) (bucket : Nat) (e : α) : Option α :=
  ((h.buckets[bucket]?).getD []).find? fun hi => !h.less hi e && !h.less e hi

/-- `list_push_front` to the given bucket. -/
def pushFront (h : Hash α) (bucket : Nat) (e : α) : Hash α :=
  { h with buckets := h.buckets.modify bucket (e :: ·) }

/-- `insert_elem` -/
def insertElem (h : Hash α) (bucket : Nat) (e : α) : Hash α :=
  { h with elemCnt := h.elemCnt + 1 }.pushFront bucket e

/-- `remove_elem`: `list_remove` takes the element out of the list it is in. -/
def removeElem (h : Hash α) (e : α) : Hash α :=
  { h with
    elemCnt := h.elemCnt - 1
    buckets := h.buckets.map (·.erase e) }

/-- `turn_off_least_1bit` -/
def turnOffLeast1bit (x : Nat) : Nat := x &&& (x - 1)

/-- `is_power_of_2` -/
def isPowerOf2 (x : Nat) : Bool := x != 0 && turnOffLeast1bit x == 0

/-- The loop of `rehash` over the bucket count, for at most the given number of rounds. -/
def powerLoop : Nat → Nat → Nat
  | 0, x => x
  | fuel + 1, x => if isPowerOf2 x then x else powerLoop fuel (turnOffLeast1bit x)

/-- The number of buckets that `rehash` computes; each round makes it smaller. -/
def newBucketCnt (elemCnt : Nat) : Nat :=
  let cnt := if elemCnt / 2 < 4 then 4 else elemCnt / 2
  powerLoop cnt cnt

/-- The loop over one old bucket: the first element goes to its new bucket. -/
def moveBucket (h : Hash α) : List α → Hash α
  | [] => h
  | elem :: next => moveBucket (h.pushFront (h.findBucket elem) elem) next

/-- The loop over the old buckets. -/
def moveBuckets (h : Hash α) : List (List α) → Hash α
  | [] => h
  | b :: bs => moveBuckets (h.moveBucket b) bs

def rehash (h : Hash α) (alloc : Bool) : Hash α :=
  let cnt := newBucketCnt h.elemCnt
  if cnt = h.bucketCnt then h
  else if alloc then
    moveBuckets { h with bucketCnt := cnt, buckets := List.replicate cnt [] } h.buckets
  else h

def hashInsert (h : Hash α) (new : α) (alloc : Bool) : Option α × Hash α :=
  let bucket := h.findBucket new
  match h.findElem bucket new with
  | none => (none, (h.insertElem bucket new).rehash alloc)
  | some old => (some old, h.rehash alloc)

def hashReplace (h : Hash α) (new : α) (alloc : Bool) : Option α × Hash α :=
  let bucket := h.findBucket new
  match h.findElem bucket new with
  | none => (none, (h.insertElem bucket new).rehash alloc)
  | some old => (some old, ((h.removeElem old).insertElem bucket new).rehash alloc)

def hashFind (h : Hash α) (e : α) : Option α := h.findElem (h.findBucket e) e

def hashDelete (h : Hash α) (e : α) (alloc : Bool) : Option α × Hash α :=
  match h.findElem (h.findBucket e) e with
  | none => (none, h)
  | some found => (some found, (h.removeElem found).rehash alloc)

end Hash

end Pintos.Kernel
