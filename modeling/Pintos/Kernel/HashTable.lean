import Pintos.Kernel.HashSpec
import Pintos.Kernel.ListOps

/-!
# Hash tables in memory (lib/kernel/hash.c)

The functions of `hash.c` on an array of `struct list`s. A `struct hash` is passed and returned; its
elements are list elements, at the same addresses. What `malloc` answers is an argument, and the loops
over a bucket take a bound on their rounds.
-/

namespace Pintos.Kernel

open Pintos.Base

structure HashTable where
  elemCnt : Nat
  bucketCnt : Nat
  buckets : Addr
  /-- The hash function, with its auxiliary data. -/
  hash : Addr → UInt32
  less : Addr → Addr → Bool

section

variable {ω : Type}

/-- The `struct list` at an address: two elements of 8 bytes. -/
def listAt (p : Nat) : KList := ⟨p, p + 8⟩

/-- The addresses of the elements in an array of `cnt` lists. -/
def InBuckets (p cnt a : Nat) : Prop := p ≤ a ∧ a < p + 16 * cnt ∧ (a - p) % 8 = 0

instance {p cnt a : Nat} : Decidable (InBuckets p cnt a) :=
  inferInstanceAs (Decidable (_ ∧ _ ∧ _))

/-- Memory that `malloc` returns, with what is in it. -/
structure Block where
  addr : Addr
  contents : Addr → Node Addr

/-- `malloc (sizeof *buckets * cnt)` -/
def mallocBuckets (answer : Option Block) (cnt : Nat) : ListM ω (Option Addr) :=
  match answer with
  | none => pure none
  | some b => do
    modify fun s => { s with node := fun a => if InBuckets b.addr cnt a then some (b.contents a) else s.node a }
    pure (some b.addr)

/-- `free (buckets)` -/
def freeBuckets (p : Addr) (cnt : Nat) : ListM ω Unit :=
  modify fun s => { s with node := fun a => if InBuckets p cnt a then none else s.node a }

/-- `for (i = 0; i < cnt; i++) body (&p[i]);` -/
def forBuckets (body : KList → ListM ω Unit) : (p : Addr) → (cnt : Nat) → ListM ω Unit
  | _, 0 => pure ()
  | p, cnt + 1 => do
    body (listAt p)
    forBuckets body (p + 16) cnt

/-- The `while` loop of `hash_clear`, at most `n` times. -/
def drainLoop (destructor : Addr → ListM ω Unit) (bucket : KList) : (n : Nat) → ListM ω Unit
  | 0 => throw .unfinished
  | n + 1 => do
    if ← listEmpty bucket then pure ()
    else do
      let listElem ← listPopFront bucket
      let hashElem ← derefPtr listElem
      destructor hashElem
      drainLoop destructor bucket n

/-- `if (destructor != NULL)`, and the loop. -/
def drainBucket (n : Nat) (destructor : Option (Addr → ListM ω Unit)) (bucket : KList) : ListM ω Unit :=
  match destructor with
  | none => pure ()
  | some destructor => drainLoop destructor bucket n

/-- The body of the `for` loop of `hash_clear`. -/
def clearBucket (n : Nat) (destructor : Option (Addr → ListM ω Unit)) (bucket : KList) : ListM ω Unit := do
  drainBucket n destructor bucket
  listInit bucket

namespace HashTable

def hashClear (n : Nat) (t : HashTable) (destructor : Option (Addr → ListM ω Unit)) : ListM ω HashTable := do
  forBuckets (clearBucket n destructor) t.buckets t.bucketCnt
  pure { t with elemCnt := 0 }

/-- `hash_init`; `none` is false. -/
def hashInit (hash : Addr → UInt32) (less : Addr → Addr → Bool) (answer : Option Block) :
    ListM ω (Option HashTable) := do
  match ← mallocBuckets answer 4 with
  | none => pure none
  | some buckets => do
    let t ← hashClear 0 ⟨0, 4, buckets, hash, less⟩ none
    pure (some t)

def findBucket (t : HashTable) (e : Addr) : KList :=
  listAt (t.buckets + 16 * ((t.hash e).toNat &&& (t.bucketCnt - 1)))

/-- The loop of `find_elem`, at most `n` times. -/
def findElemLoop (t : HashTable) (bucket : KList) (e : Addr) : (n : Nat) → Option Addr → ListM ω (Option Addr)
  | 0, _ => throw .unfinished
  | n + 1, i =>
    if i = some bucket.tail then pure none
    else do
      let hi ← derefPtr i
      if !t.less hi e && !t.less e hi then pure (some hi)
      else do
        let i ← listNext i
        findElemLoop t bucket e n i

def findElem (n : Nat) (t : HashTable) (bucket : KList) (e : Addr) : ListM ω (Option Addr) := do
  let i ← listBegin bucket
  findElemLoop t bucket e n i

def insertElem (t : HashTable) (bucket : KList) (e : Addr) : ListM ω HashTable := do
  listPushFront bucket e
  pure { t with elemCnt := t.elemCnt + 1 }

def removeElem (t : HashTable) (e : Addr) : ListM ω HashTable := do
  discard (listRemove (some e))
  pure { t with elemCnt := t.elemCnt - 1 }

/-- The loop of `rehash` over an old bucket, at most `n` times. -/
def moveLoop (t : HashTable) (oldBucket : KList) : (n : Nat) → (elem : Option Addr) → ListM ω Unit
  | 0, _ => throw .unfinished
  | n + 1, elem =>
    if elem = some oldBucket.tail then pure ()
    else do
      let e ← derefPtr elem
      let newBucket := t.findBucket e
      let next ← listNext elem
      discard (listRemove elem)
      listPushFront newBucket e
      moveLoop t oldBucket n next

def moveBucket (n : Nat) (t : HashTable) (oldBucket : KList) : ListM ω Unit := do
  let elem ← listBegin oldBucket
  moveLoop t oldBucket n elem

def rehash (n : Nat) (t : HashTable) (answer : Option Block) : ListM ω HashTable :=
  let cnt := Hash.newBucketCnt t.elemCnt
  if cnt = t.bucketCnt then pure t
  else do
    match ← mallocBuckets answer cnt with
    | none => pure t
    | some buckets => do
      forBuckets listInit buckets cnt
      let t' := { t with bucketCnt := cnt, buckets := buckets }
      forBuckets (moveBucket n t') t.buckets t.bucketCnt
      freeBuckets t.buckets t.bucketCnt
      pure t'

def hashInsert (n : Nat) (t : HashTable) (new : Addr) (answer : Option Block) :
    ListM ω (Option Addr × HashTable) := do
  let bucket := t.findBucket new
  let old ← findElem n t bucket new
  let t ← match old with
    | none => insertElem t bucket new
    | some _ => pure t
  let t ← rehash n t answer
  pure (old, t)

def hashReplace (n : Nat) (t : HashTable) (new : Addr) (answer : Option Block) :
    ListM ω (Option Addr × HashTable) := do
  let bucket := t.findBucket new
  let old ← findElem n t bucket new
  let t ← match old with
    | some old => removeElem t old
    | none => pure t
  let t ← insertElem t bucket new
  let t ← rehash n t answer
  pure (old, t)

def hashFind (n : Nat) (t : HashTable) (e : Addr) : ListM ω (Option Addr) := findElem n t (t.findBucket e) e

def hashDelete (n : Nat) (t : HashTable) (e : Addr) (answer : Option Block) :
    ListM ω (Option Addr × HashTable) := do
  let found ← findElem n t (t.findBucket e) e
  match found with
  | none => pure (none, t)
  | some found => do
    let t ← removeElem t found
    let t ← rehash n t answer
    pure (some found, t)

end HashTable

/-- **The rule for a loop over the buckets.** -/
theorem wp_forBuckets {E : Fault → Prop} {body : KList → ListM ω Unit} {I : Nat → Heap ω → Prop} {p cnt : Nat}
    (hbody : ∀ i < cnt, ∀ s, I i s → Wp E (body (listAt (p + 16 * i))) (fun _ s' => I (i + 1) s') s) {s : Heap ω}
    (h0 : I 0 s) : Wp E (forBuckets body p cnt) (fun _ s' => I cnt s') s := by
  induction cnt generalizing p I s with
  | zero => exact wp_pure.mpr h0
  | succ cnt ih =>
    refine (hbody 0 (Nat.succ_pos cnt) s h0).bind fun _ s' h1 => ?_
    refine ih (I := fun i => I (i + 1)) (fun i hi s hI => ?_) h1
    have hb := hbody (i + 1) (Nat.succ_lt_succ hi) s hI
    rwa [show p + 16 * (i + 1) = p + 16 + 16 * i by omega] at hb

end

/-! ## The lists of an array -/

def bucketLists (p cnt : Nat) (i : Fin cnt) : KList := listAt (p + 16 * i)

section

variable {ω : Type} {p cnt a : Nat}

theorem inBuckets_iff : InBuckets p cnt a ↔
    ∃ i : Fin cnt, a = (bucketLists p cnt i).head ∨ a = (bucketLists p cnt i).tail := by
  constructor
  · intro ⟨hp, ha, hm⟩
    refine ⟨⟨(a - p) / 16, by omega⟩, ?_⟩
    show a = p + 16 * ((a - p) / 16) ∨ a = p + 16 * ((a - p) / 16) + 8
    omega
  · rintro ⟨⟨i, hi⟩, rfl | rfl⟩
    · refine ⟨Nat.le_add_right .., ?_, ?_⟩
      · show p + 16 * i < p + 16 * cnt
        omega
      · show (p + 16 * i - p) % 8 = 0
        omega
    · refine ⟨?_, ?_, ?_⟩
      · show p ≤ p + 16 * i + 8
        omega
      · show p + 16 * i + 8 < p + 16 * cnt
        omega
      · show (p + 16 * i + 8 - p) % 8 = 0
        omega

/-- New buckets are empty lists, and nothing else changes. -/
theorem wp_initBuckets {s : Heap ω} (hs : ∀ a, InBuckets p cnt a → (s.node a).isSome) (E : Fault → Prop) :
    Wp E (forBuckets listInit p cnt) (fun _ s' => ∃ m, s' = { s with node := m } ∧
      (∀ i, Chain m (bucketLists p cnt i).head (bucketLists p cnt i).tail []) ∧
      ∀ a, ¬ InBuckets p cnt a → m a = s.node a) s := by
  have hloop : Wp E (forBuckets listInit p cnt) (fun _ s' => ∃ m, s' = { s with node := m } ∧
      (∀ j < cnt, Chain m (listAt (p + 16 * j)).head (listAt (p + 16 * j)).tail []) ∧
      (∀ a, (m a).isSome = (s.node a).isSome) ∧ ∀ a, ¬ InBuckets p cnt a → m a = s.node a) s := by
    refine wp_forBuckets (I := fun i s' => ∃ m, s' = { s with node := m } ∧
      (∀ j < i, Chain m (listAt (p + 16 * j)).head (listAt (p + 16 * j)).tail []) ∧
      (∀ a, (m a).isSome = (s.node a).isSome) ∧ ∀ a, ¬ InBuckets p cnt a → m a = s.node a) ?_ ?_
    · rintro i hi _ ⟨m, rfl, hc, hsome, hm⟩
      have hhead : InBuckets p cnt (listAt (p + 16 * i)).head := inBuckets_iff.mpr ⟨⟨i, hi⟩, .inl rfl⟩
      have htail : InBuckets p cnt (listAt (p + 16 * i)).tail := inBuckets_iff.mpr ⟨⟨i, hi⟩, .inr rfl⟩
      have hh : (m (listAt (p + 16 * i)).head).isSome := by rw [hsome, hs _ hhead]
      have ht : (m (listAt (p + 16 * i)).tail).isSome := by rw [hsome, hs _ htail]
      have hrun := listInit_run (s := { s with node := m }) hh ht
      rw [wp_of_ok hrun]
      refine ⟨_, rfl, fun j hj => ?_, fun a => ?_, fun a ha => ?_⟩
      · rcases Nat.eq_or_lt_of_le (Nat.le_of_lt_succ hj) with rfl | hj
        · exact chain_initList hh ht (by simp [listAt])
        · have hne : ∀ q ∈ [p + 16 * j, p + 16 * j + 8], q ≠ p + 16 * i ∧ q ≠ p + 16 * i + 8 := by
            simp only [List.mem_cons, List.not_mem_nil, or_false]
            omega
          exact (hc j hj).congr fun a ha => Nodes.initList_of_ne (hne a ha).1 (hne a ha).2
      · rw [← hsome a]
        simp [Nodes.initList]
      · rw [← hm a ha]
        exact Nodes.initList_of_ne (fun hc => ha (hc ▸ hhead)) fun hc => ha (hc ▸ htail)
    · exact ⟨s.node, rfl, by simp, fun _ => rfl, fun _ _ => rfl⟩
  apply hloop.mono
  rintro _ s' ⟨m, hs', hc, -, hm⟩
  exact ⟨m, hs', fun i => hc i i.isLt, hm⟩

end

end Pintos.Kernel
