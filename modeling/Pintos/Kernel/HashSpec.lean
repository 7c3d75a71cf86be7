import Mathlib.Data.UInt
import Mathlib.Data.List.ModifyLast
import Pintos.Base.Classes
import Pintos.Base.Reach
import Pintos.Kernel.Hash

/-!
# The hash table is a finite map

What the table stores, as a map from the classes of equivalent elements, and the invariant
that the operations keep: whatever `malloc` answers, an element is in the bucket of its
hash value for the current number of buckets.
-/

namespace Pintos.Kernel

open Pintos.Base

/-! ## The number of buckets -/

theorem turnOffLeast1bit_lt {x : Nat} (h : x ≠ 0) : Hash.turnOffLeast1bit x < x := by
  have := @Nat.and_le_right x (x - 1)
  unfold Hash.turnOffLeast1bit
  omega

theorem isPowerOf2_iff {x : Nat} : Hash.isPowerOf2 x = true ↔ x.isPowerOfTwo := by
  simp [Hash.isPowerOf2, Hash.turnOffLeast1bit, ← Nat.ne_zero_and_sub_one_eq_zero_iff_isPowerOfTwo]

/-- The highest bit stays. -/
theorem le_turnOffLeast1bit {x k : Nat} (hx : 2 ^ k ≤ x) (hp : ¬ x.isPowerOfTwo) :
    2 ^ k ≤ Hash.turnOffLeast1bit x := by
  have hpos : 0 < 2 ^ k := Nat.two_pow_pos k
  have hbit := Nat.and_sub_one_testBit_log2 (n := x) (by omega) hp
  have hk : k ≤ x.log2 := (Nat.le_log2 (by omega)).mpr hx
  exact (Nat.pow_le_pow_right (by decide) hk).trans (Nat.ge_two_pow_of_testBit hbit)

theorem powerLoop_spec {k : Nat} : ∀ {fuel x : Nat}, x ≤ fuel → 2 ^ k ≤ x →
    (Hash.powerLoop fuel x).isPowerOfTwo ∧ 2 ^ k ≤ Hash.powerLoop fuel x
  | 0, x, hf, hx => absurd hx (Nat.not_le.mpr (Nat.lt_of_le_of_lt hf (Nat.two_pow_pos k)))
  | fuel + 1, x, hf, hx => by
    unfold Hash.powerLoop
    split
    · next hp => exact ⟨isPowerOf2_iff.mp hp, hx⟩
    · next hp =>
      have hpos : 0 < 2 ^ k := Nat.two_pow_pos k
      have hlt := turnOffLeast1bit_lt (x := x) (by omega)
      exact powerLoop_spec (by omega) (le_turnOffLeast1bit hx (mt isPowerOf2_iff.mpr hp))

/-- A power of two that is at least 4. -/
def BucketCount (n : Nat) : Prop := n.isPowerOfTwo ∧ 4 ≤ n

theorem newBucketCnt_count (elemCnt : Nat) : BucketCount (Hash.newBucketCnt elemCnt) := by
  have h : 2 ^ 2 ≤ if elemCnt / 2 < 4 then 4 else elemCnt / 2 := by
    split
    · decide
    · omega
  exact powerLoop_spec le_rfl h

namespace Hash

variable {α : Type}

/-! ## The elements -/

def elems (h : Hash α) : List α := h.buckets.flatten

/-- Equivalent elements. -/
def same (h : Hash α) : α → α → Bool := incomparable h.less

/-- What the table stores. -/
def view (h : Hash α) : α → Option α := lookup h.same h.elems

/-- The buckets, without the number of elements. -/
structure Placed (h : Hash α) : Prop where
  bucketCnt : BucketCount h.bucketCnt
  length : h.buckets.length = h.bucketCnt
  place : ∀ i b, h.buckets[i]? = some b → ∀ e ∈ b, h.findBucket e = i

structure Valid (h : Hash α) : Prop extends Placed h where
  elemCnt : h.elemCnt = h.elems.length
  distinct : OnePerClass h.same h.elems

/-- Only buckets, their number and the number of elements differ. -/
structure SameFuns (h h' : Hash α) : Prop where
  hash : h'.hash = h.hash
  less : h'.less = h.less

section

variable {h h' : Hash α} {e : α} {l : List α}

theorem SameFuns.same (hf : SameFuns h h') : h'.same = h.same := congrArg incomparable hf.less

theorem SameFuns.trans {h'' : Hash α} (hf : SameFuns h h') (hf' : SameFuns h' h'') :
    SameFuns h h'' := ⟨hf'.hash.trans hf.hash, hf'.less.trans hf.less⟩

theorem findBucket_lt (hc : BucketCount h.bucketCnt) (e : α) : h.findBucket e < h.bucketCnt := by
  obtain ⟨⟨k, hk⟩, -⟩ := hc
  unfold findBucket
  rw [hk, Nat.and_two_pow_sub_one_eq_mod]
  exact Nat.mod_lt _ (Nat.two_pow_pos k)

/-- Adding an element to a list of lists. -/
theorem flatten_modify_perm {bs : List (List α)} {i : Nat} (hi : i < bs.length) (e : α) :
    (bs.modify i (e :: ·)).flatten.Perm (e :: bs.flatten) := by
  rw [List.modify_eq_take_cons_drop hi, List.flatten_append, List.flatten_cons]
  conv_rhs => rw [← List.take_append_drop i bs, List.drop_eq_getElem_cons hi, List.flatten_append,
    List.flatten_cons]
  exact List.perm_middle

/-- What `list_push_front` to the bucket of the element does. -/
structure Pushed (h h' : Hash α) (l : List α) : Prop where
  placed : h'.Placed
  elems : h'.elems.Perm (l ++ h.elems)
  funs : SameFuns h h'
  elemCnt : h'.elemCnt = h.elemCnt

theorem Placed.pushFront (hp : h.Placed) (e : α) :
    Pushed h (h.pushFront (h.findBucket e) e) [e] := by
  have hlt : h.findBucket e < h.buckets.length := by
    rw [hp.length]
    exact findBucket_lt hp.bucketCnt e
  refine ⟨⟨hp.bucketCnt, ?_, fun i b hb x hx => ?_⟩, flatten_modify_perm hlt e, ⟨rfl, rfl⟩, rfl⟩
  · exact (List.length_modify ..).trans hp.length
  · show h.findBucket x = i
    obtain ⟨b', hb', rfl⟩ := Option.map_eq_some_iff.mp ((List.getElem?_modify ..).symm.trans hb)
    split at hx
    · next hi =>
      rcases List.mem_cons.mp hx with rfl | hx
      · exact hi
      · exact hp.place i b' hb' x hx
    · exact hp.place i b' hb' x hx

theorem Placed.moveBucket (b : List α) : ∀ {h : Hash α}, h.Placed → Pushed h (h.moveBucket b) b := by
  induction b with
  | nil => exact fun hp => ⟨hp, .rfl, ⟨rfl, rfl⟩, rfl⟩
  | cons e b ih =>
    intro h hp
    have h1 := hp.pushFront e
    have h2 := ih h1.placed
    refine ⟨h2.placed, h2.elems.trans ?_, h1.funs.trans h2.funs, h2.elemCnt.trans h1.elemCnt⟩
    exact (List.Perm.append_left b h1.elems).trans List.perm_middle

theorem Placed.moveBuckets (bs : List (List α)) :
    ∀ {h : Hash α}, h.Placed → Pushed h (h.moveBuckets bs) bs.flatten := by
  induction bs with
  | nil => exact fun hp => ⟨hp, .rfl, ⟨rfl, rfl⟩, rfl⟩
  | cons b bs ih =>
    intro h hp
    have h1 := hp.moveBucket b
    have h2 := ih h1.placed
    refine ⟨h2.placed, h2.elems.trans ?_, h1.funs.trans h2.funs, h2.elemCnt.trans h1.elemCnt⟩
    rw [List.flatten_cons, List.append_assoc]
    apply (List.Perm.append_left _ h1.elems).trans
    rw [← List.append_assoc, ← List.append_assoc]
    exact List.perm_append_comm.append_right _

theorem placed_empty {n : Nat} (hc : BucketCount n) (elemCnt : Nat) (hash : α → UInt32)
    (less : α → α → Bool) : Placed ⟨elemCnt, n, List.replicate n [], hash, less⟩ ∧
      elems ⟨elemCnt, n, List.replicate n [], hash, less⟩ = [] := by
  refine ⟨⟨hc, List.length_replicate, fun i b hi e he => ?_⟩, by simp [elems]⟩
  rw [List.getElem?_replicate] at hi
  split at hi
  · cases hi
    cases he
  · cases hi

/-- The table has the elements `l` and the functions of another one. -/
structure Holding (h h' : Hash α) (l : List α) : Prop where
  valid : h'.Valid
  elems : h'.elems.Perm l
  funs : SameFuns h h'

/-- **`rehash`** keeps what the table stores, whatever `malloc` answers. -/
theorem Valid.rehash (hv : h.Valid) (hcl : Classes h.same) (alloc : Bool) :
    Holding h (h.rehash alloc) h.elems := by
  have hstay : Holding h h h.elems := ⟨hv, .rfl, ⟨rfl, rfl⟩⟩
  unfold Hash.rehash
  simp only
  split
  · exact hstay
  · cases alloc with
    | false => exact hstay
    | true =>
      have hp := placed_empty (newBucketCnt_count h.elemCnt) h.elemCnt h.hash h.less
      have hm := hp.1.moveBuckets h.buckets
      have hperm := hm.elems
      rw [hp.2, List.append_nil] at hperm
      refine ⟨⟨hm.placed, hm.elemCnt.trans (hv.elemCnt.trans hperm.length_eq.symm), ?_⟩, hperm,
        hm.funs.hash, hm.funs.less⟩
      have hsame := hm.funs.same
      exact hsame ▸ hv.distinct.perm hcl hperm.symm

/-! ## The operations -/

/-- What the caller of `hash_init` has to promise: equivalent elements have equal hashes. -/
structure Lawful (h : Hash α) : Prop where
  classes : Classes h.same
  hash : ∀ a b, h.same a b = true → h.hash a = h.hash b

theorem SameFuns.lawful (hf : SameFuns h h') (hl : h.Lawful) : h'.Lawful :=
  ⟨hf.same ▸ hl.classes, by rw [hf.same, hf.hash]; exact hl.hash⟩

/-- `find_elem` in the bucket of the element finds what the table stores. -/
theorem Valid.findElem (hv : h.Valid) (hl : h.Lawful) (e : α) :
    h.findElem (h.findBucket e) e = h.view e := by
  have hlt : h.findBucket e < h.buckets.length := by
    rw [hv.length]
    exact findBucket_lt hv.bucketCnt e
  have hget : h.buckets[h.findBucket e]? = some h.buckets[h.findBucket e] :=
    List.getElem?_eq_getElem hlt
  rw [Hash.findElem, hget]
  refine lookup_sublist hl.classes hv.distinct
    (List.sublist_flatten_of_mem (List.getElem_mem hlt)) fun a ha hs => ?_
  obtain ⟨b, hb, hab⟩ := List.mem_flatten.mp ha
  obtain ⟨i, hi, rfl⟩ := List.getElem_of_mem hb
  have hplace : h.findBucket a = i := hv.place i _ (List.getElem?_eq_getElem hi) a hab
  have hsame : h.findBucket a = h.findBucket e := by
    rw [Hash.findBucket, hl.hash a e hs]
    rfl
  obtain rfl : h.findBucket e = i := hsame.symm.trans hplace
  exact hab

theorem Valid.insertElem (hv : h.Valid) (hl : h.Lawful) (hno : h.view e = none) :
    Holding h (h.insertElem (h.findBucket e) e) (e :: h.elems) := by
  have hp : Placed { h with elemCnt := h.elemCnt + 1 } := ⟨hv.bucketCnt, hv.length, hv.place⟩
  have hm := hp.pushFront e
  have hdistinct : OnePerClass h.same (e :: h.elems) := hv.distinct.cons hl.classes hno
  refine ⟨⟨hm.placed, ?_, hdistinct.perm hl.classes hm.elems.symm⟩, hm.elems, ⟨rfl, rfl⟩⟩
  exact (congrArg (· + 1) hv.elemCnt).trans hm.elems.length_eq.symm

theorem Holding.rehash (hh : Holding h h' l) (hl : h.Lawful) (alloc : Bool) :
    Holding h (h'.rehash alloc) l := by
  have hr := hh.valid.rehash (hh.funs.lawful hl).classes alloc
  exact ⟨hr.valid, hr.elems.trans hh.elems, hh.funs.trans hr.funs⟩

/-- What the table stores, from its elements in any order. -/
theorem Holding.view (hh : Holding h h' l) (hl : h.Lawful) : h'.view = lookup h.same l := by
  have hsame := hh.funs.same
  rw [Hash.view, hsame]
  exact lookup_perm hl.classes (hsame ▸ hh.valid.distinct) hh.elems

theorem Holding.trans {h'' : Hash α} {l' : List α} (hh : Holding h h' l) (hh' : Holding h' h'' l') :
    Holding h h'' l' := ⟨hh'.valid, hh'.elems, hh.funs.trans hh'.funs⟩

theorem Valid.mem_of_view (hv : h.Valid) (hl : h.Lawful) {x a : α} (hx : h.view x = some a) :
    a ∈ h.elems ∧ h.same a x = true := (lookup_eq_some hl.classes hv.distinct).mp hx

/-- What an operation returns and the map it leaves. -/
structure Does (h : Hash α) (r : Option α × Hash α) (ret : Option α) (m : α → Option α) : Prop where
  ret : r.1 = ret
  view : r.2.view = m
  valid : r.2.Valid
  funs : SameFuns h r.2

theorem Holding.does (hh : Holding h h' l) (hl : h.Lawful) {r : Option α} {m : α → Option α}
    (hm : lookup h.same l = m) : Does h (r, h') r m :=
  ⟨rfl, (hh.view hl).trans hm, hh.valid, hh.funs⟩

theorem Valid.hashFind (hv : h.Valid) (hl : h.Lawful) (e : α) :
    Does h (h.hashFind e, h) (h.view e) h.view :=
  ⟨hv.findElem hl e, rfl, hv, rfl, rfl⟩

theorem Valid.hashInsert (hv : h.Valid) (hl : h.Lawful) (new : α) (alloc : Bool) :
    Does h (h.hashInsert new alloc) (h.view new)
      (if (h.view new).isSome then h.view else put h.same h.view new) := by
  rw [Hash.hashInsert]
  simp only [hv.findElem hl]
  cases hf : h.view new with
  | none => exact ((hv.insertElem hl hf).rehash hl alloc).does hl (lookup_cons new h.elems)
  | some old => exact (hv.rehash hl.classes alloc).does hl rfl

theorem Valid.hashClear (hv : h.Valid) (destructor : Bool) :
    Does h (none, (h.hashClear destructor).2) none fun _ => none := by
  have hnil : (h.hashClear destructor).2.elems = [] := by simp [Hash.hashClear, elems]
  refine ⟨rfl, ?_, ⟨⟨hv.bucketCnt, ?_, fun i b hb x hx => ?_⟩, ?_, ?_⟩, rfl, rfl⟩
  · funext x
    rw [Hash.view, hnil]
    rfl
  · exact (List.length_map ..).trans hv.length
  · obtain ⟨b', -, rfl⟩ := Option.map_eq_some_iff.mp ((List.getElem?_map ..).symm.trans hb)
    cases hx
  · rw [hnil]
    rfl
  · rw [hnil]
    exact .nil

variable [DecidableEq α]

theorem flatten_map_erase (e : α) (bs : List (List α)) (hn : bs.flatten.Nodup) :
    (bs.map (·.erase e)).flatten = bs.flatten.erase e := by
  induction bs with
  | nil => rfl
  | cons b bs ih =>
    rw [List.flatten_cons] at hn ⊢
    rw [List.map_cons, List.flatten_cons, ih hn.of_append_right, List.erase_append]
    split
    · next hb =>
      rw [List.erase_of_not_mem fun he => List.disjoint_of_nodup_append hn hb he]
    · next hb => rw [List.erase_of_not_mem hb]

theorem Valid.removeElem (hv : h.Valid) (hl : h.Lawful) (he : e ∈ h.elems) :
    Holding h (h.removeElem e) (h.elems.erase e) := by
  have heq : (h.removeElem e).elems = h.elems.erase e :=
    flatten_map_erase e h.buckets (hv.distinct.nodup hl.classes)
  refine ⟨⟨⟨hv.bucketCnt, (List.length_map ..).trans hv.length, fun i b hb x hx => ?_⟩, ?_, ?_⟩, ?_,
    ⟨rfl, rfl⟩⟩
  · obtain ⟨b', hb', rfl⟩ := Option.map_eq_some_iff.mp ((List.getElem?_map ..).symm.trans hb)
    exact hv.place i b' hb' x (List.mem_of_mem_erase hx)
  · rw [heq, List.length_erase_of_mem he, ← hv.elemCnt]
    rfl
  · rw [heq]
    exact List.Pairwise.sublist List.erase_sublist hv.distinct
  · rw [heq]

theorem Valid.hashReplace (hv : h.Valid) (hl : h.Lawful) (new : α) (alloc : Bool) :
    Does h (h.hashReplace new alloc) (h.view new) (put h.same h.view new) := by
  rw [Hash.hashReplace]
  simp only [hv.findElem hl]
  cases hf : h.view new with
  | none => exact ((hv.insertElem hl hf).rehash hl alloc).does hl (lookup_cons new h.elems)
  | some old =>
    obtain ⟨hold, hs⟩ := hv.mem_of_view hl hf
    have hrem := hv.removeElem hl hold
    have hdrop : (h.removeElem old).view = drop h.same h.view old :=
      (hrem.view hl).trans (lookup_erase hl.classes hv.distinct hold)
    have hno : (h.removeElem old).view new = none := by
      rw [hdrop, drop, if_pos hs]
    have hins := hrem.trans (hrem.valid.insertElem (hrem.funs.lawful hl) hno)
    apply (hins.rehash hl alloc).does hl
    rw [lookup_cons, ← put_drop hl.classes hs h.view, ← hdrop]
    rfl

theorem Valid.hashDelete (hv : h.Valid) (hl : h.Lawful) (e : α) (alloc : Bool) :
    Does h (h.hashDelete e alloc) (h.view e) (drop h.same h.view e) := by
  rw [Hash.hashDelete]
  simp only [hv.findElem hl]
  cases hf : h.view e with
  | none => exact ⟨rfl, (drop_of_none hl.classes hf).symm, hv, rfl, rfl⟩
  | some found =>
    obtain ⟨hmem, hs⟩ := hv.mem_of_view hl hf
    apply ((hv.removeElem hl hmem).rehash hl alloc).does hl
    rw [lookup_erase hl.classes hv.distinct hmem]
    exact drop_congr hl.classes hs h.view

end

/-! ## Runs -/

inductive Op (α : Type) where
  | insert (new : α) (alloc : Bool)
  | replace (new : α) (alloc : Bool)
  | find (e : α)
  | delete (e : α) (alloc : Bool)
  | clear (destructor : Bool)

/-- What an operation returns, and the table it leaves. -/
def run [DecidableEq α] (h : Hash α) : Op α → Option α × Hash α
  | .insert new alloc => h.hashInsert new alloc
  | .replace new alloc => h.hashReplace new alloc
  | .find e => (h.hashFind e, h)
  | .delete e alloc => h.hashDelete e alloc
  | .clear destructor => (none, (h.hashClear destructor).2)

def step [DecidableEq α] (h : Hash α) (op : Op α) : Option (Hash α) := some (h.run op).2

/-- The operations of a finite map from classes to elements. -/
def mapRun (same : α → α → Bool) (m : α → Option α) : Op α → Option α × (α → Option α)
  | .insert new _ => (m new, if (m new).isSome then m else put same m new)
  | .replace new _ => (m new, put same m new)
  | .find e => (m e, m)
  | .delete e _ => (m e, drop same m e)
  | .clear _ => (none, fun _ => none)

theorem valid_hashInit {h : Hash α} {hash : α → UInt32} {less : α → α → Bool} {alloc : Bool}
    (hinit : hashInit hash less alloc = some h) :
    h.Valid ∧ h.view = (fun _ => none) ∧ h.hash = hash ∧ h.less = less := by
  unfold hashInit at hinit
  split at hinit
  · cases hinit
    have hcount : BucketCount 4 := ⟨⟨2, rfl⟩, le_rfl⟩
    obtain ⟨hp, hnil⟩ := placed_empty hcount 0 hash less
    have hv : Valid ⟨0, 4, List.replicate 4 [], hash, less⟩ :=
      ⟨hp, by rw [hnil]; rfl, by rw [hnil]; exact .nil⟩
    have hd := hv.hashClear false
    exact ⟨hd.valid, hd.view, rfl, rfl⟩
  · cases hinit

section

variable {h h' : Hash α} [DecidableEq α]

theorem Valid.run (hv : h.Valid) (hl : h.Lawful) (op : Op α) :
    Does h (h.run op) (mapRun h.same h.view op).1 (mapRun h.same h.view op).2 := by
  cases op with
  | insert new alloc => exact hv.hashInsert hl new alloc
  | replace new alloc => exact hv.hashReplace hl new alloc
  | find e => exact hv.hashFind hl e
  | delete e alloc => exact hv.hashDelete hl e alloc
  | clear destructor => exact hv.hashClear destructor

end

/-- The invariants of a table, and what its operations do to the map it stores. -/
structure Refines (h : Hash α) [DecidableEq α] (less : α → α → Bool) : Prop where
  /-- At most one element of each class. -/
  distinct : OnePerClass (incomparable less) h.elems
  elemCnt : h.elemCnt = h.elems.length
  bucketCnt : h.bucketCnt.isPowerOfTwo ∧ 4 ≤ h.bucketCnt
  length : h.buckets.length = h.bucketCnt
  place : ∀ i b, h.buckets[i]? = some b → ∀ e ∈ b, h.findBucket e = i
  stored : ∀ e, e ∈ h.elems ↔ h.view e = some e
  /-- An operation returns and leaves what the operation of the map does. -/
  op : ∀ op, ((h.run op).1, (h.run op).2.view) = mapRun (incomparable less) h.view op
  cleared : (h.hashClear true).1 = h.elems

end Hash

open Hash

/-- Pairs of numbers are one class. -/
def halfLess (a b : Nat) : Bool := a / 2 < b / 2

def halfHash (a : Nat) : UInt32 := UInt32.ofNat (a / 2)

theorem halfLess_order : IsStrictWeakOrder Nat fun a b => halfLess a b = true where
  irrefl a := by simp [halfLess]
  trans a b c := by
    simp only [halfLess, decide_eq_true_eq]
    omega
  incomp_trans a b c := by
    simp only [halfLess, decide_eq_true_eq]
    omega

theorem halfHash_eq (a b : Nat) (hab : incomparable halfLess a b = true) : halfHash a = halfHash b := by
  simp only [incomparable, halfLess, Bool.and_eq_true, Bool.not_eq_true', decide_eq_false_iff_not] at hab
  rw [halfHash, halfHash, show a / 2 = b / 2 by omega]

end Pintos.Kernel
