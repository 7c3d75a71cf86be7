import Pintos.Kernel.HashLayout

/-!
# Iterating over hash tables (lib/kernel/hash.c)

An iterator starts at the head of the first bucket, as if it were an element. `hash_next` goes to the next
element of the bucket, or over the tail to the next bucket that has one. `hash_apply` has the successor of
an element before it gives the element to the action.
-/

namespace Pintos.Kernel

open Pintos.Base

/-- `struct hash_iterator` -/
structure HashIterator where
  hash : HashTable
  bucket : Addr
  elem : Option Addr

section

variable {ω : Type}

def hashFirst (h : HashTable) : HashIterator := ⟨h, h.buckets, some (listAt h.buckets).head⟩

/-- The loop of `hash_next`, at most `n` times. -/
def nextLoop : (n : Nat) → HashIterator → ListM ω HashIterator
  | 0, _ => throw .unfinished
  | n + 1, i =>
    if i.elem = some (listAt i.bucket).tail then
      let bucket := i.bucket + 16
      if i.hash.buckets + 16 * i.hash.bucketCnt ≤ bucket then pure { i with bucket := bucket, elem := none }
      else do
        let elem ← listBegin (listAt bucket)
        nextLoop n { i with bucket := bucket, elem := elem }
    else pure i

def hashNext (n : Nat) (i : HashIterator) : ListM ω (Option Addr × HashIterator) := do
  let elem ← listNext i.elem
  let i ← nextLoop n { i with elem := elem }
  pure (i.elem, i)

def hashCur (i : HashIterator) : Option Addr := i.elem

/-- `while (hash_next (&i))`, at most `k` times, with the elements that `hash_cur` returns. -/
def visitLoop (n : Nat) : (k : Nat) → HashIterator → ListM ω (List Addr)
  | 0, _ => throw .unfinished
  | k + 1, i => do
    let (e, i) ← hashNext n i
    if e = none then pure []
    else do
      let e ← derefPtr (hashCur i)
      let rest ← visitLoop n k i
      pure (e :: rest)

/-- The loop of `hash_apply` over a bucket, at most `n` times. -/
def applyLoop (action : Addr → ListM ω Unit) (bucket : KList) : (n : Nat) → (elem : Option Addr) → ListM ω Unit
  | 0, _ => throw .unfinished
  | n + 1, elem =>
    if elem = some bucket.tail then pure ()
    else do
      let next ← listNext elem
      let e ← derefPtr elem
      action e
      applyLoop action bucket n next

def applyBucket (n : Nat) (action : Addr → ListM ω Unit) (bucket : KList) : ListM ω Unit := do
  let elem ← listBegin bucket
  applyLoop action bucket n elem

def hashApply (n : Nat) (h : HashTable) (action : Addr → ListM ω Unit) : ListM ω Unit :=
  forBuckets (applyBucket n action) h.buckets h.bucketCnt

end

/-! ## The iterator -/

section

variable {ω : Type} {s : Heap ω} {m : Nodes Addr} {t : HashTable} {h : Hash Addr} {i : HashIterator}
  {u v r : List Addr} {n k : Nat}

/-- The iterator is at an element or at a head, and the elements behind it are in its bucket and in those
behind that. -/
inductive Behind (m : Nodes Addr) (t : HashTable) (h : Hash Addr) : HashIterator → List Addr → Prop where
  | intro (j : Fin t.bucketCnt) (u v : List Addr) (e : Addr) (hseq : h.seq j = u ++ v)
      (hnext : m.next e = some (v.headD (bucketLists t.buckets t.bucketCnt j).tail)) :
      Behind m t h ⟨t, t.buckets + 16 * j, some e⟩ (v ++ h.rest (j + 1))

/-- The iterator at the first of the elements. -/
def Reached (m : Nodes Addr) (t : HashTable) (h : Hash Addr) (i : HashIterator) (l : List Addr) : Prop :=
  i.elem = l.head? ∧ ∀ e r, l = e :: r → Behind m t h i r

/-- **The loop of `hash_next`**: over the tails of the buckets that have no more elements. -/
theorem nextLoop_run (L : Laid s.node t h) (hp : h.Placed) (j : Fin t.bucketCnt) (hseq : h.seq j = u ++ v)
    (hn : t.bucketCnt ≤ n + j) :
    ∃ i', nextLoop n ⟨t, t.buckets + 16 * j, some (v.headD (bucketLists t.buckets t.bucketCnt j).tail)⟩ s =
        .ok (i', s) ∧ Reached s.node t h i' (v ++ h.rest (j + 1)) := by
  induction n generalizing j u v with
  | zero =>
    have hj := j.isLt
    omega
  | succ n ih =>
    have hlen := L.length hp
    have c := L.lists.chain j
    rw [hseq] at c
    cases v with
    | cons e v =>
      have hne : ¬ some e = some (listAt (t.buckets + 16 * j)).tail := fun hc =>
        c.ne_tail (by simp) (Option.some.inj hc)
      refine ⟨⟨t, t.buckets + 16 * j, some e⟩, ?_, rfl, ?_⟩
      · rw [List.headD_cons, nextLoop, if_neg hne]
        rfl
      · rintro _ _ ⟨⟩
        exact .intro j (u ++ [e]) v e (by rw [hseq, List.append_assoc]; rfl) c.next_of_mem
    | nil =>
      have htail : some (bucketLists t.buckets t.bucketCnt j).tail = some (listAt (t.buckets + 16 * j)).tail := rfl
      rw [List.headD_nil, List.nil_append, nextLoop, if_pos htail]
      by_cases hlast : (j : Nat) + 1 = t.bucketCnt
      · have hend : ∀ p : Nat, p + 16 * t.bucketCnt ≤ p + 16 * (j : Nat) + 16 := by omega
        rw [if_pos (hend t.buckets), hlast, Hash.rest_length hlen]
        exact ⟨_, rfl, rfl, by rintro _ _ ⟨⟩⟩
      · have hlt : (j : Nat) + 1 < t.bucketCnt := Nat.lt_of_le_of_ne j.isLt hlast
        have hinside : ∀ p : Nat, ¬ p + 16 * t.bucketCnt ≤ p + 16 * (j : Nat) + 16 := by omega
        have hbegin := listBegin_run (L.lists.chain ⟨j + 1, hlt⟩)
        have hseq' : h.seq ⟨j + 1, hlt⟩ = [] ++ h.seq ⟨j + 1, hlt⟩ := rfl
        obtain ⟨i', hrun, hreached⟩ := ih ⟨j + 1, hlt⟩ hseq' (by
          show t.bucketCnt ≤ n + (j + 1)
          omega)
        rw [← Hash.rest_eq ⟨j + 1, hlt⟩ hlen] at hreached
        refine ⟨i', ?_, hreached⟩
        rw [if_neg (hinside t.buckets), bind_run]
        exact (congrArg (Except.bind · _) hbegin).trans hrun

theorem hashNext_run (L : Laid s.node t h) (hp : h.Placed) (hi : Behind s.node t h i r) (hn : t.bucketCnt ≤ n) :
    ∃ i', hashNext n i s = .ok ((r.head?, i'), s) ∧ Reached s.node t h i' r := by
  obtain ⟨j, u, v, e, hseq, hnext⟩ := hi
  obtain ⟨i', hrun, hreached⟩ := nextLoop_run L hp j hseq (Nat.le_add_right_of_le hn)
  refine ⟨i', ?_, hreached⟩
  rw [hashNext, bind_run, listNext_of_next hnext, ok_bind, bind_run, hrun, ok_bind, ← hreached.1]
  rfl

theorem visitLoop_run (L : Laid s.node t h) (hp : h.Placed) (hi : Behind s.node t h i r) (hn : t.bucketCnt ≤ n)
    (hk : r.length < k) : visitLoop n k i s = .ok (r, s) := by
  induction k generalizing i r with
  | zero => omega
  | succ k ih =>
    obtain ⟨i', hrun, helem, hbehind⟩ := hashNext_run L hp hi hn
    rw [visitLoop, bind_run, hrun, ok_bind]
    cases r with
    | nil => rfl
    | cons e r =>
      have hcur : hashCur i' = some e := helem
      have hrest := ih (hbehind e r rfl) (Nat.lt_of_succ_lt_succ hk)
      dsimp only
      rw [List.head?_cons, if_neg (Option.some_ne_none e), hcur, derefPtr, pure_bind, bind_run, hrest]
      rfl

/-- The head of the first bucket, as an element. -/
theorem behind_hashFirst (L : Laid s.node t h) (hp : h.Placed) : Behind s.node t h (hashFirst t) h.elems := by
  have hpos : 0 < t.bucketCnt := by
    have := hp.bucketCnt.2
    rw [L.bucketCnt]
    omega
  have hseq : h.seq ⟨0, hpos⟩ = [] ++ h.seq ⟨0, hpos⟩ := rfl
  have hrest := Hash.rest_eq ⟨0, hpos⟩ (L.length hp)
  rw [← h.rest_zero]
  exact hrest ▸ .intro ⟨0, hpos⟩ [] _ _ hseq (L.lists.chain ⟨0, hpos⟩).next_head

/-! ## `hash_apply` -/

variable {action : Addr → ListM ω Unit} {keep : Addr → Prop}

/-- What the action spares for the elements `u` is as before. -/
theorem Spares.forM {s s' : Heap ω} (hs : Spares action keep (u ++ v)) (hrun : u.forM action s = .ok ((), s')) {a : Addr}
    (ha : keep a ∨ a ∈ v) : s'.node a = s.node a := by
  induction u generalizing s with
  | nil =>
    cases hrun
    rfl
  | cons e u ih =>
    obtain ⟨_, s₁, h1, h2⟩ := ok_of_bind hrun
    rw [ih hs.2 h2]
    exact hs.1 s s₁ h1 a (ha.imp_right (List.mem_append_right u))

/-- **The loop over a bucket**, in a memory `m` whose elements in front of `v` may be gone. -/
theorem applyLoop_run {bucket : KList} (c : Chain m bucket.head bucket.tail (u ++ v)) (hs : Spares action keep (v ++ r))
    (hm : ∀ a, keep a ∨ a ∈ v ++ r → s.node a = m a) (hn : v.length < n) :
    applyLoop action bucket n (some (v.headD bucket.tail)) s = v.forM action s := by
  induction n generalizing u v s with
  | zero => omega
  | succ n ih =>
    cases v with
    | nil =>
      rw [List.headD_nil, applyLoop, if_pos rfl]
      rfl
    | cons e v =>
      have hne : ¬ some e = some bucket.tail := fun hc => c.ne_tail (by simp) (Option.some.inj hc)
      have hnext : s.node.next e = some (v.headD bucket.tail) := by
        rw [Nodes.next, hm e (.inr (List.mem_append_left r List.mem_cons_self))]
        exact c.next_of_mem
      have c' : Chain m bucket.head bucket.tail (u ++ [e] ++ v) := by simpa using c
      rw [List.headD_cons, applyLoop, if_neg hne, bind_run, listNext_of_next hnext, ok_bind, derefPtr, pure_bind,
        bind_run]
      show _ = (action e s).bind fun p => v.forM action p.2
      cases haction : action e s with
      | error f => rfl
      | ok p =>
        refine ih (s := p.2) c' hs.2 (fun a ha => ?_) (Nat.lt_of_succ_lt_succ hn)
        rw [hs.1 s p.2 haction a ha]
        exact hm a (ha.imp_right (List.mem_cons_of_mem e))

/-- **The loop over the buckets** from the bucket `j` on. -/
theorem applyBuckets_run (L : Laid m t h) (hp : h.Placed) {j : Nat}
    (hs : Spares action (InBuckets t.buckets t.bucketCnt) (h.rest j))
    (hm : ∀ a, InBuckets t.buckets t.bucketCnt a ∨ a ∈ h.rest j → s.node a = m a) (hn : h.elems.length < n)
    (hk : j + k = t.bucketCnt) :
    forBuckets (applyBucket n action) (t.buckets + 16 * j) k s = (h.rest j).forM action s := by
  have hlen := L.length hp
  induction k generalizing j s with
  | zero =>
    obtain rfl : j = t.bucketCnt := hk
    rw [Hash.rest_length hlen]
    rfl
  | succ k ih =>
    have hj : j < t.bucketCnt := by omega
    have hrest := Hash.rest_eq ⟨j, hj⟩ hlen
    dsimp only at hrest
    rw [hrest] at hs hm
    have c := L.lists.chain ⟨j, hj⟩
    have c' : Chain m _ _ ([] ++ h.seq ⟨j, hj⟩) := c
    have hlt : (h.seq (⟨j, hj⟩ : Fin t.bucketCnt)).length < n := Nat.lt_of_le_of_lt (length_seq_le _) hn
    -- nothing of this bucket is gone
    have hbegin := listBegin_run (s := s) (c.congr fun a ha => hm a (by
      rcases mem_nodes.mp ha with ha | ha
      · exact .inl (inBuckets_iff.mpr ⟨_, ha⟩)
      · exact .inr (List.mem_append_left _ ha)))
    have hbody : applyBucket n action (listAt (t.buckets + 16 * j)) s = (h.seq ⟨j, hj⟩).forM action s := by
      rw [applyBucket, bind_run]
      exact (congrArg (Except.bind · _) hbegin).trans (applyLoop_run c' hs hm hlt)
    rw [hrest, List.forM_eq_forM, List.forM_append, bind_run, forBuckets, bind_run, hbody]
    show ((h.seq ⟨j, hj⟩).forM action s).bind _ = ((h.seq ⟨j, hj⟩).forM action s).bind _
    cases hrun : (h.seq ⟨j, hj⟩).forM action s with
    | error f => rfl
    | ok p =>
      refine ih (j := j + 1) (s := p.2) hs.right (fun a ha => ?_) (by omega)
      rw [hs.forM hrun ha]
      exact hm a (ha.imp_right (List.mem_append_right _))

/-- An action that changes nothing but the element it is given spares the others. -/
theorem spares_others {l : List Addr}
    (haction : ∀ e s s', action e s = .ok ((), s') → ∀ a, a ≠ e → s'.node a = s.node a) (hnd : l.Nodup)
    (hkeep : ∀ e ∈ l, ¬ keep e) : Spares action keep l := by
  induction l with
  | nil => trivial
  | cons e l ih =>
    obtain ⟨he, hnd⟩ := List.nodup_cons.mp hnd
    refine ⟨fun s s' hrun a ha => haction e s s' hrun a ?_, ih hnd fun a ha => hkeep a (List.mem_cons_of_mem e ha)⟩
    rintro rfl
    exact ha.elim (hkeep a List.mem_cons_self) he

/-- The elements are not in the array. -/
theorem Laid.not_inBuckets (L : Laid m t h) (hp : h.Placed) {e : Addr} (he : e ∈ h.elems) :
    ¬ InBuckets t.buckets t.bucketCnt e := by
  intro hin
  obtain ⟨i, hi⟩ := inBuckets_iff.mp hin
  obtain ⟨j, hj⟩ := (Hash.mem_elems (L.length hp)).mp he
  obtain rfl := L.lists.apart i j e (mem_nodes.mpr (.inl hi)) (mem_nodes.mpr (.inr hj))
  have hnd := (L.lists.chain i).run.nodup
  rcases hi with rfl | rfl <;> grind

/-- In a table it spares the array too, and may free its element. -/
theorem Tabled.Good.spares {c : Tabled ω} (g : c.Good)
    (haction : ∀ e s s', action e s = .ok ((), s') → ∀ a, a ≠ e → s'.node a = s.node a) :
    Spares action (InBuckets c.table.buckets c.table.bucketCnt) c.model.elems :=
  spares_others haction (g.valid.distinct.nodup g.lawful.classes) fun _ => g.laid.not_inBuckets g.valid.toPlaced

/-- **Iteration is complete**: for every table that the functions of `hash.c` make of a new one, whatever
`malloc` answers and whatever other code does to other memory, `hash_next` returns each stored element
once and then a null pointer, and `hash_apply` gives each of them to its action once, also when that
frees it. -/
theorem hash_iteration_complete {c₀ c : Tabled ω} {hash : Addr → UInt32} {less : Addr → Addr → Bool}
    (horder : IsStrictWeakOrder Addr fun a b => less a b = true)
    (hhash : ∀ a b, incomparable less a b = true → hash a = hash b) (hc : c₀.Created hash less)
    (hr : Reach Tabled.step (fun c call => call.Legal c) c₀ c) :
    c.model.elems.Nodup ∧
    (∀ n e, c.table.elemCnt < n →
      (e ∈ c.model.elems ↔ c.table.hashFind n e c.heap = .ok (some e, c.heap))) ∧
    (∀ n k, c.table.bucketCnt ≤ n → c.table.elemCnt < k →
      visitLoop n k (hashFirst c.table) c.heap = .ok (c.model.elems, c.heap)) ∧
    ∀ n action, c.table.elemCnt < n → Spares action (InBuckets c.table.buckets c.table.bucketCnt) c.model.elems →
      hashApply n c.table action c.heap = c.model.elems.forM action c.heap := by
  have g := Tabled.good_of_reach horder hhash hc hr
  have hp := g.valid.toPlaced
  have hcnt : c.table.elemCnt = c.model.elems.length := g.laid.elemCnt.trans g.valid.elemCnt
  rw [hcnt]
  refine ⟨g.valid.distinct.nodup g.lawful.classes, fun n e hn => ?_, fun n k hn hk => ?_, fun n action hn hs => ?_⟩
  · have hview : c.model.view e = some e ↔ e ∈ c.model.elems := by
      rw [Hash.view, lookup_eq_some g.lawful.classes g.valid.distinct]
      exact ⟨fun he => he.1, fun he => ⟨he, g.lawful.classes.refl e⟩⟩
    rw [HashTable.hashFind, g.laid.findElem_run hp hn e, g.valid.findElem g.lawful, ← hview]
    simp
  · exact visitLoop_run g.laid hp (behind_hashFirst g.laid hp) hn hk
  · exact applyBuckets_run (j := 0) g.laid hp hs (fun _ _ => rfl) hn (Nat.zero_add _)

end

/-- `free` of an element -/
def freeElem (e : Addr) : ListM Unit Unit := modify fun s => { s with node := Function.update s.node e none }

/-- Elements in no list. -/
def looseElems : Heap Unit where
  node a := if a < 12 then some ⟨none, none⟩ else none
  data := ()

/-- `hash_init`, when `malloc` returns the address 1000. -/
def newTabled : Option (Tabled Unit) :=
  match HashTable.hashInit halfHash halfLess (some ⟨1000, fun _ => ⟨none, none⟩⟩) looseElems with
  | .ok (some t, s) => (Hash.hashInit halfHash halfLess true).map fun h => ⟨s, t, h⟩
  | _ => none

theorem newTabled_created {c : Tabled Unit} (hc : newTabled = some c) : c.Created halfHash halfLess := by
  unfold newTabled at hc
  split at hc
  · next t s hinit =>
    obtain ⟨h, hh, rfl⟩ := Option.map_eq_some_iff.mp hc
    exact ⟨⟨_, _, hinit⟩, hh⟩
  · cases hc

/-- An insertion that may be called, while there is no memory. -/
def insertsUsable (c : Tabled Unit) : HashCall Unit → Bool
  | .insert new none => (c.heap.node new).isSome && !decide (InBuckets c.table.buckets c.table.bucketCnt new)
  | _ => false

theorem insertsUsable_legal (c : Tabled Unit) (call : HashCall Unit) (h : insertsUsable c call = true) :
    call.Legal c := by
  unfold insertsUsable at h
  split at h
  · next new =>
    rw [Bool.and_eq_true, Bool.not_eq_true', decide_eq_false_iff_not] at h
    exact ⟨h, fun _ hb => by cases hb⟩
  · cases h

/-- Two elements in one bucket, one in another; 3 is equal to 2. -/
def fourInsertions : List (HashCall Unit) := [.insert 2 none, .insert 10 none, .insert 3 none, .insert 5 none]

theorem fourInsertions_visited : ∃ c₀ c : Tabled Unit, newTabled = some c₀ ∧
    Reach Tabled.step (fun c call => insertsUsable c call = true) c₀ c ∧
    visitLoop 4 4 (hashFirst c.table) c.heap = .ok ([10, 2, 5], c.heap) ∧
    hashApply 4 c.table freeElem c.heap = [10, 2, 5].forM freeElem c.heap := by
  have hrun : (newTabled.bind fun c₀ =>
      (runFrom (guarded Tabled.step fun c call => insertsUsable c call = true) c₀ fourInsertions).map fun c =>
        (c.model.elems, c.table.elemCnt, c.table.bucketCnt)) = some ([10, 2, 5], 3, 4) := by
    decide +kernel
  obtain ⟨c₀, hc₀, hrun⟩ := Option.bind_eq_some_iff.mp hrun
  obtain ⟨c, hcalls, hfacts⟩ := Option.map_eq_some_iff.mp hrun
  simp only [Prod.mk.injEq] at hfacts
  obtain ⟨helems, hcnt, hbuckets⟩ := hfacts
  have hr := reach_of_guarded fourInsertions hcalls
  obtain ⟨hnd, -, hvisit, happly⟩ := hash_iteration_complete halfLess_order halfHash_eq (newTabled_created hc₀)
    (hr.mono insertsUsable_legal)
  have g := Tabled.good_of_reach halfLess_order halfHash_eq (newTabled_created hc₀) (hr.mono insertsUsable_legal)
  have hspares : Spares freeElem (InBuckets c.table.buckets c.table.bucketCnt) c.model.elems := by
    apply g.spares
    rintro e s _ ⟨⟩ a ha
    exact Function.update_of_ne ha _ _
  have hfreed := happly 4 freeElem (hcnt ▸ by decide) hspares
  rw [helems, hcnt, hbuckets] at hvisit
  rw [helems] at hfreed
  exact ⟨c₀, c, hc₀, hr, hvisit 4 4 (by decide) (by decide), hfreed⟩

end Pintos.Kernel
