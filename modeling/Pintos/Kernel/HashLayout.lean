import Pintos.Kernel.HashTable

/-!
# The hash table in memory refines the hash table (lib/kernel/hash.c)

`Laid` relates the memory of a table to a table of `Hash`: the buckets are lists in the array, with the
elements of the buckets there. Each function keeps it and returns what its counterpart returns. Other
code may do what it wants to memory that is no part of the table.
-/

namespace Pintos.Kernel

open Pintos.Base

namespace Hash

section

variable {α : Type} {h : Hash α} {n : Nat}

/-- The elements of a bucket. -/
def seq (h : Hash α) (i : Fin n) : List α := (h.buckets[(i : Nat)]?).getD []

theorem seq_eq (i : Fin n) (hi : i < h.buckets.length) : h.seq i = h.buckets[(i : Nat)] := by
  rw [seq, List.getElem?_eq_getElem hi]
  rfl

theorem mem_elems {e : α} (hlen : h.buckets.length = n) : e ∈ h.elems ↔ ∃ i : Fin n, e ∈ h.seq i := by
  rw [elems, List.mem_flatten]
  constructor
  · rintro ⟨b, hb, he⟩
    obtain ⟨i, hi, rfl⟩ := List.getElem_of_mem hb
    exact ⟨⟨i, hlen ▸ hi⟩, by rwa [seq_eq _ hi]⟩
  · rintro ⟨i, he⟩
    have hi : i < h.buckets.length := hlen ▸ i.isLt
    rw [seq_eq i hi] at he
    exact ⟨_, List.getElem_mem hi, he⟩

theorem seq_pushFront (k : Fin n) (hlen : h.buckets.length = n) (e : α) :
    (h.pushFront k e).seq = Function.update h.seq k (e :: h.seq k) := by
  have hk : k < h.buckets.length := hlen ▸ k.isLt
  funext i
  by_cases hik : i = k
  · subst hik
    rw [Function.update_self, seq_eq i hk]
    simp [seq, pushFront, hk]
  · have hne : ¬ (k : Nat) = i := fun hc => hik (Fin.ext hc.symm)
    rw [Function.update_of_ne hik]
    simp [seq, pushFront, hne]

theorem seq_hashClear (h : Hash α) (destructor : Bool) : (h.hashClear destructor).2.seq = fun _ : Fin n => [] := by
  funext i
  simp [seq, hashClear]

theorem moveBuckets_append (bs cs : List (List α)) : h.moveBuckets (bs ++ cs) = (h.moveBuckets bs).moveBuckets cs := by
  induction bs generalizing h with
  | nil => rfl
  | cons b bs ih => exact ih

end

end Hash

/-- The fields of a `struct hash` but for its array. -/
structure Header (t : HashTable) (h : Hash Addr) : Prop where
  elemCnt : t.elemCnt = h.elemCnt
  bucketCnt : t.bucketCnt = h.bucketCnt
  hash : t.hash = h.hash
  less : t.less = h.less

/-- The table in memory: its buckets are apart, with the elements of the buckets. -/
structure Laid (m : Nodes Addr) (t : HashTable) (h : Hash Addr) : Prop extends Header t h where
  lists : Lists m (bucketLists t.buckets t.bucketCnt) h.seq

section

variable {ω : Type} {t : HashTable} {h : Hash Addr} {s : Heap ω} {m : Nodes Addr} {n : Nat} {e a : Addr}

theorem Header.pushFront (H : Header t h) (k : Nat) (e : Addr) : Header t (h.pushFront k e) :=
  ⟨H.elemCnt, H.bucketCnt, H.hash, H.less⟩

theorem Header.moveBucket (H : Header t h) (b : List Addr) : Header t (h.moveBucket b) := by
  induction b generalizing h with
  | nil => exact H
  | cons e b ih => exact ih (H.pushFront _ e)

theorem Header.moveBuckets (H : Header t h) (bs : List (List Addr)) : Header t (h.moveBuckets bs) := by
  induction bs generalizing h with
  | nil => exact H
  | cons b bs ih => exact ih (H.moveBucket b)

/-- `find_bucket` is the bucket of `Hash.findBucket`. -/
theorem Header.findBucket (H : Header t h) (hp : h.Placed) (e : Addr) :
    ∃ k : Fin t.bucketCnt, t.findBucket e = bucketLists t.buckets t.bucketCnt k ∧ h.findBucket e = k := by
  have hlt := Hash.findBucket_lt hp.bucketCnt e
  rw [← H.bucketCnt] at hlt
  refine ⟨⟨h.findBucket e, hlt⟩, ?_, rfl⟩
  show t.findBucket e = listAt (t.buckets + 16 * h.findBucket e)
  rw [HashTable.findBucket, Hash.findBucket, H.hash, H.bucketCnt]

/-! ## Looking for an element -/

theorem findElemLoop_run {bucket : KList} {u v : List Addr} (c : Chain s.node bucket.head bucket.tail (u ++ v))
    (hn : v.length < n) : t.findElemLoop bucket e n (some (v.headD bucket.tail)) s =
      .ok (v.find? fun hi => !t.less hi e && !t.less e hi, s) := by
  induction n generalizing u v with
  | zero => omega
  | succ n ih =>
    cases v with
    | nil =>
      rw [List.headD_nil, HashTable.findElemLoop, if_pos rfl]
      rfl
    | cons hi v =>
      have hne : ¬ some hi = some bucket.tail := fun hc => c.ne_tail (by simp) (Option.some.inj hc)
      have hnext : listNext (some hi) s = .ok (some (v.headD bucket.tail), s) := listNext_run c
      have c' : Chain s.node bucket.head bucket.tail (u ++ [hi] ++ v) := by simpa using c
      rw [List.headD_cons, HashTable.findElemLoop, if_neg hne, derefPtr, pure_bind, List.find?_cons]
      cases hfound : !t.less hi e && !t.less e hi with
      | true => rfl
      | false =>
        rw [if_neg Bool.false_ne_true, bind_run, hnext, ok_bind]
        exact ih c' (Nat.lt_of_succ_lt_succ hn)

/-- A bucket has no more elements than the table. -/
theorem length_seq_le {cnt : Nat} (i : Fin cnt) : (h.seq i).length ≤ h.elems.length := by
  by_cases hi : i < h.buckets.length
  · rw [Hash.seq_eq i hi]
    exact (List.sublist_flatten_of_mem (List.getElem_mem hi)).length_le
  · rw [Hash.seq, List.getElem?_eq_none (Nat.le_of_not_lt hi)]
    exact Nat.zero_le _

theorem Laid.findElem_run (L : Laid s.node t h) (hp : h.Placed) (hn : h.elems.length < n) (e : Addr) :
    t.findElem n (t.findBucket e) e s = .ok (h.findElem (h.findBucket e) e, s) := by
  obtain ⟨k, hk, hk'⟩ := L.findBucket hp e
  have c : Chain s.node _ _ ([] ++ h.seq k) := L.lists.chain k
  have hloop := findElemLoop_run (t := t) (e := e) c (Nat.lt_of_le_of_lt (length_seq_le k) hn)
  have hbegin := listBegin_run (L.lists.chain k)
  rw [hk, HashTable.findElem, bind_run, hbegin, ok_bind]
  dsimp only
  rw [hloop, hk', Hash.findElem, L.less]
  rfl

/-! ## Inserting and removing -/

/-- The memory of the table: its array and its elements. -/
def PartOf (t : HashTable) (h : Hash Addr) (a : Addr) : Prop := InBuckets t.buckets t.bucketCnt a ∨ a ∈ h.elems

theorem Laid.length (L : Laid m t h) (hp : h.Placed) : h.buckets.length = t.bucketCnt :=
  hp.length.trans L.bucketCnt.symm

theorem partOf_iff (hlen : h.buckets.length = t.bucketCnt) :
    PartOf t h a ↔ ∃ i, a ∈ (bucketLists t.buckets t.bucketCnt i).nodes (h.seq i) := by
  rw [PartOf, inBuckets_iff, Hash.mem_elems hlen, ← exists_or]
  exact exists_congr fun i => mem_nodes.symm

theorem Laid.isSome (L : Laid m t h) (hp : h.Placed) (ha : PartOf t h a) : (m a).isSome := by
  obtain ⟨i, hi⟩ := (partOf_iff (L.length hp)).mp ha
  exact (L.lists.chain i).isSome hi

/-- Other memory may change. -/
theorem Laid.congr {m' : Nodes Addr} (L : Laid m t h) (hp : h.Placed) (hm : ∀ a, PartOf t h a → m' a = m a) :
    Laid m' t h :=
  ⟨L.toHeader, L.lists.congr fun i a ha => hm a ((partOf_iff (L.length hp)).mpr ⟨i, ha⟩)⟩

theorem Laid.insertElem (L : Laid s.node t h) (hp : h.Placed) (he : (s.node e).isSome) (hnew : ¬ PartOf t h e) :
    ∃ m, t.insertElem (t.findBucket e) e s = .ok ({ t with elemCnt := t.elemCnt + 1 }, { s with node := m }) ∧
      Laid m { t with elemCnt := t.elemCnt + 1 } (h.insertElem (h.findBucket e) e) := by
  obtain ⟨k, hk, hk'⟩ := L.findBucket hp e
  have hlen := L.length hp
  have hfree : Unlinked s.node (bucketLists t.buckets t.bucketCnt) h.seq e :=
    ⟨he, fun i hi => hnew ((partOf_iff hlen).mpr ⟨i, hi⟩)⟩
  obtain ⟨m, hrun, L'⟩ := L.lists.pushFront hfree k
  rw [← Hash.seq_pushFront k hlen] at L'
  refine ⟨m, ?_, ⟨congrArg (· + 1) L.elemCnt, L.bucketCnt, L.hash, L.less⟩, ?_⟩
  · rw [hk, HashTable.insertElem, bind_run, hrun]
    rfl
  · rw [hk']
    exact L'

theorem Laid.removeElem (L : Laid s.node t h) (hp : h.Placed) (he : e ∈ h.elems) :
    ∃ m, t.removeElem e s = .ok ({ t with elemCnt := t.elemCnt - 1 }, { s with node := m }) ∧
      Laid m { t with elemCnt := t.elemCnt - 1 } (h.removeElem e) ∧ ∀ a, (s.node a).isSome → (m a).isSome := by
  have hlen := L.length hp
  obtain ⟨k, hk⟩ := (Hash.mem_elems hlen).mp he
  obtain ⟨u, v, huv⟩ := List.append_of_mem hk
  obtain ⟨m, hrun, L', -, hsome⟩ := L.lists.removeElem huv
  have hseq : (h.removeElem e).seq = Function.update h.seq k (u ++ v) := by
    funext i
    have hi : i < h.buckets.length := i.isLt.trans_eq hlen.symm
    have herase : (h.removeElem e).seq i = (h.seq i).erase e := by
      rw [Hash.seq_eq i hi]
      simp [Hash.seq, Hash.removeElem, hi]
    rw [herase]
    by_cases hik : i = k
    · have hnd := (L.lists.chain k).nodup
      rw [huv] at hnd
      have hu : e ∉ u := fun hu => by grind
      rw [hik, Function.update_self, huv, List.erase_append_right _ hu, List.erase_cons_head]
    · rw [Function.update_of_ne hik]
      refine List.erase_of_not_mem fun hi => hik (L.lists.apart i k e ?_ ?_)
      all_goals simp [KList.nodes, *]
  refine ⟨m, ?_, ⟨⟨congrArg (· - 1) L.elemCnt, L.bucketCnt, L.hash, L.less⟩, ?_⟩, hsome⟩
  · rw [HashTable.removeElem, bind_run, discard_run hrun]
    rfl
  · rw [hseq]
    exact L'

/-! ## Rehashing -/

section

variable {p cnt : Nat} {os : Fin cnt → List Addr} {i : Fin cnt} {v : List Addr}

/-- The sequences behind the bucket `i`, when those in front of it are empty. -/
def emptied (seq : Fin cnt → List Addr) (i : Nat) (j : Fin cnt) : List Addr := if (j : Nat) < i then [] else seq j

theorem emptied_self (seq : Fin cnt → List Addr) (i : Fin cnt) : emptied seq i i = seq i :=
  if_neg (Nat.lt_irrefl i)

theorem emptied_succ (seq : Fin cnt → List Addr) (i : Fin cnt) (l : List Addr) :
    Function.update (Function.update (emptied seq i) i l) i [] = emptied seq (i + 1) := by
  rw [Function.update_idem]
  funext j
  by_cases hj : j = i
  · rw [hj, Function.update_self]
    exact (if_pos (Nat.lt_succ_self i)).symm
  · have hji : (j : Nat) ≠ i := fun hc => hj (Fin.ext hc)
    rw [Function.update_of_ne hj]
    exact if_congr (by omega) rfl rfl

theorem emptied_all (seq : Fin cnt → List Addr) : emptied seq cnt = fun _ => [] := funext fun j => if_pos j.isLt

/-- The lists of the old array and those of the new one. -/
def bothLists (p cnt : Nat) (t : HashTable) : Fin cnt ⊕ Fin t.bucketCnt → KList :=
  Sum.elim (bucketLists p cnt) (bucketLists t.buckets t.bucketCnt)

/-- **The loop over an old bucket** with the elements `v`. -/
theorem moveLoop_run (H : Header t h) (hp : h.Placed) (L : Lists s.node (bothLists p cnt t) (Sum.elim os h.seq))
    (hv : os i = v) (hn : v.length < n) :
    ∃ m, t.moveLoop (bucketLists p cnt i) n (some (v.headD (bucketLists p cnt i).tail)) s =
        .ok ((), { s with node := m }) ∧
      Lists m (bothLists p cnt t) (Sum.elim (Function.update os i []) (h.moveBucket v).seq) := by
  induction n generalizing h os v s with
  | zero => omega
  | succ n ih =>
    cases v with
    | nil =>
      refine ⟨s.node, ?_, ?_⟩
      · rw [List.headD_nil, HashTable.moveLoop, if_pos rfl]
        rfl
      · have hself : Function.update os i [] = os := by
          rw [← hv]
          exact Function.update_eq_self i os
        rw [hself]
        exact L
    | cons e v =>
      have c : Chain s.node _ _ (os i) := L.chain (.inl i)
      rw [hv] at c
      have hne : ¬ some e = some (bucketLists p cnt i).tail := fun hc =>
        c.ne_tail List.mem_cons_self (Option.some.inj hc)
      have c' : Chain s.node _ _ ([] ++ e :: v) := c
      have hnext : listNext (some e) s = .ok (some (v.headD (bucketLists p cnt i).tail), s) := listNext_run c'
      -- out of the old bucket
      have hsplit : Sum.elim os (h.seq (n := t.bucketCnt)) (.inl i) = [] ++ e :: v := hv
      obtain ⟨m₁, hremove, L₁, hfree, -⟩ := L.removeElem hsplit
      rw [Sum.update_elim_inl] at L₁ hfree
      -- to the front of the new one
      obtain ⟨k, hk, hk'⟩ := H.findBucket hp e
      obtain ⟨m₂, hpush, L₂⟩ := L₁.pushFront (s := { s with node := m₁ }) hfree (.inr k)
      have hlen : h.buckets.length = t.bucketCnt := hp.length.trans H.bucketCnt.symm
      rw [Sum.update_elim_inr, Sum.elim_inr, ← Hash.seq_pushFront k hlen, ← hk'] at L₂
      obtain ⟨m, hrun, L'⟩ := ih (s := { s with node := m₂ }) (H.pushFront _ e) (hp.pushFront e).placed L₂
        (Function.update_self ..) (Nat.lt_of_succ_lt_succ hn)
      rw [Function.update_idem] at L'
      refine ⟨m, ?_, L'⟩
      rw [List.headD_cons, HashTable.moveLoop, if_neg hne, derefPtr, pure_bind, bind_run, hnext,
        ok_bind, bind_run, discard_run hremove, ok_bind, bind_run, hk]
      refine (congrArg (Except.bind · _) hpush).trans hrun

/-- **The loop over the old buckets**. -/
theorem wp_moveBuckets {g : Hash Addr} (H : Header t h) (hp : h.Placed) (hlen : g.buckets.length = cnt)
    (L : Lists s.node (bothLists p cnt t) (Sum.elim g.seq h.seq)) (hn : g.elems.length < n) (E : Fault → Prop) :
    Wp E (forBuckets (HashTable.moveBucket n t) p cnt) (fun _ s' => ∃ m, s' = { s with node := m } ∧
      Lists m (bothLists p cnt t) (Sum.elim (fun _ => []) (h.moveBuckets g.buckets).seq)) s := by
  have hloop : Wp E (forBuckets (HashTable.moveBucket n t) p cnt) (fun _ s' => ∃ m, s' = { s with node := m } ∧
      Lists m (bothLists p cnt t) (Sum.elim (emptied g.seq cnt) (h.moveBuckets (g.buckets.take cnt)).seq)) s := by
    refine wp_forBuckets (I := fun i s' => ∃ m, s' = { s with node := m } ∧
      Lists m (bothLists p cnt t) (Sum.elim (emptied g.seq i) (h.moveBuckets (g.buckets.take i)).seq)) ?_
      ⟨s.node, rfl, L⟩
    rintro i hi _ ⟨m, rfl, L⟩
    have hgi : i < g.buckets.length := hlen ▸ hi
    have hos : emptied g.seq i ⟨i, hi⟩ = g.buckets[i] := (emptied_self g.seq ⟨i, hi⟩).trans (Hash.seq_eq _ hgi)
    have hlt : g.buckets[i].length < n := by
      have hle := length_seq_le (h := g) (⟨i, hi⟩ : Fin cnt)
      rw [Hash.seq_eq _ hgi] at hle
      exact Nat.lt_of_le_of_lt hle hn
    have c : Chain m _ _ (emptied g.seq i ⟨i, hi⟩) := L.chain (.inl ⟨i, hi⟩)
    rw [hos] at c
    have hbegin := @listBegin_run ω { s with node := m } (bucketLists p cnt ⟨i, hi⟩) _ c
    obtain ⟨m', hrun, L'⟩ := moveLoop_run (s := { s with node := m }) (i := ⟨i, hi⟩) (H.moveBuckets _)
      (hp.moveBuckets _).placed L hos hlt
    have hbody : HashTable.moveBucket n t (listAt (p + 16 * i)) { s with node := m } =
        .ok ((), { s with node := m' }) := by
      rw [HashTable.moveBucket, bind_run]
      exact (congrArg (Except.bind · _) hbegin).trans hrun
    have hseq : Function.update (emptied g.seq i) ⟨i, hi⟩ [] = emptied g.seq (i + 1) := by
      rw [← emptied_succ g.seq ⟨i, hi⟩ [], Function.update_idem]
    have htake : (h.moveBuckets (g.buckets.take i)).moveBucket g.buckets[i] =
        h.moveBuckets (g.buckets.take (i + 1)) := by
      rw [← List.take_append_getElem hgi, Hash.moveBuckets_append]
      rfl
    rw [hseq, htake] at L'
    exact (wp_of_ok hbody).mpr ⟨m', rfl, L'⟩
  refine hloop.mono fun _ s' ⟨m, hs', L'⟩ => ⟨m, hs', ?_⟩
  rwa [emptied_all, List.take_of_length_le (Nat.le_of_eq hlen)] at L'

end

/-- Memory that `malloc` may return: none of it is in use. -/
def Unused (m : Nodes Addr) (answer : Option Block) (cnt : Nat) : Prop :=
  ∀ b, answer = some b → ∀ a, InBuckets b.addr cnt a → m a = none

/-- Empty lists in an array. -/
theorem lists_empty {p cnt : Nat}
    (hc : ∀ i, Chain m (bucketLists p cnt i).head (bucketLists p cnt i).tail []) :
    Lists m (bucketLists p cnt) fun _ => [] where
  chain := hc
  apart i j a hi hj := by
    have hone : ∀ a ∈ [p + 16 * (i : Nat), p + 16 * i + 8], a ∈ [p + 16 * (j : Nat), p + 16 * j + 8] →
        (i : Nat) = j := by
      simp only [List.mem_cons, List.not_mem_nil, or_false]
      omega
    exact Fin.ext (hone a hi hj)

/-- **`rehash`** -/
theorem Laid.wp_rehash (L : Laid s.node t h) (hv : h.Valid) (hn : h.elems.length < n) {answer : Option Block}
    (hfresh : ∀ b, answer = some b → ∀ a, InBuckets b.addr (Hash.newBucketCnt h.elemCnt) a → ¬ PartOf t h a)
    (E : Fault → Prop) :
    Wp E (t.rehash n answer) (fun t' s' => ∃ m, s' = { s with node := m } ∧ Laid m t' (h.rehash answer.isSome)) s := by
  obtain ⟨cnt, hcnt⟩ : ∃ cnt, Hash.newBucketCnt h.elemCnt = cnt := ⟨_, rfl⟩
  have hcnt' : Hash.newBucketCnt t.elemCnt = cnt := L.elemCnt ▸ hcnt
  unfold HashTable.rehash Hash.rehash
  simp only [hcnt, hcnt']
  by_cases hstay : cnt = t.bucketCnt
  · rw [if_pos hstay, if_pos (hstay.trans L.bucketCnt)]
    exact wp_pure.mpr ⟨s.node, rfl, L⟩
  rw [if_neg hstay, if_neg fun hc => hstay (hc.trans L.bucketCnt.symm)]
  cases answer with
  | none => exact wp_pure.mpr ⟨s.node, rfl, L⟩
  | some b =>
    have hcount := hcnt ▸ newBucketCnt_count h.elemCnt
    rw [hcnt] at hfresh
    have hfresh := hfresh b rfl
    obtain ⟨hplaced, -⟩ := Hash.placed_empty hcount h.elemCnt h.hash h.less
    have H : Header { t with bucketCnt := cnt, buckets := b.addr }
        { h with bucketCnt := cnt, buckets := List.replicate cnt [] } := ⟨L.elemCnt, rfl, L.hash, L.less⟩
    rw [wp_bind, mallocBuckets, wp_bind, wp_modify, wp_pure]
    dsimp only
    -- the new buckets
    apply (wp_initBuckets (fun a ha => by simp [ha]) E).bind
    rintro _ _ ⟨m₁, rfl, hc, hm₁⟩
    have L₁ : Lists m₁ (bucketLists t.buckets t.bucketCnt) h.seq := L.lists.congr fun i a ha => by
      have hout : ¬ InBuckets b.addr cnt a := fun hb =>
        hfresh a hb ((partOf_iff (L.length hv.toPlaced)).mpr ⟨i, ha⟩)
      rw [hm₁ a hout]
      exact if_neg hout
    have hseq : ({ h with bucketCnt := cnt, buckets := List.replicate cnt [] } : Hash Addr).seq =
        fun _ : Fin cnt => [] := by
      funext i
      simp [Hash.seq]
    have L₂ : Lists m₁ (bothLists t.buckets t.bucketCnt { t with bucketCnt := cnt, buckets := b.addr })
        (Sum.elim h.seq fun _ => []) := L₁.elim (lists_empty hc) fun i k a hi hk => by
      have hin : InBuckets b.addr cnt a := inBuckets_iff.mpr ⟨k, by simpa [KList.nodes] using hk⟩
      exact hfresh a hin ((partOf_iff (L.length hv.toPlaced)).mpr ⟨i, hi⟩)
    rw [← hseq] at L₂
    -- the elements
    apply (wp_moveBuckets (s := { s with node := m₁ }) H hplaced (L.length hv.toPlaced) L₂ hn E).bind
    rintro _ _ ⟨m₂, rfl, L₃⟩
    -- the old buckets
    rw [wp_bind, freeBuckets, wp_modify, wp_pure]
    refine ⟨_, rfl, H.moveBuckets _, (L₃.comp Sum.inr_injective).congr fun k a ha => ?_⟩
    refine if_neg fun hold => ?_
    obtain ⟨i, hi⟩ := inBuckets_iff.mp hold
    have hin : a ∈ (bucketLists t.buckets t.bucketCnt i).nodes [] := by simpa [KList.nodes] using hi
    exact Sum.inl_ne_inr (L₃.apart (.inl i) (.inr k) a hin ha)

/-! ## The operations -/

/-- What the function returns and leaves is what its counterpart does. -/
def Leaves (s : Heap ω) (p : Option Addr × Hash Addr) (r : Option Addr × HashTable) (s' : Heap ω) : Prop :=
  ∃ m, s' = { s with node := m } ∧ r.1 = p.1 ∧ Laid m r.2 p.2

theorem Valid.elemCnt_rehash (hv : h.Valid) (hl : h.Lawful) (alloc : Bool) : (h.rehash alloc).elemCnt = h.elemCnt := by
  have hr := hv.rehash hl.classes alloc
  rw [hr.valid.elemCnt, hr.elems.length_eq, hv.elemCnt]

/-- `rehash` at the end of an operation, when the elements were in use at its beginning. -/
theorem Laid.wp_finish {s₀ : Heap ω} {answer : Option Block} {ret : Option Addr} (L : Laid s.node t h) (hv : h.Valid)
    (hl : h.Lawful) (hn : h.elems.length < n) (hs : ∀ a, PartOf t h a → (s₀.node a).isSome)
    (hun : Unused s₀.node answer (Hash.newBucketCnt (h.rehash answer.isSome).elemCnt)) (E : Fault → Prop) :
    Wp E (do
      let t ← t.rehash n answer
      pure (ret, t)) (Leaves s (ret, h.rehash answer.isSome)) s := by
  rw [Valid.elemCnt_rehash hv hl] at hun
  refine (L.wp_rehash hv hn (fun b hb a ha hpart => ?_) E).bind fun t' s' ⟨m, hs', L'⟩ => wp_pure.mpr ⟨m, hs', rfl, L'⟩
  have hsome := hs a hpart
  rw [hun b hb a ha] at hsome
  cases hsome

/-- What may be inserted: an element outside of the array, in the table already or not. -/
def Usable (m : Nodes Addr) (t : HashTable) (e : Addr) : Prop := (m e).isSome ∧ ¬ InBuckets t.buckets t.bucketCnt e

/-- `insert_elem` and `rehash`, when no equivalent element is in the table. -/
theorem Laid.wp_insertLast {s₀ : Heap ω} {answer : Option Block} {new : Addr} {ret : Option Addr}
    (L : Laid s.node t h) (hv : h.Valid) (hl : h.Lawful) (hno : h.view new = none) (hn : h.elems.length + 1 < n)
    (hnew : Usable s.node t new) (hs : ∀ a, PartOf t h a ∨ a = new → (s₀.node a).isSome)
    (hun : Unused s₀.node answer
      (Hash.newBucketCnt ((h.insertElem (h.findBucket new) new).rehash answer.isSome).elemCnt)) (E : Fault → Prop) :
    Wp E (do
      let t ← t.insertElem (t.findBucket new) new
      let t ← t.rehash n answer
      pure (ret, t)) (Leaves s (ret, (h.insertElem (h.findBucket new) new).rehash answer.isSome)) s := by
  have hins := hv.insertElem hl hno
  have hout : ¬ PartOf t h new := by
    rintro (hin | hin)
    · exact hnew.2 hin
    · have hself := (lookup_eq_some hl.classes hv.distinct).mpr ⟨hin, hl.classes.refl new⟩
      rw [Hash.view, hself] at hno
      cases hno
  obtain ⟨m, hrun, L'⟩ := L.insertElem hv.toPlaced hnew.1 hout
  have hn' : (h.insertElem (h.findBucket new) new).elems.length < n := by
    rw [hins.elems.length_eq]
    exact hn
  rw [wp_bind, wp_of_ok hrun]
  refine L'.wp_finish (s := { s with node := m }) hins.valid (hins.funs.lawful hl) hn' (fun a ha => hs a ?_) hun E
  rcases ha with ha | ha
  · exact .inl (.inl ha)
  · rcases List.mem_cons.mp (hins.elems.mem_iff.mp ha) with rfl | ha
    · exact .inr rfl
    · exact .inl (.inr ha)

theorem Laid.wp_hashInsert (L : Laid s.node t h) (hv : h.Valid) (hl : h.Lawful) (hn : h.elems.length + 1 < n)
    {new : Addr} {answer : Option Block} (hnew : Usable s.node t new)
    (hun : Unused s.node answer (Hash.newBucketCnt (h.hashInsert new answer.isSome).2.elemCnt)) (E : Fault → Prop) :
    Wp E (t.hashInsert n new answer) (Leaves s (h.hashInsert new answer.isSome)) s := by
  have hfind := L.findElem_run hv.toPlaced (Nat.lt_of_succ_lt hn) new
  rw [hv.findElem hl] at hfind
  unfold Hash.hashInsert at hun ⊢
  rw [HashTable.hashInsert, wp_bind, wp_of_ok hfind]
  simp only [hv.findElem hl] at hun ⊢
  cases hview : h.view new with
  | some old =>
    simp only [hview] at hun ⊢
    rw [wp_bind, wp_pure]
    exact L.wp_finish hv hl (Nat.lt_of_succ_lt hn) (fun a ha => L.isSome hv.toPlaced ha) hun E
  | none =>
    simp only [hview] at hun ⊢
    refine L.wp_insertLast hv hl hview hn hnew (fun a ha => ?_) hun E
    rcases ha with ha | rfl
    · exact L.isSome hv.toPlaced ha
    · exact hnew.1

theorem Laid.wp_hashReplace (L : Laid s.node t h) (hv : h.Valid) (hl : h.Lawful) (hn : h.elems.length + 1 < n)
    {new : Addr} {answer : Option Block} (hnew : Usable s.node t new)
    (hun : Unused s.node answer (Hash.newBucketCnt (h.hashReplace new answer.isSome).2.elemCnt)) (E : Fault → Prop) :
    Wp E (t.hashReplace n new answer) (Leaves s (h.hashReplace new answer.isSome)) s := by
  have hfind := L.findElem_run hv.toPlaced (Nat.lt_of_succ_lt hn) new
  have hs : ∀ a, PartOf t h a ∨ a = new → (s.node a).isSome := by
    rintro a (ha | rfl)
    · exact L.isSome hv.toPlaced ha
    · exact hnew.1
  rw [hv.findElem hl] at hfind
  unfold Hash.hashReplace at hun ⊢
  rw [HashTable.hashReplace, wp_bind, wp_of_ok hfind]
  simp only [hv.findElem hl] at hun ⊢
  cases hview : h.view new with
  | none =>
    simp only [hview] at hun ⊢
    rw [wp_bind, wp_pure]
    exact L.wp_insertLast hv hl hview hn hnew hs hun E
  | some old =>
    simp only [hview] at hun ⊢
    obtain ⟨hold, heq⟩ := hv.mem_of_view hl hview
    have hrem := hv.removeElem hl hold
    have hno : (h.removeElem old).view new = none := by
      have hdrop := (hrem.view hl).trans (lookup_erase hl.classes hv.distinct hold)
      rw [hdrop, drop, if_pos heq]
    obtain ⟨m, hremove, L', hsome⟩ := L.removeElem hv.toPlaced hold
    have hn' : (h.removeElem old).elems.length + 1 < n := by
      rw [hrem.elems.length_eq]
      exact Nat.lt_of_le_of_lt (Nat.succ_le_succ List.length_erase_le) hn
    rw [wp_bind, wp_of_ok hremove]
    refine L'.wp_insertLast (s := { s with node := m }) hrem.valid (hrem.funs.lawful hl) hno hn'
      ⟨hsome new hnew.1, hnew.2⟩ (fun a ha => hs a ?_) hun E
    exact ha.imp_left fun ha => ha.imp_right fun ha => List.mem_of_mem_erase (hrem.elems.mem_iff.mp ha)

theorem Laid.wp_hashDelete (L : Laid s.node t h) (hv : h.Valid) (hl : h.Lawful) (hn : h.elems.length + 1 < n)
    {e : Addr} {answer : Option Block}
    (hun : Unused s.node answer (Hash.newBucketCnt (h.hashDelete e answer.isSome).2.elemCnt)) (E : Fault → Prop) :
    Wp E (t.hashDelete n e answer) (Leaves s (h.hashDelete e answer.isSome)) s := by
  have hfind := L.findElem_run hv.toPlaced (Nat.lt_of_succ_lt hn) e
  rw [hv.findElem hl] at hfind
  unfold Hash.hashDelete at hun ⊢
  rw [HashTable.hashDelete, wp_bind, wp_of_ok hfind]
  simp only [hv.findElem hl] at hun ⊢
  cases hview : h.view e with
  | none => exact wp_pure.mpr ⟨s.node, rfl, rfl, L⟩
  | some found =>
    simp only [hview] at hun ⊢
    obtain ⟨hmem, -⟩ := hv.mem_of_view hl hview
    have hrem := hv.removeElem hl hmem
    obtain ⟨m, hremove, L', -⟩ := L.removeElem hv.toPlaced hmem
    have hn' : (h.removeElem found).elems.length < n := by
      rw [hrem.elems.length_eq]
      exact Nat.lt_of_le_of_lt (Nat.le_succ_of_le List.length_erase_le) hn
    rw [wp_bind, wp_of_ok hremove]
    refine L'.wp_finish (s := { s with node := m }) hrem.valid (hrem.funs.lawful hl) hn' (fun a ha => ?_) hun E
    rcases ha with ha | ha
    · exact L.isSome hv.toPlaced (.inl ha)
    · exact L.isSome hv.toPlaced (.inr (List.mem_of_mem_erase (hrem.elems.mem_iff.mp ha)))

end

/-! ## Clearing the table -/

section

variable {ω : Type}

/-- Called for the elements in turn, the function changes none of those that are left and nothing of what
is to be kept. It may free the element it is given. -/
def Spares (action : Addr → ListM ω Unit) (keep : Addr → Prop) : List Addr → Prop
  | [] => True
  | e :: l => (∀ s s', action e s = .ok ((), s') → ∀ a, keep a ∨ a ∈ l → s'.node a = s.node a) ∧
      Spares action keep l

variable {action : Addr → ListM ω Unit} {keep : Addr → Prop} {u v : List Addr}

theorem Spares.right (hs : Spares action keep (u ++ v)) : Spares action keep v := by
  induction u with
  | nil => exact hs
  | cons e u ih => exact ih hs.2

/-- The elements from a bucket on. -/
def Hash.rest {α : Type} (h : Hash α) (i : Nat) : List α := (h.buckets.drop i).flatten

theorem Hash.rest_zero {α : Type} (h : Hash α) : h.rest 0 = h.elems := rfl

theorem Hash.rest_eq {α : Type} {h : Hash α} {cnt : Nat} (i : Fin cnt) (hlen : h.buckets.length = cnt) :
    h.rest i = h.seq i ++ h.rest (i + 1) := by
  have hi : i < h.buckets.length := hlen ▸ i.isLt
  rw [Hash.rest, List.drop_eq_getElem_cons hi, List.flatten_cons, Hash.seq_eq i hi]
  rfl

theorem Hash.elems_eq {α : Type} (h : Hash α) (i : Nat) : h.elems = (h.buckets.take i).flatten ++ h.rest i := by
  rw [Hash.rest, ← List.flatten_append, List.take_append_drop, Hash.elems]

theorem Hash.rest_length {α : Type} {h : Hash α} {cnt : Nat} (hlen : h.buckets.length = cnt) : h.rest cnt = [] := by
  rw [Hash.rest, List.drop_of_length_le (Nat.le_of_eq hlen), List.flatten_nil]

theorem Hash.mem_rest {α : Type} (h : Hash α) {cnt i : Nat} {j : Fin cnt} (hij : i ≤ j) {a : α} (ha : a ∈ h.seq j) :
    a ∈ h.rest i := by
  by_cases hj : j < h.buckets.length
  · rw [Hash.seq_eq j hj] at ha
    exact List.mem_flatten.mpr ⟨_, List.mem_drop_iff_getElem.mpr ⟨j - i, by omega, by simp [hij]⟩, ha⟩
  · rw [Hash.seq, List.getElem?_eq_none (Nat.le_of_not_lt hj)] at ha
    cases ha

/-- **The `while` loop of `hash_clear`** on the list `i` with the elements `u`, when `v` is behind them. -/
theorem wp_drainLoop {ι : Type} [DecidableEq ι] {n : Nat} {s : Heap ω} {lists : ι → KList} {seq : ι → List Addr}
    {i : ι} (L : Lists s.node lists seq) (hi : seq i = u) (hs : Spares action keep (u ++ v))
    (hkeep : ∀ j, ∀ a ∈ (lists j).nodes (seq j), keep a ∨ a ∈ u ++ v) (hn : u.length < n) {E : Fault → Prop}
    (hE : ∀ f, E f) : Wp E (drainLoop action (lists i) n)
      (fun _ s' => Lists s'.node lists (Function.update seq i [])) s := by
  induction n generalizing u seq s with
  | zero => omega
  | succ n ih =>
    have c := L.chain i
    rw [drainLoop, wp_bind, wp_of_ok (listEmpty_run c)]
    cases u with
    | nil =>
      rw [hi, ← hi, Function.update_eq_self, hi]
      exact wp_pure.mpr L
    | cons e u =>
      have hne : seq i ≠ [] := by
        rw [hi]
        exact List.cons_ne_nil e u
      obtain ⟨m, hpop, L', -⟩ := popFront_refines L hne
      simp only [ListOp.code, ListOp.result, ListOp.effect, hi, List.head?_cons, List.tail_cons] at hpop L'
      have hout : ∀ j, e ∉ (lists j).nodes (Function.update seq i u j) := by
        intro j hj
        by_cases hji : j = i
        · have hnd := c.run.nodup
          rw [hji, Function.update_self, KList.nodes] at hj
          rw [hi] at hnd
          grind
        · rw [Function.update_of_ne hji] at hj
          refine hji (L.apart j i e hj ?_)
          rw [hi, KList.nodes]
          simp
      have hkeep' : ∀ j, ∀ a ∈ (lists j).nodes (Function.update seq i u j), keep a ∨ a ∈ u ++ v := by
        intro j a ha
        have hold : a ∈ (lists j).nodes (seq j) := by
          by_cases hji : j = i
          · rw [hji, Function.update_self, KList.nodes] at ha
            rw [hji, hi, KList.nodes]
            grind
          · rwa [Function.update_of_ne hji] at ha
        rcases hkeep j a hold with hk | hk
        · exact .inl hk
        · rcases List.mem_cons.mp hk with rfl | hk
          · exact absurd ha (hout j)
          · exact .inr hk
      rw [hi, List.isEmpty_cons, if_neg Bool.false_ne_true, wp_bind, wp_of_ok hpop, derefPtr, pure_bind]
      refine wp_bind.mpr ⟨fun _ s' hrun => ?_, fun f _ => hE f⟩
      have L'' : Lists s'.node lists (Function.update seq i u) :=
        L'.congr fun j a ha => hs.1 _ _ hrun a (hkeep' j a ha)
      have hrest := ih L'' (Function.update_self ..) hs.2 hkeep' (Nat.lt_of_succ_lt_succ hn)
      rwa [Function.update_idem] at hrest

/-- **`hash_clear`** ends unless its destructor stops. -/
theorem Laid.wp_hashClear {n : Nat} {s : Heap ω} {t : HashTable} {h : Hash Addr} (L : Laid s.node t h) (hp : h.Placed)
    (hn : h.elems.length < n) {destructor : Option (Addr → ListM ω Unit)}
    (hs : ∀ d, destructor = some d → Spares d (InBuckets t.buckets t.bucketCnt) h.elems) {E : Fault → Prop}
    (hE : destructor.isSome → ∀ f, E f) :
    Wp E (t.hashClear n destructor) (fun t' s' => Laid s'.node t' (h.hashClear destructor.isSome).2) s := by
  have hlen := L.length hp
  have hloop : Wp E (forBuckets (clearBucket n destructor) t.buckets t.bucketCnt)
      (fun _ s' => Lists s'.node (bucketLists t.buckets t.bucketCnt) (emptied h.seq t.bucketCnt)) s := by
    refine wp_forBuckets (I := fun i s' => Lists s'.node (bucketLists t.buckets t.bucketCnt) (emptied h.seq i)) ?_
      L.lists
    intro i hi s L
    have hself := emptied_self h.seq (⟨i, hi⟩ : Fin t.bucketCnt)
    have hdrain : Wp E (drainBucket n destructor (bucketLists t.buckets t.bucketCnt ⟨i, hi⟩))
        (fun _ s' => ∃ l, Lists s'.node (bucketLists t.buckets t.bucketCnt)
          (Function.update (emptied h.seq i) ⟨i, hi⟩ l)) s := by
      cases destructor with
      | none => exact wp_pure.mpr ⟨_, by rwa [Function.update_eq_self]⟩
      | some d =>
        have hrest := h.rest_eq (⟨i, hi⟩ : Fin t.bucketCnt) hlen
        have hspares := hs d rfl
        rw [h.elems_eq i, hrest] at hspares
        refine (wp_drainLoop L hself hspares.right (fun j a ha => ?_)
          (Nat.lt_of_le_of_lt (length_seq_le _) hn) (hE rfl)).mono fun _ s' L' => ⟨[], L'⟩
        rcases mem_nodes.mp ha with ha | ha
        · exact .inl (inBuckets_iff.mpr ⟨j, ha⟩)
        · refine .inr ?_
          rw [← hrest]
          unfold emptied at ha
          split at ha
          · cases ha
          · next hij => exact h.mem_rest (Nat.le_of_not_lt hij) ha
    refine hdrain.bind fun _ s' ⟨l, L'⟩ => ?_
    obtain ⟨m, hrun, L''⟩ := L'.init ⟨i, hi⟩
    have hnext : Function.update (Function.update (emptied h.seq i) ⟨i, hi⟩ l) ⟨i, hi⟩ [] = emptied h.seq (i + 1) :=
      emptied_succ h.seq ⟨i, hi⟩ l
    rw [hnext] at L''
    exact (wp_of_ok hrun).mpr L''
  refine hloop.bind fun _ s' L' => wp_pure.mpr ⟨⟨rfl, L.bucketCnt, L.hash, L.less⟩, ?_⟩
  rw [emptied_all] at L'
  rwa [Hash.seq_hashClear]

/-- **`hash_init`** -/
theorem hashInit_laid {s s' : Heap ω} {t : HashTable} {hash : Addr → UInt32} {less : Addr → Addr → Bool}
    {answer : Option Block} (hinit : HashTable.hashInit hash less answer s = .ok (some t, s')) :
    ∃ h, Hash.hashInit hash less true = some h ∧ Laid s'.node t h := by
  cases answer with
  | none => cases hinit
  | some b =>
    refine ⟨_, rfl, ?_⟩
    have hclear : Wp (fun _ => False) (HashTable.hashInit hash less (some b)) (fun r s' => ∀ t, r = some t →
        Laid s'.node t (Hash.hashClear ⟨0, 4, List.replicate 4 [], hash, less⟩ false).2) s := by
      rw [HashTable.hashInit, wp_bind, mallocBuckets, wp_bind, wp_modify, wp_pure]
      dsimp only
      rw [HashTable.hashClear, wp_bind, wp_bind]
      apply (wp_initBuckets (fun a ha => by simp [ha]) _).mono
      rintro _ _ ⟨m, rfl, hc, -⟩
      rw [wp_pure, wp_pure]
      rintro _ ⟨⟩
      refine ⟨⟨rfl, rfl, rfl, rfl⟩, ?_⟩
      rw [Hash.seq_hashClear]
      exact lists_empty hc
    exact hclear.ok hinit t rfl

end

/-! ## Runs -/

/-- The calls of the functions, and what other code does to the memory. -/
inductive HashCall (ω : Type) where
  | insert (new : Addr) (answer : Option Block)
  | replace (new : Addr) (answer : Option Block)
  | find (e : Addr)
  | delete (e : Addr) (answer : Option Block)
  | clear (destructor : Option (Addr → ListM ω Unit))
  | other (s : Heap ω)

/-- A table in memory, with the table that the same calls make of a new one of `Hash`. -/
structure Tabled (ω : Type) where
  heap : Heap ω
  table : HashTable
  model : Hash Addr

namespace HashCall

variable {ω : Type}

/-- The call, with what it returns. A bucket has at most one element more than the table before. -/
def code (t : HashTable) : HashCall ω → ListM ω (Option Addr × HashTable)
  | insert new answer => t.hashInsert (t.elemCnt + 2) new answer
  | replace new answer => t.hashReplace (t.elemCnt + 2) new answer
  | find e => do
    let found ← t.hashFind (t.elemCnt + 2) e
    pure (found, t)
  | delete e answer => t.hashDelete (t.elemCnt + 2) e answer
  | clear destructor => do
    let t ← t.hashClear (t.elemCnt + 2) destructor
    pure (none, t)
  | other s => do
    set s
    pure (none, t)

/-- The operation on the table of `Hash`. -/
def effect (h : Hash Addr) : HashCall ω → Option Addr × Hash Addr
  | insert new answer => h.run (.insert new answer.isSome)
  | replace new answer => h.run (.replace new answer.isSome)
  | find e => h.run (.find e)
  | delete e answer => h.run (.delete e answer.isSome)
  | clear destructor => h.run (.clear destructor.isSome)
  | other _ => (none, h)

/-- What the functions may be called with, what `malloc` may return, and what memory other code may change. -/
def Legal (c : Tabled ω) (call : HashCall ω) : Prop :=
  match call with
  | insert new answer => Usable c.heap.node c.table new ∧
      Unused c.heap.node answer (Hash.newBucketCnt (call.effect c.model).2.elemCnt)
  | replace new answer => Usable c.heap.node c.table new ∧
      Unused c.heap.node answer (Hash.newBucketCnt (call.effect c.model).2.elemCnt)
  | find _ => True
  | delete _ answer => Unused c.heap.node answer (Hash.newBucketCnt (call.effect c.model).2.elemCnt)
  | clear destructor => ∀ d, destructor = some d →
      Spares d (InBuckets c.table.buckets c.table.bucketCnt) c.model.elems
  | other s => ∀ a, PartOf c.table c.model a → s.node a = c.heap.node a

/-- Only a destructor may stop. -/
def MayStop : HashCall ω → Prop
  | clear destructor => destructor.isSome
  | _ => False

end HashCall

namespace Tabled

variable {ω : Type}

def step (c : Tabled ω) (call : HashCall ω) : Option (Tabled ω) :=
  match call.code c.table c.heap with
  | .ok ((_, t), s) => some ⟨s, t, (call.effect c.model).2⟩
  | .error _ => none

/-- A new table. -/
def Created (c : Tabled ω) (hash : Addr → UInt32) (less : Addr → Addr → Bool) : Prop :=
  (∃ answer s, HashTable.hashInit hash less answer s = .ok (some c.table, c.heap)) ∧
    Hash.hashInit hash less true = some c.model

/-- The table in memory is the other one. -/
structure Good (c : Tabled ω) : Prop where
  laid : Laid c.heap.node c.table c.model
  valid : c.model.Valid
  lawful : c.model.Lawful

variable {c : Tabled ω} {call : HashCall ω}

/-- **A call** returns what the operation returns and leaves the table that it leaves. -/
theorem Good.wp_call (g : c.Good) (hl : call.Legal c) :
    Wp (fun _ => call.MayStop) (call.code c.table) (fun r s' => r.1 = (call.effect c.model).1 ∧
      Laid s'.node r.2 (call.effect c.model).2) c.heap := by
  have hn : c.model.elems.length + 1 < c.table.elemCnt + 2 := by
    rw [g.laid.elemCnt, g.valid.elemCnt]
    omega
  have hleaves : ∀ {p : Option Addr × Hash Addr} {r s'}, Leaves c.heap p r s' → r.1 = p.1 ∧ Laid s'.node r.2 p.2 := by
    rintro p r _ ⟨m, rfl, hr⟩
    exact hr
  cases call with
  | insert new answer =>
    exact (g.laid.wp_hashInsert g.valid g.lawful hn hl.1 hl.2 _).mono fun _ _ => hleaves
  | replace new answer =>
    exact (g.laid.wp_hashReplace g.valid g.lawful hn hl.1 hl.2 _).mono fun _ _ => hleaves
  | find e =>
    have hfind := g.laid.findElem_run g.valid.toPlaced (Nat.lt_of_succ_lt hn) e
    rw [HashCall.code, wp_bind, HashTable.hashFind, wp_of_ok hfind, wp_pure]
    exact ⟨rfl, g.laid⟩
  | delete e answer =>
    exact (g.laid.wp_hashDelete g.valid g.lawful hn hl _).mono fun _ _ => hleaves
  | clear destructor =>
    refine (g.laid.wp_hashClear g.valid.toPlaced (Nat.lt_of_succ_lt hn) hl ?_).bind fun t' s' L => wp_pure.mpr ⟨rfl, L⟩
    exact fun h _ => h
  | other s =>
    rw [HashCall.code, wp_bind, wp_set, wp_pure]
    exact ⟨rfl, g.laid.congr g.valid.toPlaced hl⟩

theorem Good.step (g : c.Good) (hl : call.Legal c) {c' : Tabled ω} (hstep : c.step call = some c') : c'.Good := by
  have hw := g.wp_call hl
  unfold Tabled.step at hstep
  split at hstep
  · next r t s hrun =>
    cases hstep
    have hl' : (call.effect c.model).2.Valid ∧ Hash.SameFuns c.model (call.effect c.model).2 := by
      cases call with
      | other s => exact ⟨g.valid, rfl, rfl⟩
      | _ =>
        have hd := g.valid.run g.lawful
        exact ⟨(hd _).valid, (hd _).funs⟩
    exact ⟨(hw.ok hrun).2, hl'.1, hl'.2.lawful g.lawful⟩
  · cases hstep

theorem good_of_reach {c₀ : Tabled ω} {hash : Addr → UInt32} {less : Addr → Addr → Bool}
    (horder : IsStrictWeakOrder Addr fun a b => less a b = true)
    (hhash : ∀ a b, incomparable less a b = true → hash a = hash b) (hc : c₀.Created hash less)
    (hr : Reach Tabled.step (fun c call => call.Legal c) c₀ c) : c.Good := by
  refine hr.invariant (I := Good) ?_ fun c call c' g hl hs => g.step hl hs
  obtain ⟨⟨answer, s, hinit⟩, hmodel⟩ := hc
  obtain ⟨h, hh, L⟩ := hashInit_laid hinit
  obtain rfl : h = c₀.model := Option.some.inj (hh.symm.trans hmodel)
  obtain ⟨hv, -, hhash', hless⟩ := Hash.valid_hashInit hmodel
  refine ⟨L, hv, ⟨?_, ?_⟩⟩
  · rw [Hash.same, hless]
    exact classes_incomparable horder
  · rw [Hash.same, hless, hhash']
    exact hhash

end Tabled

end Pintos.Kernel
