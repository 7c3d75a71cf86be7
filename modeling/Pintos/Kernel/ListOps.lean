import Pintos.Kernel.ListSort

/-!
# Lists as sequences (lib/kernel/list.c)

A heap has any number of lists, and no node is in two of them. An operation is named by the lists and
the places it is called with; `ListOp.code` calls the function of the source with the elements there,
and `ListOp.effect` says what becomes of the sequences.
-/

namespace Pintos.Kernel

open Pintos.Base

section

variable {ω : Type}

def listPushBack (list : KList) (elem : Addr) : ListM ω Unit := listInsert (some list.tail) elem

def listBack (list : KList) : ListM ω (Option Addr) := do
  if ← listEmpty list then throw .assertion
  else do
    let t ← loadNode list.tail
    pure t.prev

def listPopBack (list : KList) : ListM ω (Option Addr) := do
  let back ← listBack list
  discard (listRemove back)
  pure back

/-- `swap (&e->prev, &e->next)` -/
def swapLinks (e : Addr) : ListM ω Unit := do
  let a ← loadNode e
  storePrev e a.next
  storeNext e a.prev

/-- The loop of `list_reverse`, at most `n` times. -/
def reverseLoop (list : KList) : (n : Nat) → Option Addr → ListM ω Unit
  | 0, _ => throw .unfinished
  | n + 1, e =>
    if e = some list.tail then pure ()
    else do
      let e ← derefPtr e
      swapLinks e
      let a ← loadNode e
      reverseLoop list n a.prev

/-- The swaps behind the loop. -/
def swapEnds (list : KList) : ListM ω Unit := do
  -- swap (&list->head.next, &list->tail.prev)
  let h ← loadNode list.head
  let t ← loadNode list.tail
  storeNext list.head t.prev
  storePrev list.tail h.next
  -- swap (&list->head.next->prev, &list->tail.prev->next)
  let h ← loadNode list.head
  let p ← derefPtr h.next
  let t ← loadNode list.tail
  let q ← derefPtr t.prev
  let a ← loadNode p
  let b ← loadNode q
  storePrev p b.next
  storeNext q a.prev

def listReverse (n : Nat) (list : KList) : ListM ω Unit := do
  if ← listEmpty list then pure ()
  else do
    let e ← listBegin list
    reverseLoop list n e
    swapEnds list

/-! ## The functions on a list -/

variable {s : Heap ω} {list : KList} {e : Addr} {l l₁ l₂ : List Addr} {n : Nat}

/-- The sentinels and the elements. -/
def KList.nodes (list : KList) (l : List Addr) : List Addr := list.head :: (l ++ [list.tail])

theorem mem_nodes {a : Addr} : a ∈ list.nodes l ↔ (a = list.head ∨ a = list.tail) ∨ a ∈ l := by
  simp only [KList.nodes, List.mem_cons, List.mem_append, List.not_mem_nil, or_false]
  tauto

/-- **`list_insert`** puts the element in front of any other one or of the tail. -/
theorem listInsert_chain (c : Chain s.node list.head list.tail (l₁ ++ l₂)) (he : (s.node e).isSome)
    (hmem : e ∉ list.nodes (l₁ ++ l₂)) :
    ∃ m, (listInsert (some (l₂.headD list.tail)) e : ListM ω _) s = .ok ((), { s with node := m }) ∧
      Chain m list.head list.tail (l₁ ++ e :: l₂) ∧ ∀ a, a ∉ list.nodes (l₁ ++ e :: l₂) → m a = s.node a := by
  obtain ⟨x, hp, hx, c'⟩ := c.linkBefore he hmem
  obtain ⟨-, -, post, -, hz, -⟩ := place_split list.head list.tail l₁ l₂
  have hzm : l₂.headD list.tail ∈ l₂ ++ [list.tail] := hz ▸ List.mem_cons_self
  have hxs := c.isSome (a := x) (by grind)
  have hze : l₂.headD list.tail ≠ e := fun hc => hmem (by rw [KList.nodes]; grind)
  refine ⟨_, listInsert_run hp hxs he hze, c', fun a ha => ?_⟩
  rw [KList.nodes] at ha
  exact Nodes.linkIn_of_ne (by grind) (by grind) (by grind)

/-- **`list_push_back`** -/
theorem listPushBack_chain (c : Chain s.node list.head list.tail l) (he : (s.node e).isSome)
    (hmem : e ∉ list.nodes l) :
    ∃ m, (listPushBack list e : ListM ω _) s = .ok ((), { s with node := m }) ∧
      Chain m list.head list.tail (l ++ [e]) ∧ ∀ a, a ∉ list.nodes (l ++ [e]) → m a = s.node a := by
  have c' : Chain s.node list.head list.tail (l ++ []) := by rwa [List.append_nil]
  exact listInsert_chain c' he (by rwa [List.append_nil])

/-- **`list_pop_back`** -/
theorem listPopBack_chain (c : Chain s.node list.head list.tail (l ++ [e])) :
    ∃ m, (listPopBack list : ListM ω _) s = .ok (some e, { s with node := m }) ∧
      Chain m list.head list.tail l ∧ ∀ a, a ∉ list.nodes l → m a = s.node a := by
  obtain ⟨m, hrun, c', hm⟩ := listRemove_chain c
  rw [List.append_nil] at c' hm
  refine ⟨m, ?_, c', hm⟩
  have htail := c.isSome (a := list.tail) (by simp)
  have hprev : s.node.prev list.tail = some e := c.prev_headD
  have hempty : (l ++ [e]).isEmpty = false := by
    cases l <;> rfl
  have hback : (listBack list : ListM ω _) s = .ok (some e, s) := by
    rw [listBack, bind_run, listEmpty_run c, ok_bind, hempty, if_neg Bool.false_ne_true, bind_run,
      loadNode_links htail, ok_bind, hprev]
    rfl
  rw [listPopBack, bind_run, hback, ok_bind, bind_run, discard_run hrun]
  rfl

/-! ## `list_reverse` -/

/-- The links of one more node are swapped. -/
theorem flipAll_concat {m : Nodes Addr} (he : e ∉ l) :
    ((m.flipAll l).setPrev e (m.next e)).setNext e (m.prev e) = m.flipAll (l ++ [e]) := by
  funext a
  by_cases hae : a = e
  · subst hae
    have hl := Nodes.flipAll_of_notMem (m := m) he
    unfold Nodes.flipAll at hl ⊢
    unfold Nodes.next Nodes.prev Nodes.setNext Nodes.setPrev
    cases hm : m a <;> simp [he, hm]
  · rw [Nodes.setNext_of_ne hae, Nodes.setPrev_of_ne hae]
    simp [Nodes.flipAll, hae]

theorem swapLinks_run {m : Nodes Addr} (he : e ∉ l) (hs : (m e).isSome) :
    (swapLinks e : ListM ω _) { s with node := m.flipAll l } =
      .ok ((), { s with node := m.flipAll (l ++ [e]) }) := by
  have hsome : (m.flipAll l e).isSome := by simpa using hs
  have hload := loadNode_links (s := { s with node := m.flipAll l }) hsome
  have hstore := storePrev_run (s := { s with node := m.flipAll l }) (x := m.next e) hsome
  have hstore' := storeNext_run (s := { s with node := (m.flipAll l).setPrev e (m.next e) }) (a := e)
    (x := m.prev e) (by simpa using hs)
  dsimp only at hload hstore hstore'
  rw [Nodes.next_flipAll_of_notMem he, Nodes.prev_flipAll_of_notMem he] at hload
  rw [flipAll_concat he] at hstore'
  rw [swapLinks, bind_run, hload, ok_bind, bind_run, hstore, ok_bind, hstore']

theorem reverseLoop_run (c : Chain s.node list.head list.tail (l₁ ++ l₂)) (hn : l₂.length < n) :
    (reverseLoop list n (some (l₂.headD list.tail)) : ListM ω _) { s with node := s.node.flipAll l₁ } =
      .ok ((), { s with node := s.node.flipAll (l₁ ++ l₂) }) := by
  induction n generalizing l₁ l₂ with
  | zero => omega
  | succ n ih =>
    cases l₂ with
    | nil =>
      rw [List.headD_nil, reverseLoop, if_pos rfl, List.append_nil]
      rfl
    | cons e l₂ =>
      have hnd := c.nodup
      have hel : e ∉ l₁ := by grind
      have hne : ¬ some e = some list.tail := fun he => c.ne_tail (by simp) (Option.some.inj he)
      have hsome := c.isSome (a := e) (by simp)
      have hload := loadNode_links (s := { s with node := s.node.flipAll (l₁ ++ [e]) }) (a := e)
        (by simpa using hsome)
      dsimp only at hload
      rw [Nodes.prev_flipAll (by simp), c.next_of_mem] at hload
      have c' : Chain s.node list.head list.tail (l₁ ++ [e] ++ l₂) := by simpa using c
      have hrest := ih c' (Nat.lt_of_succ_lt_succ hn)
      rw [List.append_assoc] at hrest
      rw [List.headD_cons, reverseLoop, if_neg hne, derefPtr, pure_bind, bind_run, swapLinks_run hel hsome,
        ok_bind, bind_run, hload, ok_bind]
      exact hrest

/-- The stores of the two last swaps, in the order of `linkRange`. -/
theorem linkRange_eq {m : Nodes Addr} {h t f : Addr} (het : e ≠ t) (hhf : h ≠ f) :
    (((m.setNext h (some e)).setPrev t (some f)).setPrev e (some h)).setNext f (some t) = m.linkRange h e f t :=
  calc (((m.setNext h (some e)).setPrev t (some f)).setPrev e (some h)).setNext f (some t)
    _ = (((m.setNext h (some e)).setPrev e (some h)).setPrev t (some f)).setNext f (some t) := by
      rw [Nodes.setPrev_comm het.symm]
    _ = (((m.setNext h (some e)).setPrev e (some h)).setNext f (some t)).setPrev t (some f) :=
      Nodes.setPrev_setNext.symm
    _ = (((m.setPrev e (some h)).setNext h (some e)).setNext f (some t)).setPrev t (some f) :=
      congrArg (fun m : Nodes Addr => (m.setNext f (some t)).setPrev t (some f)) Nodes.setPrev_setNext
    _ = m.linkRange h e f t := by
      rw [Nodes.setNext_comm hhf]
      rfl

theorem swapEnds_run {f : Addr} (hh : s.node.next list.head = some f) (ht : s.node.prev list.tail = some e)
    (hf : s.node.next f = some list.head) (he : s.node.prev e = some list.tail) (hhf : list.head ≠ f)
    (het : e ≠ list.tail) :
    (swapEnds list : ListM ω _) s = .ok ((), { s with node := s.node.linkRange list.head e f list.tail }) := by
  have hhs := Nodes.isSome_of_next hh
  have hts := Nodes.isSome_of_prev ht
  have hfs := Nodes.isSome_of_next hf
  have hes := Nodes.isSome_of_prev he
  let s1 : Heap ω := { s with node := s.node.setNext list.head (some e) }
  let s2 : Heap ω := { s with node := s1.node.setPrev list.tail (some f) }
  let s3 : Heap ω := { s with node := s2.node.setPrev e (some list.head) }
  have hstore1 := storePrev_run (s := s1) (a := list.tail) (x := some f) (by simpa [s1] using hts)
  have hstore2 := storePrev_run (s := s2) (a := e) (x := some list.head) (by simpa [s2, s1] using hes)
  have hstore3 := storeNext_run (s := s3) (a := f) (x := some list.tail) (by simpa [s3, s2, s1] using hfs)
  have hsome2 : ∀ a, (s2.node a).isSome = (s.node a).isSome := fun a => by simp [s2, s1]
  have hh2 : s2.node.next list.head = some e := by
    rw [Nodes.next_setPrev, Nodes.next_setNext hhs]
  have ht2 : s2.node.prev list.tail = some f := Nodes.prev_setPrev (by simpa [s1] using hts)
  have hf2 : s2.node.next f = some list.head := by
    rw [Nodes.next_setPrev, Nodes.next_setNext_of_ne hhf.symm, hf]
  have he2 : s2.node.prev e = some list.tail := by
    rw [Nodes.prev_setPrev_of_ne het, Nodes.prev_setNext, he]
  have hloadh := loadNode_links (s := s2) (a := list.head) (by rw [hsome2, hhs])
  have hloadt := loadNode_links (s := s2) (a := list.tail) (by rw [hsome2, hts])
  have hloade := loadNode_links (s := s2) (a := e) (by rw [hsome2, hes])
  have hloadf := loadNode_links (s := s2) (a := f) (by rw [hsome2, hfs])
  rw [hh2] at hloadh
  rw [ht2] at hloadt
  rw [he2] at hloade
  rw [hf2] at hloadf
  simp only [swapEnds, bind_run, loadNode_links hhs, loadNode_links hts, ok_bind, hh, ht, storeNext_run hhs]
  show (storePrev list.tail (some f) s1).bind _ = _
  rw [hstore1, ok_bind]
  show (loadNode list.head s2).bind _ = _
  rw [hloadh, ok_bind]
  show (loadNode list.tail s2).bind _ = _
  rw [hloadt, ok_bind]
  show (loadNode e s2).bind _ = _
  rw [hloade, ok_bind]
  show (loadNode f s2).bind _ = _
  rw [hloadf, ok_bind]
  show (storePrev e (some list.head) s2).bind _ = _
  rw [hstore2, ok_bind]
  show storeNext f (some list.tail) s3 = _
  rw [hstore3, ← linkRange_eq het hhf]

/-- **`list_reverse`** -/
theorem listReverse_chain (c : Chain s.node list.head list.tail l) (hn : l.length < n) :
    ∃ m, (listReverse n list : ListM ω _) s = .ok ((), { s with node := m }) ∧
      Chain m list.head list.tail l.reverse ∧ ∀ a, a ∉ list.nodes l → m a = s.node a := by
  rcases List.eq_nil_or_concat l with rfl | ⟨r, e, rfl⟩
  · refine ⟨s.node, ?_, c, fun _ _ => rfl⟩
    rw [listReverse, bind_run, listEmpty_run c, ok_bind]
    rfl
  · rw [List.concat_eq_append] at c hn ⊢
    obtain ⟨f, r', hf⟩ : ∃ f r', r ++ [e] = f :: r' := by
      cases r with
      | nil => exact ⟨e, [], rfl⟩
      | cons a r => exact ⟨a, r ++ [e], rfl⟩
    have hfirst : (r ++ [e]).head? = some f := by rw [hf]; rfl
    have hlast : (r ++ [e]).getLast? = some e := List.getLast?_concat
    have hnh : s.node.next list.head = some f := by
      have := c.next_head
      rwa [hf] at this
    have hpt : s.node.prev list.tail = some e := c.prev_headD
    have cr : Chain s.node list.head list.tail ([] ++ (r ++ [e] ++ [])) := by simpa using c
    obtain ⟨x, hpf, hne, hx, -, -⟩ := cr.unlinkRange hfirst hlast
    obtain rfl := List.mem_singleton.mp hx
    rw [List.headD_nil] at hne
    have hnd := c.run.nodup
    have hfm : f ∈ r ++ [e] := List.mem_of_mem_head? hfirst
    have hem : e ∈ r ++ [e] := by simp
    have hhl : list.head ∉ r ++ [e] := (List.nodup_cons.mp hnd).1 ∘ List.mem_append_left _
    have htl : list.tail ∉ r ++ [e] := fun ht => c.ne_tail ht rfl
    have hhf := (ne_of_mem_of_not_mem hfm hhl).symm
    have het := ne_of_mem_of_not_mem hem htl
    have c₀ : Chain s.node list.head list.tail ([] ++ (r ++ [e])) := c
    have hloop := reverseLoop_run c₀ hn
    rw [List.nil_append, Nodes.flipAll_nil] at hloop
    -- behind the loop
    let s1 : Heap ω := { s with node := s.node.flipAll (r ++ [e]) }
    have hh1 : s1.node.next list.head = some f := (Nodes.next_flipAll_of_notMem hhl).trans hnh
    have ht1 : s1.node.prev list.tail = some e := (Nodes.prev_flipAll_of_notMem htl).trans hpt
    have hf1 : s1.node.next f = some list.head := (Nodes.next_flipAll hfm).trans hpf
    have he1 : s1.node.prev e = some list.tail := (Nodes.prev_flipAll hem).trans hne
    have hswap := swapEnds_run hh1 ht1 hf1 he1 hhf het
    refine ⟨_, ?_, c.reverse hfirst hlast, fun a ha => ?_⟩
    · have hempty : (r ++ [e]).isEmpty = false := by
        rw [hf]
        rfl
      rw [listReverse, bind_run, listEmpty_run c, ok_bind, hempty, if_neg Bool.false_ne_true, bind_run,
        listBegin_run c, ok_bind, bind_run, hloop, ok_bind]
      exact hswap
    · have hne : ∀ b ∈ list.nodes (r ++ [e]), a ≠ b := fun b hb he => ha (he ▸ hb)
      have hal : a ∉ r ++ [e] := fun hal => hne a (List.mem_cons_of_mem _ (List.mem_append_left _ hal)) rfl
      rw [Nodes.linkRange_of_ne (hne _ List.mem_cons_self) (ne_of_mem_of_not_mem hem hal).symm
        (ne_of_mem_of_not_mem hfm hal).symm (hne _ (by simp [KList.nodes])), Nodes.flipAll_of_notMem hal]

end

/-! ## Any number of lists -/

section

variable {ω ι : Type}

/-- Each list has its sequence of elements, and no node is in two lists. -/
structure Lists (m : Nodes Addr) (lists : ι → KList) (seq : ι → List Addr) : Prop where
  chain : ∀ i, Chain m (lists i).head (lists i).tail (seq i)
  apart : ∀ i j a, a ∈ (lists i).nodes (seq i) → a ∈ (lists j).nodes (seq j) → i = j

/-- An element that is allocated and in no list. -/
structure Unlinked (m : Nodes Addr) (lists : ι → KList) (seq : ι → List Addr) (a : Addr) : Prop where
  isSome : (m a).isSome
  notMem : ∀ i, a ∉ (lists i).nodes (seq i)

theorem Lists.congr {m m' : Nodes Addr} {lists : ι → KList} {seq : ι → List Addr} (L : Lists m lists seq)
    (hm : ∀ i, ∀ a ∈ (lists i).nodes (seq i), m' a = m a) : Lists m' lists seq :=
  ⟨fun i => (L.chain i).congr (hm i), L.apart⟩

/-- Some of the lists. -/
theorem Lists.comp {κ : Type} {m : Nodes Addr} {lists : ι → KList} {seq : ι → List Addr} (L : Lists m lists seq)
    {f : κ → ι} (hf : Function.Injective f) : Lists m (lists ∘ f) (seq ∘ f) :=
  ⟨fun k => L.chain (f k), fun _ _ a hj hk => hf (L.apart _ _ a hj hk)⟩

/-- Two families of lists that are apart. -/
theorem Lists.elim {κ : Type} {m : Nodes Addr} {l₁ : ι → KList} {l₂ : κ → KList} {s₁ : ι → List Addr}
    {s₂ : κ → List Addr} (L₁ : Lists m l₁ s₁) (L₂ : Lists m l₂ s₂)
    (hapart : ∀ i k a, a ∈ (l₁ i).nodes (s₁ i) → a ∉ (l₂ k).nodes (s₂ k)) :
    Lists m (Sum.elim l₁ l₂) (Sum.elim s₁ s₂) where
  chain
    | .inl i => L₁.chain i
    | .inr k => L₂.chain k
  apart
    | .inl i, .inl j, a, hi, hj => congrArg Sum.inl (L₁.apart i j a hi hj)
    | .inl i, .inr k, a, hi, hk => absurd hk (hapart i k a hi)
    | .inr k, .inl i, a, hk, hi => absurd hk (hapart i k a hi)
    | .inr k, .inr j, a, hk, hj => congrArg Sum.inr (L₂.apart k j a hk hj)

/-- The element with the index `k`, or the tail. -/
def KList.place (list : KList) (l : List Addr) (k : Nat) : Addr := (l.drop k).headD list.tail

/-- A place has a node in front of it. -/
theorem Lists.isSome_prev {m : Nodes Addr} {lists : ι → KList} {seq : ι → List Addr} (L : Lists m lists seq) (i : ι)
    (k : Nat) : (m.prev ((lists i).place (seq i) k)).isSome := by
  obtain ⟨pre, x, post, hx, hz, -⟩ := place_split (lists i).head (lists i).tail ((seq i).take k) ((seq i).drop k)
  have hrun := (L.chain i).run
  have hsplit : (lists i).head :: (seq i ++ [(lists i).tail]) =
      pre ++ x :: (lists i).place (seq i) k :: post := by
    calc (lists i).head :: (seq i ++ [(lists i).tail])
      _ = ((lists i).head :: (seq i).take k) ++ ((seq i).drop k ++ [(lists i).tail]) := by
        rw [List.cons_append, ← List.append_assoc, List.take_append_drop]
      _ = pre ++ x :: (lists i).place (seq i) k :: post := by
        rw [hx, hz, List.append_assoc]
        rfl
  rw [hsplit] at hrun
  rw [hrun.linked.2]
  rfl

/-- The operations, with the places they are called with. -/
inductive ListOp (ι : Type) where
  | insert (i : ι) (before : Nat) (elem : Addr)
  | pushFront (i : ι) (elem : Addr)
  | pushBack (i : ι) (elem : Addr)
  | remove (i : ι) (elem : Nat)
  | popFront (i : ι)
  | popBack (i : ι)
  /-- From `first` to `last` (exclusive) in the list `j`, to a place in the list `i`. -/
  | splice (i : ι) (before : Nat) (j : ι) (first last : Nat)
  | reverse (i : ι)

namespace ListOp

/-- The call of the function, with what it returns. -/
def code (lists : ι → KList) (seq : ι → List Addr) : ListOp ι → ListM ω (Option Addr)
  | insert i before elem => do
    listInsert (some ((lists i).place (seq i) before)) elem
    pure none
  | pushFront i elem => do
    listPushFront (lists i) elem
    pure none
  | pushBack i elem => do
    listPushBack (lists i) elem
    pure none
  | remove i elem => listRemove (some ((lists i).place (seq i) elem))
  | popFront i => listPopFront (lists i)
  | popBack i => listPopBack (lists i)
  | splice i before j first last => do
    listSplice (some ((lists i).place (seq i) before)) (some ((lists j).place (seq j) first))
      (some ((lists j).place (seq j) last))
    pure none
  | reverse i => do
    listReverse ((seq i).length + 1) (lists i)
    pure none

/-- What the function may be called with. -/
def Legal (m : Nodes Addr) (lists : ι → KList) (seq : ι → List Addr) : ListOp ι → Prop
  | insert i before elem => before ≤ (seq i).length ∧ Unlinked m lists seq elem
  | pushFront _ elem => Unlinked m lists seq elem
  | pushBack _ elem => Unlinked m lists seq elem
  | remove i elem => elem < (seq i).length
  | popFront i => seq i ≠ []
  | popBack i => seq i ≠ []
  | splice i before j first last => before ≤ (seq i).length ∧ first ≤ last ∧ last ≤ (seq j).length ∧
      (i = j → ¬ (first ≤ before ∧ before < last))
  | reverse _ => True

/-- The lists that change. -/
def Affects : ListOp ι → ι → Prop
  | insert i _ _ => (· = i)
  | pushFront i _ => (· = i)
  | pushBack i _ => (· = i)
  | remove i _ => (· = i)
  | popFront i => (· = i)
  | popBack i => (· = i)
  | splice i _ j _ _ => fun k => k = i ∨ k = j
  | reverse i => (· = i)

/-- What is returned. -/
def result (lists : ι → KList) (seq : ι → List Addr) : ListOp ι → Option Addr
  | remove i elem => some ((lists i).place (seq i) (elem + 1))
  | popFront i => (seq i).head?
  | popBack i => (seq i).getLast?
  | _ => none

variable [DecidableEq ι]

/-- What becomes of the sequences. -/
def effect (seq : ι → List Addr) : ListOp ι → ι → List Addr
  | insert i before elem => Function.update seq i ((seq i).take before ++ elem :: (seq i).drop before)
  | pushFront i elem => Function.update seq i (elem :: seq i)
  | pushBack i elem => Function.update seq i (seq i ++ [elem])
  | remove i elem => Function.update seq i ((seq i).eraseIdx elem)
  | popFront i => Function.update seq i (seq i).tail
  | popBack i => Function.update seq i (seq i).dropLast
  | splice i before j first last =>
    let range := ((seq j).drop first).take (last - first)
    let rest := Function.update seq j ((seq j).take first ++ (seq j).drop last)
    -- the place among the elements that are left
    let before := if i = j ∧ last ≤ before then before - (last - first) else before
    Function.update rest i ((rest i).take before ++ (range ++ (rest i).drop before))
  | reverse i => Function.update seq i (seq i).reverse

end ListOp

/-! ## Refinement -/

variable [DecidableEq ι] {s : Heap ω} {m m' : Nodes Addr} {lists : ι → KList} {seq : ι → List Addr} {i j : ι}
  {l : List Addr} {op : ListOp ι}

/-- One list changes: what is new in it was in no list before. -/
theorem Lists.update (L : Lists m lists seq) (c : Chain m' (lists i).head (lists i).tail l)
    (hm : ∀ a, a ∉ (lists i).nodes (seq i) → a ∉ (lists i).nodes l → m' a = m a)
    (hnew : ∀ a ∈ l, a ∈ seq i ∨ Unlinked m lists seq a) : Lists m' lists (Function.update seq i l) := by
  -- a node of another list is not one of this list, before or after
  have hother : ∀ j, j ≠ i → ∀ a ∈ (lists j).nodes (seq j), a ∉ (lists i).nodes (seq i) ∧ a ∉ (lists i).nodes l := by
    intro j hj a ha
    have hold : a ∉ (lists i).nodes (seq i) := fun hi => hj (L.apart j i a ha hi)
    refine ⟨hold, fun hi => ?_⟩
    have hcases : a ∈ l ∨ a ∈ (lists i).nodes (seq i) := by
      rw [KList.nodes] at hi ⊢
      grind
    rcases hcases with hal | hai
    · rcases hnew a hal with hs | hfree
      · exact hold (by rw [KList.nodes]; simp [hs])
      · exact hfree.notMem j ha
    · exact hold hai
  refine ⟨fun j => ?_, fun j k a hj hk => ?_⟩
  · by_cases hji : j = i
    · subst hji
      rwa [Function.update_self]
    · rw [Function.update_of_ne hji]
      exact (L.chain j).congr fun a ha => hm a (hother j hji a ha).1 (hother j hji a ha).2
  · by_cases hji : j = i
    · by_cases hki : k = i
      · rw [hji, hki]
      · rw [hji, Function.update_self] at hj
        rw [Function.update_of_ne hki] at hk
        exact absurd hj (hother k hki a hk).2
    · rw [Function.update_of_ne hji] at hj
      by_cases hki : k = i
      · rw [hki, Function.update_self] at hk
        exact absurd hk (hother j hji a hj).2
      · rw [Function.update_of_ne hki] at hk
        exact L.apart j k a hj hk

theorem Lists.init (L : Lists s.node lists seq) (i : ι) :
    ∃ m, listInit (lists i) s = .ok ((), { s with node := m }) ∧ Lists m lists (Function.update seq i []) := by
  have c := L.chain i
  have hh := c.isSome List.mem_cons_self
  have ht := c.isSome (a := (lists i).tail) (by simp)
  have hne : (lists i).head ≠ (lists i).tail := by
    have hnd := c.run.nodup
    grind
  refine ⟨_, listInit_run hh ht, L.update (chain_initList hh ht hne) (fun a _ ha => ?_) fun _ ha => ?_⟩
  · simp only [KList.nodes, List.nil_append, List.mem_cons, List.not_mem_nil, or_false, not_or] at ha
    exact Nodes.initList_of_ne ha.1 ha.2
  · cases ha

theorem Lists.pushFront {e : Addr} (L : Lists s.node lists seq) (he : Unlinked s.node lists seq e) (i : ι) :
    ∃ m, listPushFront (lists i) e s = .ok ((), { s with node := m }) ∧
      Lists m lists (Function.update seq i (e :: seq i)) := by
  obtain ⟨m, hrun, c, hm⟩ := listPushFront_chain (L.chain i) he.isSome (he.notMem i)
  refine ⟨m, hrun, L.update c (fun a _ ha => hm a ha) fun a ha => ?_⟩
  rcases List.mem_cons.mp ha with rfl | ha
  · exact .inr he
  · exact .inl ha

/-- **Taking out the element** behind `u`. -/
theorem Lists.removeElem {e : Addr} {u v : List Addr} (L : Lists s.node lists seq) (hi : seq i = u ++ e :: v) :
    ∃ m, listRemove (some e) s = .ok (some (v.headD (lists i).tail), { s with node := m }) ∧
      Lists m lists (Function.update seq i (u ++ v)) ∧ Unlinked m lists (Function.update seq i (u ++ v)) e ∧
      ∀ a, (s.node a).isSome → (m a).isSome := by
  have c := L.chain i
  rw [hi] at c
  have hnd := c.run.nodup
  obtain ⟨m, hrun, c', hm⟩ := listRemove_chain c
  have hout : e ∉ (lists i).nodes (u ++ v) := by
    rw [KList.nodes]
    grind
  have hin : e ∈ (lists i).nodes (seq i) := by
    rw [hi, KList.nodes]
    simp
  have hsome : ∀ a, (s.node a).isSome → (m a).isSome := by
    intro a ha
    by_cases hal : a ∈ (lists i).nodes (u ++ v)
    · exact c'.isSome hal
    · rwa [hm a hal]
  refine ⟨m, hrun, L.update c' (fun a _ ha => hm a ha) fun a ha => .inl ?_, ⟨?_, fun j hj => ?_⟩, hsome⟩
  · rw [hi]
    grind
  · exact hsome e (c.isSome (by simp))
  · by_cases hji : j = i
    · rw [hji, Function.update_self] at hj
      exact hout hj
    · rw [Function.update_of_ne hji] at hj
      exact hji (L.apart j i e hj hin)

/-- The call returns with the effect of the operation on the sequences, and changes no node but those of
the lists it affects. -/
def Refines (s : Heap ω) (lists : ι → KList) (seq : ι → List Addr) (op : ListOp ι) : Prop :=
  ∃ m, op.code lists seq s = .ok (op.result lists seq, { s with node := m }) ∧ Lists m lists (op.effect seq) ∧
    ∀ a, (∀ i, op.Affects i → a ∉ (lists i).nodes (seq i) ∧ a ∉ (lists i).nodes (op.effect seq i)) → m a = s.node a

theorem refines_update (L : Lists s.node lists seq) (heff : op.effect seq = Function.update seq i l)
    (haff : op.Affects i) (hrun : op.code lists seq s = .ok (op.result lists seq, { s with node := m }))
    (c : Chain m (lists i).head (lists i).tail l)
    (hm : ∀ a, a ∉ (lists i).nodes (seq i) → a ∉ (lists i).nodes l → m a = s.node a)
    (hnew : ∀ a ∈ l, a ∈ seq i ∨ Unlinked s.node lists seq a) : Refines s lists seq op := by
  refine ⟨m, hrun, ?_, fun a ha => ?_⟩
  · rw [heff]
    exact L.update c hm hnew
  · have hi := ha i haff
    rw [heff, Function.update_self] at hi
    exact hm a hi.1 hi.2

theorem insert_refines (L : Lists s.node lists seq) {k : Nat} {e : Addr}
    (h : (ListOp.insert i k e).Legal s.node lists seq) : Refines s lists seq (.insert i k e) := by
  obtain ⟨-, hfree⟩ := h
  have c : Chain s.node (lists i).head (lists i).tail ((seq i).take k ++ (seq i).drop k) := by
    rw [List.take_append_drop]
    exact L.chain i
  obtain ⟨m, hrun, c', hm⟩ := listInsert_chain c hfree.isSome (by
    rw [List.take_append_drop]
    exact hfree.notMem i)
  refine refines_update L rfl rfl ?_ c' (fun a _ ha => hm a ha) fun a ha => ?_
  · rw [ListOp.code, bind_run]
    refine (congrArg (Except.bind · _) hrun).trans rfl
  · rcases List.mem_append.mp ha with ha | ha
    · exact .inl (List.mem_of_mem_take ha)
    · rcases List.mem_cons.mp ha with rfl | ha
      · exact .inr hfree
      · exact .inl (List.mem_of_mem_drop ha)

theorem pushFront_refines (L : Lists s.node lists seq) {e : Addr}
    (hfree : (ListOp.pushFront i e).Legal s.node lists seq) : Refines s lists seq (.pushFront i e) := by
  obtain ⟨m, hrun, c', hm⟩ := listPushFront_chain (L.chain i) hfree.isSome (hfree.notMem i)
  refine refines_update L rfl rfl ?_ c' (fun a _ ha => hm a ha) fun a ha => ?_
  · rw [ListOp.code, bind_run, hrun]
    rfl
  · rcases List.mem_cons.mp ha with rfl | ha
    · exact .inr hfree
    · exact .inl ha

theorem pushBack_refines (L : Lists s.node lists seq) {e : Addr}
    (hfree : (ListOp.pushBack i e).Legal s.node lists seq) : Refines s lists seq (.pushBack i e) := by
  obtain ⟨m, hrun, c', hm⟩ := listPushBack_chain (L.chain i) hfree.isSome (hfree.notMem i)
  refine refines_update L rfl rfl ?_ c' (fun a _ ha => hm a ha) fun a ha => ?_
  · rw [ListOp.code, bind_run, hrun]
    rfl
  · rcases List.mem_append.mp ha with ha | ha
    · exact .inl ha
    · exact .inr (List.mem_singleton.mp ha ▸ hfree)

theorem remove_refines (L : Lists s.node lists seq) {k : Nat} (h : (ListOp.remove i k).Legal s.node lists seq) :
    Refines s lists seq (.remove i k) := by
  have hk : k < (seq i).length := h
  have c : Chain s.node (lists i).head (lists i).tail ((seq i).take k ++ (seq i)[k] :: (seq i).drop (k + 1)) := by
    rw [← List.drop_eq_getElem_cons hk, List.take_append_drop]
    exact L.chain i
  obtain ⟨m, hrun, c', hm⟩ := listRemove_chain c
  have hplace : (lists i).place (seq i) k = (seq i)[k] := by
    rw [KList.place, List.drop_eq_getElem_cons hk]
    rfl
  have heff : (ListOp.remove i k).effect seq = Function.update seq i _ :=
    congrArg (Function.update seq i) (List.eraseIdx_eq_take_drop_succ (seq i) k)
  refine refines_update L heff rfl ?_ c' (fun a _ ha => hm a ha) fun a ha => .inl ?_
  · rw [ListOp.code, hplace, hrun]
    rfl
  · rcases List.mem_append.mp ha with ha | ha
    · exact List.mem_of_mem_take ha
    · exact List.mem_of_mem_drop ha

theorem popFront_refines (L : Lists s.node lists seq) (h : (ListOp.popFront i).Legal s.node lists seq) :
    Refines s lists seq (.popFront i) := by
  obtain ⟨e, l, hl⟩ := List.exists_cons_of_ne_nil h
  have c := L.chain i
  rw [hl] at c
  obtain ⟨m, hrun, c', hm⟩ := listPopFront_chain c
  have heff : (ListOp.popFront i).effect seq = Function.update seq i l := by
    rw [ListOp.effect, hl, List.tail_cons]
  refine refines_update L heff rfl ?_ c' (fun a _ ha => hm a ha) fun a ha => .inl ?_
  · rw [ListOp.code, hrun, ListOp.result, hl]
    rfl
  · rw [hl]
    exact List.mem_cons_of_mem e ha

theorem popBack_refines (L : Lists s.node lists seq) (h : (ListOp.popBack i).Legal s.node lists seq) :
    Refines s lists seq (.popBack i) := by
  obtain ⟨l, e, hl⟩ := (List.eq_nil_or_concat (seq i)).resolve_left h
  rw [List.concat_eq_append] at hl
  have c := L.chain i
  rw [hl] at c
  obtain ⟨m, hrun, c', hm⟩ := listPopBack_chain c
  have heff : (ListOp.popBack i).effect seq = Function.update seq i l := by
    rw [ListOp.effect, hl, List.dropLast_concat]
  refine refines_update L heff rfl ?_ c' (fun a _ ha => hm a ha) fun a ha => .inl ?_
  · rw [ListOp.code, hrun, ListOp.result, hl, List.getLast?_concat]
  · rw [hl]
    exact List.mem_append_left _ ha

theorem reverse_refines (L : Lists s.node lists seq) : Refines s lists seq (.reverse i) := by
  obtain ⟨m, hrun, c', hm⟩ := listReverse_chain (L.chain i) (Nat.lt_succ_self _)
  refine refines_update L rfl rfl ?_ c' (fun a ha _ => hm a ha) fun a ha => .inl (List.mem_reverse.mp ha)
  rw [ListOp.code, bind_run, hrun]
  rfl

/-- A place outside a range, and where it is when the range is taken out. -/
theorem place_rest {list : KList} {k first last : Nat} (hfl : first ≤ last) (hlen : last ≤ l.length)
    (hk : ¬ (first ≤ k ∧ k < last)) :
    list.place (l.take first ++ l.drop last) (if last ≤ k then k - (last - first) else k) = list.place l k := by
  have htake : (l.take first).length = first := List.length_take_of_le (by omega)
  unfold KList.place
  by_cases hle : last ≤ k
  · rw [if_pos hle, List.drop_append, htake, List.drop_of_length_le (by omega), List.nil_append, List.drop_drop]
    congr 2
    omega
  · have hlt : k < first := by omega
    rw [if_neg hle, List.drop_append_of_le_length (by omega), List.drop_take,
      List.drop_eq_getElem_cons (show k < l.length by omega), List.take_cons (by omega)]
    rfl

/-- An empty range is left where it is. -/
theorem listSplice_empty {x : Addr} (hx : (s.node.prev x).isSome) (f : Option Addr) :
    listSplice (some x) f f s = .ok ((), s) := by
  obtain ⟨p, hp⟩ := Option.isSome_iff_exists.mp hx
  have hkind : isInteriorOrTail ⟨s.node.prev x, s.node.next x⟩ = true := by
    rw [hp]
    cases s.node.next x <;> rfl
  rw [listSplice, bind_run, assertElem_run (Nodes.isSome_of_prev hp) hkind, ok_bind, if_pos rfl]
  rfl

/-- Nothing moves. -/
theorem effect_splice_empty (seq : ι → List Addr) (i : ι) (k : Nat) (j : ι) (first : Nat) :
    (ListOp.splice i k j first first).effect seq = seq := by
  unfold ListOp.effect
  simp

theorem splice_refines (L : Lists s.node lists seq) {k first last : Nat}
    (h : (ListOp.splice i k j first last).Legal s.node lists seq) :
    Refines s lists seq (.splice i k j first last) := by
  obtain ⟨-, hfl, hlast, hout⟩ := h
  rcases Nat.eq_or_lt_of_le hfl with rfl | hlt
  · have hrun := listSplice_empty (L.isSome_prev i k) (some ((lists j).place (seq j) first))
    refine ⟨s.node, ?_, ?_, fun _ _ => rfl⟩
    · rw [ListOp.code, bind_run, hrun]
      rfl
    · rw [effect_splice_empty]
      exact L
  -- the range, and the lists without it
  obtain ⟨r, hr⟩ : ∃ r, ((seq j).drop first).take (last - first) = r := ⟨_, rfl⟩
  obtain ⟨rest, hrest⟩ : ∃ rest, Function.update seq j ((seq j).take first ++ (seq j).drop last) = rest := ⟨_, rfl⟩
  obtain ⟨k', hk'⟩ : ∃ k', (if i = j ∧ last ≤ k then k - (last - first) else k) = k' := ⟨_, rfl⟩
  have heff : (ListOp.splice i k j first last).effect seq =
      Function.update rest i ((rest i).take k' ++ (r ++ (rest i).drop k')) := by
    rw [ListOp.effect, hr, hrest, hk']
  have hplace : ((rest i).drop k').headD (lists i).tail = (lists i).place (seq i) k := by
    rw [← hk', ← hrest]
    by_cases hij : i = j
    · subst hij
      rw [Function.update_self]
      simp only [true_and]
      exact place_rest hfl hlast (hout rfl)
    · rw [Function.update_of_ne hij, if_neg fun hc => hij hc.1]
      rfl
  have hsplit : seq j = (seq j).take first ++ (r ++ (seq j).drop last) := by
    have hdrop : (seq j).drop last = ((seq j).drop first).drop (last - first) := by
      rw [List.drop_drop]
      congr 1
      omega
    rw [hdrop, ← hr, List.take_append_drop, List.take_append_drop]
  have hf : r.head? = some ((lists j).place (seq j) first) := by
    rw [← hr, KList.place, List.drop_eq_getElem_cons (show first < (seq j).length by omega),
      List.take_cons (by omega)]
    rfl
  have c := L.chain j
  have hnd := c.run.nodup
  rw [hsplit] at c hnd
  have hrj : ∀ a ∈ r, a ∈ seq j := fun a ha => by
    rw [hsplit]
    simp [ha]
  have hfree : ∀ a ∈ r, ∀ i, a ∉ (lists i).nodes (rest i) := by
    intro a ha i hi
    by_cases hij : i = j
    · subst hij
      rw [← hrest, Function.update_self, KList.nodes] at hi
      grind
    · rw [← hrest, Function.update_of_ne hij] at hi
      have hj : a ∈ (lists j).nodes (seq j) := List.mem_cons_of_mem _ (List.mem_append_left _ (hrj a ha))
      exact hij (L.apart i j a hi hj)
  have hwithout : ∀ m₁, Chain m₁ (lists j).head (lists j).tail ((seq j).take first ++ (seq j).drop last) →
      (∀ a, a ∉ (lists j).nodes ((seq j).take first ++ (seq j).drop last) → m₁ a = s.node a) →
      Lists m₁ lists rest := by
    intro m₁ c₁ hm₁
    rw [← hrest]
    refine L.update c₁ (fun a _ ha => hm₁ a ha) fun a ha => .inl ?_
    rcases List.mem_append.mp ha with ha | ha
    · exact List.mem_of_mem_take ha
    · exact List.mem_of_mem_drop ha
  have hx := L.isSome_prev i k
  rw [← hplace] at hx
  obtain ⟨m₁, m, hrun, c₁, hm₁, c₂, hm⟩ := listSplice_range c hf hx
    (fun m₁ c₁ hm₁ => by
      rw [List.take_append_drop]
      exact (hwithout m₁ c₁ hm₁).chain i)
    (fun a ha => by
      rw [List.take_append_drop]
      exact hfree a ha i)
  refine ⟨m, ?_, ?_, fun a ha => ?_⟩
  · rw [hplace] at hrun
    rw [ListOp.code, bind_run]
    refine (congrArg (Except.bind · _) hrun).trans rfl
  · rw [heff]
    refine (hwithout m₁ c₁ hm₁).update c₂ (fun a _ ha => hm a ha) fun a ha => ?_
    rcases List.mem_append.mp ha with ha | ha
    · exact .inl (List.mem_of_mem_take ha)
    · rcases List.mem_append.mp ha with ha | ha
      · have hout := hfree a ha j
        rw [← hrest, Function.update_self] at hout
        refine .inr ⟨?_, hfree a ha⟩
        rw [hm₁ a hout]
        exact c.isSome (by simp [ha])
      · exact .inl (List.mem_of_mem_drop ha)
  · have hi := (ha i (.inl rfl)).2
    have hj := (ha j (.inr rfl)).1
    rw [heff, Function.update_self] at hi
    rw [hsplit, KList.nodes] at hj
    rw [hm a hi]
    exact hm₁ a (by grind)

theorem ListOp.refines (L : Lists s.node lists seq) (h : op.Legal s.node lists seq) : Refines s lists seq op := by
  cases op with
  | insert i k e => exact insert_refines L h
  | pushFront i e => exact pushFront_refines L h
  | pushBack i e => exact pushBack_refines L h
  | remove i k => exact remove_refines L h
  | popFront i => exact popFront_refines L h
  | popBack i => exact popBack_refines L h
  | splice i k j first last => exact splice_refines L h
  | reverse i => exact reverse_refines L

/-- Calls in a row. -/
def runOps (lists : ι → KList) : List (ListOp ι) → (ι → List Addr) → ListM ω Unit
  | [], _ => pure ()
  | op :: ops, seq => do
    discard (op.code lists seq)
    runOps lists ops (op.effect seq)

/-- Each call is legal in the heap that the calls before it leave. -/
def LegalRun (lists : ι → KList) : List (ListOp ι) → Heap ω → (ι → List Addr) → Prop
  | [], _, _ => True
  | op :: ops, s, seq => op.Legal s.node lists seq ∧
      ∀ r s', op.code lists seq s = .ok (r, s') → LegalRun lists ops s' (op.effect seq)

/-- What becomes of the sequences in a row of calls. -/
def effects (ops : List (ListOp ι)) (seq : ι → List Addr) : ι → List Addr := ops.foldl ListOp.effect seq

theorem runOps_refine {ops : List (ListOp ι)} (L : Lists s.node lists seq) (h : LegalRun lists ops s seq) :
    ∃ m, runOps lists ops seq s = .ok ((), { s with node := m }) ∧ Lists m lists (effects ops seq) := by
  induction ops generalizing s seq with
  | nil => exact ⟨s.node, rfl, L⟩
  | cons op ops ih =>
    obtain ⟨hop, hrest⟩ := h
    obtain ⟨m, hrun, L', -⟩ := ListOp.refines L hop
    obtain ⟨m', hrun', L''⟩ := ih (s := { s with node := m }) L' (hrest _ _ hrun)
    exact ⟨m', by rw [runOps, bind_run, discard_run hrun, ok_bind, hrun'], L''⟩

/-- **The operations on lists** are operations on their sequences. Behind each call every list is well
formed, with the elements that the operation says, and no node has changed but those of the lists it
is about; so it is behind any calls in a row. -/
theorem lists_refine_sequences (L : Lists s.node lists seq) :
    (∀ op, op.Legal s.node lists seq → Refines s lists seq op) ∧
      ∀ ops, LegalRun lists ops s seq →
        ∃ m, runOps lists ops seq s = .ok ((), { s with node := m }) ∧ Lists m lists (effects ops seq) :=
  ⟨fun _ => ListOp.refines L, fun _ => runOps_refine L⟩

end

/-- A list with the elements 2, 3 and 4, and an empty list. -/
def twoLists : Heap Unit where
  node a := [⟨none, some 2⟩, ⟨some 4, none⟩, ⟨some 0, some 3⟩, ⟨some 2, some 4⟩, ⟨some 3, some 1⟩,
    ⟨none, some 6⟩, ⟨some 5, none⟩][a]?
  data := ()

def twoKLists (b : Bool) : KList := if b then ⟨5, 6⟩ else ⟨0, 1⟩

theorem twoLists_lists : Lists twoLists.node twoKLists fun b => if b then [] else [2, 3, 4] where
  chain b := by
    cases b with
    | false =>
      refine ⟨⟨?_, by decide⟩, rfl, rfl⟩
      exact .cons_cons (by exact ⟨rfl, rfl⟩) (.cons_cons (by exact ⟨rfl, rfl⟩) (.cons_cons (by exact ⟨rfl, rfl⟩)
        (.cons_cons (by exact ⟨rfl, rfl⟩) (.singleton 1))))
    | true => exact ⟨⟨.cons_cons (by exact ⟨rfl, rfl⟩) (.singleton 6), by decide⟩, rfl, rfl⟩
  apart b b' a h h' := by
    have hfalse : ∀ a ∈ (twoKLists false).nodes [2, 3, 4], a < 5 := by decide
    have htrue : ∀ a ∈ (twoKLists true).nodes [], 5 ≤ a := by decide
    cases b <;> cases b'
    · rfl
    · exact absurd (hfalse a h) (Nat.not_lt.mpr (htrue a h'))
    · exact absurd (hfalse a h') (Nat.not_lt.mpr (htrue a h))
    · rfl

theorem twoLists_spliced :
    ∃ m, (ListOp.splice true 0 false 1 3).code twoKLists (fun b => if b then [] else [2, 3, 4]) twoLists =
        .ok (none, { twoLists with node := m }) ∧
      Chain m 5 6 [3, 4] ∧ Chain m 0 1 [2] := by
  obtain ⟨m, hrun, L, -⟩ := (lists_refine_sequences twoLists_lists).1 (.splice true 0 false 1 3)
    ⟨by decide, by decide, by decide, fun h => by cases h⟩
  exact ⟨m, hrun, L.chain true, L.chain false⟩

end Pintos.Kernel
