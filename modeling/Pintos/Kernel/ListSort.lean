import Pintos.Base.NaturalMerge
import Pintos.Kernel.LinkedList
import Mathlib.Data.List.Perm.Subperm

/-!
# Sorting lists (lib/kernel/list.c)

`list_sort` passes over the list and merges neighbouring runs in place: it moves an element of the
second run in front of the first one whenever it is less. The loops take a bound on their rounds, and
`less` compares two elements by the data of the heap, which the list functions leave alone.
-/

namespace Pintos.Kernel

open Pintos.Base

section

variable {ω : Type}

def listPrev (elem : Option Addr) : ListM ω (Option Addr) := do
  let a ← assertElem isInteriorOrTail elem
  let n ← loadNode a
  pure n.prev

def listSplice (before first last : Option Addr) : ListM ω Unit := do
  let before ← assertElem isInteriorOrTail before
  if first = last then pure ()
  else do
    let last ← listPrev last
    let first ← assertElem isInterior first
    let last ← assertElem isInterior last
    -- cleanly remove first...last from its current list
    let f ← loadNode first
    let l ← loadNode last
    let p ← derefPtr f.prev
    storeNext p l.next
    let l ← loadNode last
    let f ← loadNode first
    let q ← derefPtr l.next
    storePrev q f.prev
    -- splice first...last into new list
    let b ← loadNode before
    storePrev first b.prev
    storeNext last (some before)
    let b ← loadNode before
    let p ← derefPtr b.prev
    storeNext p (some first)
    storePrev before (some last)

/-- An ASSERT. -/
def assertThat (b : Bool) : ListM ω Unit := if b then pure () else throw .assertion

variable (less : ω → Addr → Addr → Bool)

/-- `less (a, b, aux)` -/
def callLess (a b : Option Addr) : ListM ω Bool := do
  let a ← derefPtr a
  let b ← derefPtr b
  let s ← get
  pure (less s.data a b)

/-- The loop of `is_sorted`, at most `n` times. -/
def isSortedLoop (b : Option Addr) : (n : Nat) → Option Addr → ListM ω Bool
  | 0, _ => throw .unfinished
  | n + 1, a => do
    let a ← listNext a
    if a = b then pure true
    else do
      let p ← listPrev a
      let descent ← callLess less a p
      if descent then pure false else isSortedLoop b n a

def isSorted (n : Nat) (a b : Option Addr) : ListM ω Bool :=
  if a = b then pure true else isSortedLoop less b n a

/-- The loop of `find_end_of_run`, at most `n` times. -/
def findLoop (b : Option Addr) : (n : Nat) → Option Addr → ListM ω (Option Addr)
  | 0, _ => throw .unfinished
  | n + 1, a => do
    let a ← listNext a
    if a = b then pure a
    else do
      let p ← listPrev a
      let descent ← callLess less a p
      if descent then pure a else findLoop b n a

def findEndOfRun (n : Nat) (a b : Option Addr) : ListM ω (Option Addr) := do
  assertThat a.isSome
  assertThat b.isSome
  assertThat (a != b)
  findLoop less b n a

/-- The loop of `inplace_merge`, at most `n` times. -/
def mergeLoop (b1 : Option Addr) : (n : Nat) → (a0 a1b0 : Option Addr) → ListM ω Unit
  | 0, _, _ => throw .unfinished
  | n + 1, a0, a1b0 =>
    if a0 ≠ a1b0 ∧ a1b0 ≠ b1 then do
      let descent ← callLess less a1b0 a0
      if descent then do
        let a1b0 ← listNext a1b0
        let p ← listPrev a1b0
        listSplice a0 p a1b0
        mergeLoop b1 n a0 a1b0
      else do
        let a0 ← listNext a0
        mergeLoop b1 n a0 a1b0
    else pure ()

def inplaceMerge (n : Nat) (a0 a1b0 b1 : Option Addr) : ListM ω Unit := do
  assertThat a0.isSome
  assertThat a1b0.isSome
  assertThat b1.isSome
  let first ← isSorted less n a0 a1b0
  assertThat first
  let second ← isSorted less n a1b0 b1
  assertThat second
  mergeLoop less b1 n a0 a1b0

/-- The `for` loop of `list_sort`, at most `k` times; it returns `output_run_cnt`. -/
def sortPass (n : Nat) (list : KList) : (k : Nat) → (a0 : Option Addr) → (outputRunCnt : Nat) → ListM ω Nat
  | 0, _, _ => throw .unfinished
  | k + 1, a0, outputRunCnt =>
    if a0 = some list.tail then pure outputRunCnt
    else do
      let a1b0 ← findEndOfRun less n a0 (some list.tail)
      if a1b0 = some list.tail then pure (outputRunCnt + 1)
      else do
        let b1 ← findEndOfRun less n a1b0 (some list.tail)
        inplaceMerge less n a0 a1b0 b1
        sortPass n list k b1 (outputRunCnt + 1)

/-- The `do` loop of `list_sort`, at most `k` times. -/
def sortPasses (n : Nat) (list : KList) : (k : Nat) → ListM ω Unit
  | 0 => throw .unfinished
  | k + 1 => do
    let a0 ← listBegin list
    let outputRunCnt ← sortPass less n list n a0 0
    if 1 < outputRunCnt then sortPasses n list k else pure ()

def listSort (list : KList) (n : Nat) : ListM ω Unit := do
  sortPasses less n list n
  let a ← listBegin list
  let sorted ← isSorted less n a (some list.tail)
  assertThat sorted

end

/-! ## Neighbours -/

section

variable {ω : Type} {s : Heap ω} {h t : Addr} {e x y : Addr} {u v w l l₁ l₂ : List Addr}

theorem listPrev_run (c : Chain s.node h t (l₁ ++ e :: l₂)) :
    (listPrev (some (l₂.headD t)) : ListM ω _) s = .ok (some e, s) := by
  have hs := Nodes.isSome_of_prev c.prev_headD
  have hkind : isInteriorOrTail ⟨s.node.prev (l₂.headD t), s.node.next (l₂.headD t)⟩ = true := by
    rw [c.prev_headD]
    cases s.node.next (l₂.headD t) <;> rfl
  simp only [listPrev, bind_run, assertElem_run hs hkind, ok_bind, loadNode_links hs, c.prev_headD, pure_run]

theorem listSplice_run {x z p q f : Addr} (hp : s.node.prev f = some p) (hn : (s.node.next f).isSome)
    (hq : s.node.next e = some q) (hpe : (s.node.prev e).isSome) (hy : s.node.prev q = some e)
    (hz : (s.node.unlink p q).prev x = some z) (hps : (s.node p).isSome) (hzs : (s.node z).isSome)
    (hxs : (s.node.prev x).isSome) (hep : e ≠ p) (hfq : f ≠ q) (hxf : x ≠ f) :
    (listSplice (some x) (some f) (some q) : ListM ω _) s =
      .ok ((), { s with node := (s.node.unlink p q).linkRange z f e x }) := by
  obtain ⟨b, hb⟩ := Option.isSome_iff_exists.mp hxs
  obtain ⟨c, hc⟩ := Option.isSome_iff_exists.mp hn
  obtain ⟨d, hd⟩ := Option.isSome_iff_exists.mp hpe
  have hx := Nodes.isSome_of_prev hb
  have hfs := Nodes.isSome_of_prev hp
  have hes := Nodes.isSome_of_next hq
  have hqs := Nodes.isSome_of_prev hy
  have hkx : isInteriorOrTail ⟨s.node.prev x, s.node.next x⟩ = true := by
    rw [hb]
    cases s.node.next x <;> rfl
  have hkq : isInteriorOrTail ⟨s.node.prev q, s.node.next q⟩ = true := by
    rw [hy]
    cases s.node.next q <;> rfl
  have hkf : isInterior ⟨s.node.prev f, s.node.next f⟩ = true := by
    rw [hp, hc]
    rfl
  have hke : isInterior ⟨s.node.prev e, s.node.next e⟩ = true := by
    rw [hd, hq]
    rfl
  have hlast : (listPrev (some q) : ListM ω _) s = .ok (some e, s) := by
    simp only [listPrev, bind_run, assertElem_run hqs hkq, ok_bind, loadNode_links hqs, hy, pure_run]
  -- the memory after the range is taken out
  let s1 : Heap ω := { s with node := s.node.setNext p (some q) }
  let s2 : Heap ω := { s with node := s.node.unlink p q }
  have hp1 : s1.node.prev f = some p := by rw [Nodes.prev_setNext, hp]
  have hq1 : s1.node.next e = some q := by rw [Nodes.next_setNext_of_ne hep, hq]
  have hload1 := loadNode_links (s := s1) (Nodes.isSome_of_next hq1)
  have hload1' := loadNode_links (s := s1) (Nodes.isSome_of_prev hp1)
  rw [hq1] at hload1
  rw [hp1] at hload1'
  have hstore1 := storePrev_run (s := s1) (a := q) (x := some p) (by simpa [s1] using hqs)
  -- and while it is put in
  let s3 : Heap ω := { s with node := s2.node.setPrev f (some z) }
  let s4 : Heap ω := { s with node := s3.node.setNext e (some x) }
  let s5 : Heap ω := { s with node := s4.node.setNext z (some f) }
  have hload2 := loadNode_links (s := s2) (Nodes.isSome_of_prev hz)
  rw [show s2.node.prev x = some z from hz] at hload2
  have hsome2 : ∀ a, (s2.node a).isSome = (s.node a).isSome := fun a => by simp [s2, Nodes.unlink]
  have hstore2 := storePrev_run (s := s2) (a := f) (x := some z) (by rw [hsome2, hfs])
  have hstore3 := storeNext_run (s := s3) (a := e) (x := some x) (by simp [s3, hsome2, hes])
  have hz4 : s4.node.prev x = some z := by
    rw [Nodes.prev_setNext, Nodes.prev_setPrev_of_ne hxf]
    exact hz
  have hload4 := loadNode_links (s := s4) (Nodes.isSome_of_prev hz4)
  rw [hz4] at hload4
  have hstore4 := storeNext_run (s := s4) (a := z) (x := some f) (by simp [s4, s3, hsome2, hzs])
  have hstore5 := storePrev_run (s := s5) (a := x) (x := some e) (by simp [s5, s4, s3, hsome2, hx])
  have hne : ¬ some f = some q := fun he => hfq (Option.some.inj he)
  simp only [listSplice, bind_run, assertElem_run hx hkx, ok_bind, if_neg hne, hlast,
    assertElem_run hfs hkf, assertElem_run hes hke, loadNode_links hfs, loadNode_links hes, hp, hq, derefPtr,
    pure_run, storeNext_run hps]
  show (loadNode e s1).bind _ = _
  rw [hload1, ok_bind]
  show (loadNode f s1).bind _ = _
  rw [hload1', ok_bind]
  show (storePrev q (some p) s1).bind _ = _
  rw [hstore1, ok_bind]
  show (loadNode x s2).bind _ = _
  rw [hload2, ok_bind]
  show (storePrev f (some z) s2).bind _ = _
  rw [hstore2, ok_bind]
  show (storeNext e (some x) s3).bind _ = _
  rw [hstore3, ok_bind]
  show (loadNode x s4).bind _ = _
  rw [hload4, ok_bind]
  show (storeNext z (some f) s4).bind _ = _
  rw [hstore4, ok_bind]
  exact hstore5

/-- **`list_splice`** takes the range `r` out of a list and puts it in between `k₁` and `k₂`, which are
a list in the memory in between. -/
theorem listSplice_range {f h' t' : Addr} {r k₁ k₂ : List Addr} (c : Chain s.node h t (l₁ ++ (r ++ l₂)))
    (hf : r.head? = some f) (hx : (s.node.prev (k₂.headD t')).isSome)
    (hto : ∀ m, Chain m h t (l₁ ++ l₂) → (∀ a, a ∉ h :: (l₁ ++ l₂ ++ [t]) → m a = s.node a) →
      Chain m h' t' (k₁ ++ k₂)) (hdis : ∀ a ∈ r, a ∉ h' :: (k₁ ++ k₂ ++ [t'])) :
    ∃ m₁ m, (listSplice (some (k₂.headD t')) (some f) (some (l₂.headD t)) : ListM ω _) s =
        .ok ((), { s with node := m }) ∧
      Chain m₁ h t (l₁ ++ l₂) ∧ (∀ a, a ∉ h :: (l₁ ++ l₂ ++ [t]) → m₁ a = s.node a) ∧
      Chain m h' t' (k₁ ++ (r ++ k₂)) ∧ ∀ a, a ∉ h' :: (k₁ ++ (r ++ k₂) ++ [t']) → m a = m₁ a := by
  obtain ⟨e, he⟩ : ∃ e, r.getLast? = some e := by
    cases r with
    | nil => cases hf
    | cons a r => exact ⟨_, List.getLast?_eq_some_getLast (List.cons_ne_nil a r)⟩
  obtain ⟨r', hr'⟩ : ∃ r', r = f :: r' := List.head?_eq_some_iff.mp hf
  obtain ⟨r'', hr''⟩ : ∃ r'', r = r'' ++ [e] := List.getLast?_eq_some_iff.mp he
  have hfm : f ∈ r := List.mem_of_mem_head? hf
  have hem : e ∈ r := List.mem_of_getLast? he
  have hnd := c.run.nodup
  obtain ⟨-, -, post, -, hl₂, -⟩ := place_split h t l₁ l₂
  have hqm : l₂.headD t ∈ l₂ ++ [t] := hl₂ ▸ List.mem_cons_self
  obtain ⟨-, -, post', -, hk₂, -⟩ := place_split h' t' k₁ k₂
  have hxm : k₂.headD t' ∈ k₂ ++ [t'] := hk₂ ▸ List.mem_cons_self
  obtain ⟨p, hp, hq, hpm, c₁, hrun⟩ := c.unlinkRange hf he
  have hep : e ≠ p := by grind
  have hfq : f ≠ l₂.headD t := by grind
  have hfx : k₂.headD t' ≠ f := fun hc => hdis f hfm (by grind)
  have hps := c.isSome (a := p) (by grind)
  have hm₁ : ∀ a, a ∉ h :: (l₁ ++ l₂ ++ [t]) → s.node.unlink p (l₂.headD t) a = s.node a :=
    fun a ha => Nodes.unlink_of_ne (by grind) (by grind)
  have hsome : ∀ a, (s.node.unlink p (l₂.headD t) a).isSome = (s.node a).isSome :=
    fun a => by simp [Nodes.unlink]
  have c' := hto _ c₁ hm₁
  obtain ⟨z, hz, hzm, c₂⟩ := c'.linkRange hrun hf he (fun a ha => by
    rw [hsome]
    exact c.isSome (by simp [ha])) hdis
  have hzs := c'.isSome (a := z) (by grind)
  rw [hsome] at hzs
  have hfirst : Chain s.node h t (l₁ ++ f :: (r' ++ l₂)) := by
    rw [hr'] at c
    exact c
  have hlast : Chain s.node h t (l₁ ++ r'' ++ e :: l₂) := by
    rw [hr''] at c
    simpa using c
  refine ⟨_, _, listSplice_run hp (by rw [hfirst.next_of_mem]; rfl) hq hlast.isSome_prev hlast.prev_headD hz hps
    hzs hx hep hfq hfx, c₁, hm₁, c₂, fun a ha => ?_⟩
  exact Nodes.linkRange_of_ne (by grind) (by grind) (by grind) (by grind)

/-- `list_splice` of one element, to a place in front of it. -/
theorem listSplice_chain (c : Chain s.node h t (u ++ x :: (v ++ y :: w))) :
    ∃ m, (listSplice (some x) (some y) (some (w.headD t)) : ListM ω _) s = .ok ((), { s with node := m }) ∧
      Chain m h t (u ++ y :: x :: (v ++ w)) ∧
      ∀ a, a ∉ h :: (u ++ x :: (v ++ y :: w) ++ [t]) → m a = s.node a := by
  have hnd := c.run.nodup
  have hx : (s.node.prev ((x :: (v ++ w)).headD t)).isSome := c.isSome_prev
  have c' : Chain s.node h t ((u ++ x :: v) ++ ([y] ++ w)) := by simpa using c
  have hto : ∀ m, Chain m h t ((u ++ x :: v) ++ w) → (∀ a, a ∉ h :: ((u ++ x :: v) ++ w ++ [t]) → m a = s.node a) →
      Chain m h t (u ++ x :: (v ++ w)) := fun m hc _ => by simpa using hc
  obtain ⟨m₁, m, hrun, -, hm₁, c₂, hm⟩ := listSplice_range c' rfl hx hto (by grind)
  refine ⟨m, hrun, c₂, fun a ha => ?_⟩
  rw [hm a (by grind), hm₁ a (by grind)]

end

/-! ## Runs in memory -/

section

variable {ω : Type} {less : ω → Addr → Addr → Bool} {s : Heap ω} {h t : Addr} {e : Addr}
  {u v w l p q : List Addr} {n : Nat} {le : Addr → Addr → Bool}

theorem assertThat_run (s : Heap ω) {b : Bool} (hb : b = true) : (assertThat b : ListM ω _) s = .ok ((), s) := by
  rw [assertThat, if_pos hb]
  rfl

theorem callLess_run (less : ω → Addr → Addr → Bool) (s : Heap ω) (a b : Addr) :
    callLess less (some a) (some b) s = .ok (less s.data a b, s) := rfl

theorem isSortedLoop_run (c : Chain s.node h t (u ++ e :: (v ++ w)))
    (hs : (e :: v).IsChain fun a b => less s.data b a = false) (hn : v.length < n) :
    isSortedLoop less (some (w.headD t)) n (some e) s = .ok (true, s) := by
  induction n generalizing u e v with
  | zero => omega
  | succ n ih =>
    have hnext : listNext (some e) s = .ok (some ((v ++ w).headD t), s) := listNext_run c
    cases v with
    | nil =>
      simp only [isSortedLoop, bind_run, hnext, ok_bind, List.nil_append, ↓reduceIte]
      rfl
    | cons b v =>
      obtain ⟨heb, hv⟩ := List.isChain_cons_cons.mp hs
      have hassoc : u ++ e :: (b :: v ++ w) = (u ++ [e]) ++ b :: (v ++ w) := by simp
      have c' := c
      rw [hassoc] at c'
      have hne : ¬ some b = some (w.headD t) := fun he => c'.ne_headD (Option.some.inj he)
      have hprev : listPrev (some b) s = .ok (some e, s) := listPrev_run c
      have hcall := callLess_run less s b e
      rw [heb] at hcall
      simp only [isSortedLoop, bind_run, hnext, ok_bind, List.cons_append, List.headD_cons, if_neg hne, hprev,
        hcall, Bool.false_eq_true, ↓reduceIte]
      exact ih c' hv (Nat.lt_of_succ_lt_succ hn)

/-- A range that is in order. -/
theorem isSorted_run (c : Chain s.node h t (u ++ e :: (v ++ w)))
    (hs : (e :: v).IsChain fun a b => less s.data b a = false) (hn : v.length < n) :
    isSorted less n (some e) (some (w.headD t)) s = .ok (true, s) := by
  have hne : ¬ some e = some (w.headD t) := fun he => c.ne_headD (Option.some.inj he)
  rw [isSorted, if_neg hne]
  exact isSortedLoop_run c hs hn

theorem findLoop_run (c : Chain s.node h t (u ++ e :: l))
    (hle : ∀ a ∈ e :: l, ∀ b ∈ e :: l, less s.data b a = !le a b) (hn : l.length < n) :
    findLoop less (some t) n (some e) s = .ok (some ((endOfRun le e l).2.headD t), s) := by
  induction n generalizing u e l with
  | zero => omega
  | succ n ih =>
    have hnext : listNext (some e) s = .ok (some (l.headD t), s) := listNext_run c
    cases l with
    | nil =>
      simp only [findLoop, bind_run, hnext, ok_bind, List.headD_nil, ↓reduceIte]
      rfl
    | cons b l =>
      have hassoc : u ++ e :: b :: l = (u ++ [e]) ++ b :: l := by simp
      have c' := c
      rw [hassoc] at c'
      have hbt : b ≠ t := c'.ne_tail (List.mem_append_right _ List.mem_cons_self)
      have hne : ¬ some b = some t := fun he => hbt (Option.some.inj he)
      have hprev : listPrev (some b) s = .ok (some e, s) := listPrev_run c
      have hcall := callLess_run less s b e
      rw [hle e (List.mem_cons_self ..) b (by simp)] at hcall
      have hrest := ih c' (fun a ha d hd => hle a (List.mem_cons_of_mem e ha) d (List.mem_cons_of_mem e hd))
        (Nat.lt_of_succ_lt_succ hn)
      simp only [findLoop, bind_run, hnext, ok_bind, List.headD_cons, if_neg hne, hprev, hcall]
      unfold endOfRun
      by_cases heb : le e b = true
      · rw [if_pos heb, heb]
        exact hrest
      · have hfalse : le e b = false := by simpa using heb
        rw [if_neg heb, hfalse]
        rfl

/-- **`find_end_of_run`** -/
theorem findEndOfRun_run (c : Chain s.node h t (u ++ e :: l))
    (hle : ∀ a ∈ e :: l, ∀ b ∈ e :: l, less s.data b a = !le a b) (hn : l.length < n) :
    findEndOfRun less n (some e) (some t) s = .ok (some ((endOfRun le e l).2.headD t), s) := by
  have het : e ≠ t := c.ne_tail (List.mem_append_right _ List.mem_cons_self)
  have hne : (some e != some t) = true := by simpa using het
  simp only [findEndOfRun, bind_run, assertThat_run s (b := (some e).isSome) rfl,
    assertThat_run s (b := (some t).isSome) rfl, assertThat_run s hne, ok_bind]
  exact findLoop_run c hle hn

theorem outside_of_subset {L : List Addr} {a : Addr} (hsub : l ⊆ L) (ha : a ∉ h :: (L ++ [t])) :
    a ∉ h :: (l ++ [t]) := by
  intro hmem
  simp only [List.mem_cons, List.mem_append] at hmem ha
  exact ha (hmem.imp_right (Or.imp_left (@hsub a)))

/-- **The loop of `inplace_merge`** merges as lists are merged. -/
theorem mergeLoop_run {L : List Addr} {m : Nodes Addr} (hle : ∀ a ∈ L, ∀ b ∈ L, less s.data b a = !le a b)
    (c : Chain m h t (u ++ (p ++ (q ++ w)))) (hsub : u ++ (p ++ (q ++ w)) ⊆ L)
    (hn : p.length + q.length < n) :
    ∃ m', mergeLoop less (some (w.headD t)) n (some ((p ++ (q ++ w)).headD t)) (some ((q ++ w).headD t))
        { s with node := m } = .ok ((), { s with node := m' }) ∧
      Chain m' h t (u ++ (List.merge p q le ++ w)) ∧ ∀ a, a ∉ h :: (L ++ [t]) → m' a = m a := by
  induction n generalizing u p q m with
  | zero => omega
  | succ n ih =>
    cases p with
    | nil =>
      refine ⟨m, ?_, by rwa [List.nil_merge], fun _ _ => rfl⟩
      rw [mergeLoop, if_neg (by simp)]
      rfl
    | cons x p =>
      cases q with
      | nil =>
        refine ⟨m, ?_, by rwa [List.merge_right], fun _ _ => rfl⟩
        rw [mergeLoop, if_neg (by simp)]
        rfl
      | cons y q =>
        have hx : x ∈ L := hsub (by simp)
        have hy : y ∈ L := hsub (by simp)
        have hassoc : u ++ (x :: p ++ (y :: q ++ w)) = (u ++ x :: p) ++ y :: (q ++ w) := by simp
        have c1 := c
        rw [hassoc] at c1
        have hxy : x ≠ y := c.ne_headD
        have hcond : some ((x :: p ++ (y :: q ++ w)).headD t) ≠ some ((y :: q ++ w).headD t) ∧
            some ((y :: q ++ w).headD t) ≠ some (w.headD t) :=
          ⟨fun he => hxy (Option.some.inj he), fun he => c1.ne_headD (Option.some.inj he)⟩
        have hcall := callLess_run less { s with node := m } y x
        rw [hle x hx y hy] at hcall
        rw [mergeLoop, if_pos hcond]
        by_cases hle' : le x y = true
        · -- the first run goes on
          have hnext : listNext (some x) { s with node := m } =
              .ok (some ((p ++ (y :: q ++ w)).headD t), { s with node := m }) := listNext_run c
          have hassoc2 : u ++ (x :: p ++ (y :: q ++ w)) = (u ++ [x]) ++ (p ++ (y :: q ++ w)) := by simp
          rw [hassoc2] at c hsub
          obtain ⟨m', hrun, c', hframe⟩ := ih c hsub (by simp only [List.length_cons] at hn ⊢; omega)
          rw [hle'] at hcall
          refine ⟨m', ?_, ?_, hframe⟩
          · simp only [List.cons_append, List.headD_cons] at hnext hrun ⊢
            simp only [bind_run, hcall, ok_bind, Bool.not_true, Bool.false_eq_true, ↓reduceIte, hnext]
            exact hrun
          · rw [List.cons_merge_cons_pos le p q hle']
            simpa using c'
        · -- the element of the second run is moved
          have hnext : listNext (some y) { s with node := m } =
              .ok (some ((q ++ w).headD t), { s with node := m }) := listNext_run c1
          have hprev : listPrev (some ((q ++ w).headD t)) { s with node := m } =
              .ok (some y, { s with node := m }) := listPrev_run c1
          have c2 : Chain ({ s with node := m } : Heap ω).node h t (u ++ x :: (p ++ y :: (q ++ w))) := c
          obtain ⟨m1, hsplice, c3, hframe1⟩ := listSplice_chain c2
          have hassoc3 : u ++ y :: x :: (p ++ (q ++ w)) = (u ++ [y]) ++ (x :: p ++ (q ++ w)) := by simp
          rw [hassoc3] at c3
          have hmiddle : (y :: (x :: p ++ (q ++ w))).Perm (x :: p ++ y :: (q ++ w)) := List.perm_middle.symm
          have hperm : ((u ++ [y]) ++ (x :: p ++ (q ++ w))).Perm (u ++ (x :: p ++ (y :: q ++ w))) := by
            rw [List.append_assoc]
            exact hmiddle.append_left u
          have hsub3 : (u ++ [y]) ++ (x :: p ++ (q ++ w)) ⊆ L := fun a ha => hsub (hperm.subset ha)
          obtain ⟨m', hrun, c', hframe⟩ := ih c3 hsub3 (by simp only [List.length_cons] at hn ⊢; omega)
          have hfalse : le x y = false := by simpa using hle'
          rw [hfalse] at hcall
          refine ⟨m', ?_, ?_, fun a ha => ?_⟩
          · simp only [List.cons_append, List.headD_cons] at hrun ⊢
            simp only [bind_run, hcall, ok_bind, Bool.not_false, ↓reduceIte, hnext, hprev, hsplice]
            exact hrun
          · rw [List.cons_merge_cons_neg le p q hle']
            simpa using c'
          · rw [hframe a ha]
            exact hframe1 a (outside_of_subset hsub ha)

/-- A run is in order for the ASSERTs. -/
theorem chain_of_run {L : List Addr} (hle : ∀ a ∈ L, ∀ b ∈ L, less s.data b a = !le a b)
    (hsub : ∀ a ∈ l, a ∈ L) (hl : l.IsChain fun a b => le a b = true) :
    l.IsChain fun a b => less s.data b a = false := by
  refine hl.imp_of_mem_imp fun a b ha hb hab => ?_
  rw [hle a (hsub a ha) b (hsub b hb), hab]
  rfl

/-- **`inplace_merge`** of two runs. -/
theorem inplaceMerge_run {L : List Addr} {m : Nodes Addr} {x y : Addr}
    (hle : ∀ a ∈ L, ∀ b ∈ L, less s.data b a = !le a b)
    (c : Chain m h t (u ++ (x :: p ++ (y :: q ++ w)))) (hsub : u ++ (x :: p ++ (y :: q ++ w)) ⊆ L)
    (hp : (x :: p).IsChain fun a b => le a b = true) (hq : (y :: q).IsChain fun a b => le a b = true)
    (hn : L.length < n) :
    ∃ m', inplaceMerge less n (some x) (some y) (some (w.headD t)) { s with node := m } =
        .ok ((), { s with node := m' }) ∧
      Chain m' h t (u ++ (List.merge (x :: p) (y :: q) le ++ w)) ∧
      ∀ a, a ∉ h :: (L ++ [t]) → m' a = m a := by
  let s' : Heap ω := { s with node := m }
  have hle' : ∀ a ∈ L, ∀ b ∈ L, less s'.data b a = !le a b := hle
  have c1 : Chain s'.node h t (u ++ x :: (p ++ (y :: q ++ w))) := c
  have c2 : Chain s'.node h t ((u ++ x :: p) ++ y :: (q ++ w)) := by simpa using c
  have hlen := (List.subperm_of_subset c.nodup hsub).length_le
  simp only [List.length_append, List.length_cons] at hlen
  have h1 : isSorted less n (some x) (some y) s' = .ok (true, s') :=
    isSorted_run c1 (chain_of_run hle' (fun a ha => hsub (List.mem_append_right u (List.mem_append_left _ ha))) hp)
      (by omega)
  have h2 : isSorted less n (some y) (some (w.headD t)) s' = .ok (true, s') :=
    isSorted_run c2 (chain_of_run hle' (fun a ha => hsub (List.mem_append_right u
      (List.mem_append_right _ (List.mem_append_left w ha)))) hq) (by omega)
  obtain ⟨m', hrun, hc, hframe⟩ := mergeLoop_run hle c hsub (n := n) (by simp only [List.length_cons]; omega)
  refine ⟨m', ?_, hc, hframe⟩
  have hasserts : ∀ a : Addr, (assertThat (some a).isSome : ListM ω _) s' = .ok ((), s') := fun a =>
    assertThat_run s' rfl
  have htrue : (assertThat true : ListM ω _) s' = .ok ((), s') := assertThat_run s' rfl
  show inplaceMerge less n (some x) (some y) (some (w.headD t)) s' = _
  simp only [inplaceMerge, bind_run, hasserts, ok_bind, h1, htrue, h2]
  exact hrun

/-- What one round of a pass does when there is a second run: it finds its end and merges the two. -/
theorem mergeRuns_run {L : List Addr} {m : Nodes Addr} {x y : Addr} {l' : List Addr}
    (hle : ∀ a ∈ L, ∀ b ∈ L, less s.data b a = !le a b) (c : Chain m h t (u ++ x :: l))
    (hsub : u ++ x :: l ⊆ L) (hn : L.length < n) (hrest : (endOfRun le x l).2 = y :: l') :
    findEndOfRun less n (some y) (some t) { s with node := m } =
        .ok (some ((endOfRun le y l').2.headD t), { s with node := m }) ∧
      ∃ m', inplaceMerge less n (some x) (some y) (some ((endOfRun le y l').2.headD t)) { s with node := m } =
          .ok ((), { s with node := m' }) ∧
        Chain m' h t (u ++ List.merge (x :: (endOfRun le x l).1) (y :: (endOfRun le y l').1) le ++
          (endOfRun le y l').2) ∧
        u ++ List.merge (x :: (endOfRun le x l).1) (y :: (endOfRun le y l').1) le ++ (endOfRun le y l').2 ⊆ L ∧
        ∀ a, a ∉ h :: (L ++ [t]) → m' a = m a := by
  have hlen := (List.subperm_of_subset c.nodup hsub).length_le
  have hfirst := endOfRun_append_cons hrest
  have hmem : ∀ a ∈ y :: l', a ∈ L := by
    intro a ha
    refine hsub (List.mem_append_right u ?_)
    rw [← hfirst]
    exact List.mem_append_right _ ha
  have hlt := length_endOfRun le x l
  rw [hrest, List.length_cons] at hlt
  rw [List.length_append, List.length_cons] at hlen
  have c1 : Chain ({ s with node := m } : Heap ω).node h t ((u ++ x :: (endOfRun le x l).1) ++ y :: l') := by
    rw [List.append_assoc, hfirst]
    exact c
  refine ⟨findEndOfRun_run c1 (fun a ha b hb => hle a (hmem a ha) b (hmem b hb)) (by omega), ?_⟩
  rw [endOfRun_split hrest, List.append_assoc] at c hsub
  obtain ⟨m', hmerge, c2, hframe⟩ := inplaceMerge_run hle c hsub (endOfRun_chain le x l)
    (endOfRun_chain le y l') hn
  rw [← List.append_assoc] at c2
  refine ⟨m', hmerge, c2, fun a ha => hsub ?_, hframe⟩
  rw [List.append_assoc] at ha
  rw [← List.append_assoc (x :: (endOfRun le x l).1)]
  exact (((List.merge_perm_append le).append_right _).append_left u).subset ha

/-- **A pass** of `list_sort`. -/
theorem sortPass_run {L : List Addr} {list : KList} {m : Nodes Addr} {k : Nat} (cnt : Nat)
    (hle : ∀ a ∈ L, ∀ b ∈ L, less s.data b a = !le a b) (c : Chain m list.head list.tail (u ++ l))
    (hsub : u ++ l ⊆ L) (hn : L.length < n) (hk : l.length < k) :
    ∃ ps m', sortPass less n list k (some (l.headD list.tail)) cnt { s with node := m } =
        .ok (cnt + ps.length, { s with node := m' }) ∧ MergePass le l ps ∧
      Chain m' list.head list.tail (u ++ ps.flatten) ∧
      ∀ a, a ∉ list.head :: (L ++ [list.tail]) → m' a = m a := by
  induction k generalizing u l m cnt with
  | zero => omega
  | succ k ih =>
    let s' : Heap ω := { s with node := m }
    cases l with
    | nil =>
      refine ⟨[], m, ?_, .nil, c, fun _ _ => rfl⟩
      rw [List.headD_nil, sortPass, if_pos rfl]
      rfl
    | cons a l =>
      have hne : ∀ b ∈ a :: l, ¬ some b = some list.tail := fun b hb he =>
        c.ne_tail (List.mem_append_right u hb) (Option.some.inj he)
      have hat : ¬ some ((a :: l).headD list.tail) = some list.tail := hne a List.mem_cons_self
      have hlen := (List.subperm_of_subset c.nodup hsub).length_le
      rw [List.length_append, List.length_cons] at hlen
      have hmem : ∀ b ∈ a :: l, b ∈ L := fun b hb => hsub (List.mem_append_right u hb)
      have hfind : findEndOfRun less n (some a) (some list.tail) s' =
          .ok (some ((endOfRun le a l).2.headD list.tail), s') :=
        findEndOfRun_run (s := s') c (fun b hb d hd => hle b (hmem b hb) d (hmem d hd)) (by omega)
      cases hrest : (endOfRun le a l).2 with
      | nil =>
        rw [hrest] at hfind
        refine ⟨[a :: l], m, ?_, .last hrest, by simpa using c, fun _ _ => rfl⟩
        rw [sortPass, if_neg hat]
        show (findEndOfRun less n (some a) (some list.tail) s').bind _ = _
        rw [hfind, ok_bind]
        show (if some list.tail = some list.tail then (pure (cnt + 1) : ListM ω Nat) else _) s' = _
        rw [if_pos rfl]
        rfl
      | cons b l' =>
        rw [hrest] at hfind
        have hbt : ¬ some b = some list.tail := by
          apply hne b
          rw [← endOfRun_append_cons hrest]
          exact List.mem_append_right _ List.mem_cons_self
        obtain ⟨hfind2, m1, hmerge, c1, hsub1, hframe1⟩ := mergeRuns_run hle c hsub hn hrest
        have hshort : (endOfRun le b l').2.length < k := by
          have hfirst := length_endOfRun le a l
          have hsecond := length_endOfRun le b l'
          rw [hrest, List.length_cons] at hfirst
          rw [List.length_cons] at hk
          omega
        obtain ⟨ps, m', hrun, hpass, c2, hframe⟩ := ih (cnt + 1) c1 hsub1 hshort
        refine ⟨_, m', ?_, .pair hrest hpass, ?_, fun d hd => (hframe d hd).trans (hframe1 d hd)⟩
        · rw [sortPass, if_neg hat]
          show (findEndOfRun less n (some a) (some list.tail) s').bind _ = _
          rw [hfind, ok_bind]
          show (if some b = some list.tail then (pure (cnt + 1) : ListM ω Nat) else _) s' = _
          rw [if_neg hbt]
          show (findEndOfRun less n (some b) (some list.tail) s').bind _ = _
          rw [hfind2, ok_bind]
          show (inplaceMerge less n (some a) (some b) (some ((endOfRun le b l').2.headD list.tail)) s').bind _ = _
          rw [hmerge, ok_bind]
          show sortPass less n list k _ (cnt + 1) { s with node := m1 } = _
          rw [hrun, List.length_cons]
          congr 2
          omega
        · rwa [List.flatten_cons, ← List.append_assoc]

/-- **The passes** of `list_sort`, as long as there are descents. -/
theorem sortPasses_run {L : List Addr} {list : KList} {m : Nodes Addr} {k : Nat} (ho : IsOrder le)
    (hle : ∀ a ∈ L, ∀ b ∈ L, less s.data b a = !le a b) (c : Chain m list.head list.tail l)
    (hperm : l.Perm L) (hn : L.length < n) (hk : descents le l < k) :
    ∃ m' l', sortPasses less n list k { s with node := m } = .ok ((), { s with node := m' }) ∧
      Chain m' list.head list.tail l' ∧ l'.Perm l ∧ Sorted le l' ∧
      (∀ z, l'.filter (eqv le z) = l.filter (eqv le z)) ∧
      ∀ a, a ∉ list.head :: (L ++ [list.tail]) → m' a = m a := by
  induction k generalizing l m with
  | zero => omega
  | succ k ih =>
    have hbegin : (listBegin list : ListM ω _) { s with node := m } =
        .ok (some (l.headD list.tail), { s with node := m }) := listBegin_run c
    have hnil : Chain m list.head list.tail ([] ++ l) := c
    obtain ⟨ps, m1, hpass, hps, c1, hframe1⟩ := sortPass_run (k := n) 0 hle hnil hperm.subset hn
      (by rw [hperm.length_eq]; exact hn)
    rw [Nat.zero_add] at hpass
    have c1' : Chain m1 list.head list.tail ps.flatten := c1
    by_cases hcnt : 1 < ps.length
    · have hfewer := hps.fewer ho hcnt
      obtain ⟨m', l', hrun, c', hperm', hsorted, hstable, hframe⟩ := ih c1' (hps.perm.trans hperm) (by omega)
      refine ⟨m', l', ?_, c', hperm'.trans hps.perm, hsorted, fun z => (hstable z).trans (hps.stable ho z),
        fun a ha => (hframe a ha).trans (hframe1 a ha)⟩
      simp only [sortPasses, bind_run, hbegin, ok_bind, hpass, if_pos hcnt]
      exact hrun
    · refine ⟨m1, ps.flatten, ?_, c1', hps.perm, hps.sorted_flatten ho (Nat.not_lt.mp hcnt),
        fun z => hps.stable ho z, hframe1⟩
      simp only [sortPasses, bind_run, hbegin, ok_bind, hpass, if_neg hcnt]
      rfl

variable {list : KList}

theorem isSorted_list (c : Chain s.node list.head list.tail l)
    (hs : l.Pairwise fun a b => less s.data b a = false) (hn : l.length < n) :
    isSorted less n (some (l.headD list.tail)) (some list.tail) s = .ok (true, s) := by
  cases l with
  | nil =>
    rw [isSorted, List.headD_nil, if_pos rfl]
    rfl
  | cons e l =>
    have c' : Chain s.node list.head list.tail ([] ++ e :: (l ++ [])) := by simpa using c
    have hrun := isSorted_run c' hs.isChain (Nat.lt_of_succ_lt hn)
    exact hrun

/-- **`list_sort` sorts the list** in place, and keeps the order of the elements that `less` does not
tell apart. More rounds than there are elements are enough for every loop. -/
theorem listSort_sorts (c : Chain s.node list.head list.tail l) (hless : StrictWeak (less s.data) l)
    (hn : l.length < n) :
    ∃ m l', listSort less list n s = .ok ((), { s with node := m }) ∧
      Chain m list.head list.tail l' ∧ l'.Perm l ∧ (l'.Pairwise fun a b => less s.data b a = false) ∧
      (∀ a b, less s.data a b = false → less s.data b a = false → [a, b].Sublist l → [a, b].Sublist l') ∧
      ∀ a, a ∉ list.head :: (l ++ [list.tail]) → m a = s.node a := by
  have ho := hless.isOrder
  have hle : ∀ a ∈ l, ∀ b ∈ l, less s.data b a = !leOf (less s.data) l a b := by
    intro a ha b hb
    rw [leOf_of_mem ha hb, Bool.not_not]
  obtain ⟨m, l', hrun, c', hperm, hsorted, hstable, hframe⟩ := sortPasses_run (k := n) ho hle c (.refl l) hn
    (Nat.lt_of_le_of_lt (descents_le _ l) hn)
  have hmem : ∀ {a}, a ∈ l' → a ∈ l := fun ha => hperm.subset ha
  have hpair : l'.Pairwise fun a b => less s.data b a = false := by
    refine hsorted.imp_of_mem fun {a b} ha hb hab => ?_
    rw [hle a (hmem ha) b (hmem hb), hab]
    rfl
  refine ⟨m, l', ?_, c', hperm, hpair, fun a b hab hba hsub => ?_, hframe⟩
  · have hbegin : (listBegin list : ListM ω _) { s with node := m } =
        .ok (some (l'.headD list.tail), { s with node := m }) := listBegin_run c'
    have hsort : isSorted less n (some (l'.headD list.tail)) (some list.tail) { s with node := m } =
        .ok (true, { s with node := m }) := isSorted_list c' hpair (by rw [hperm.length_eq]; exact hn)
    simp only [listSort, bind_run, hrun, ok_bind, hbegin, hsort]
    exact assertThat_run _ rfl
  · have ha : a ∈ l := hsub.subset (by simp)
    have hb : b ∈ l := hsub.subset (by simp)
    have heqv : eqv (leOf (less s.data) l) a b = true := by
      rw [eqv, leOf_of_mem ha hb, leOf_of_mem hb ha, hab, hba]
      rfl
    exact sublist_of_filter_eqv ho (hstable a) heqv hsub

end

/-- Elements at 2, 3 and 4, where the one at 3 has the least key. -/
def threeElems : Heap (Addr → Nat) where
  node a := [⟨none, some 2⟩, ⟨some 4, none⟩, ⟨some 0, some 3⟩, ⟨some 2, some 4⟩, ⟨some 3, some 1⟩][a]?
  data a := if a = 3 then 0 else 1

def keyLess (key : Addr → Nat) (a b : Addr) : Bool := decide (key a < key b)

theorem threeElems_chain : Chain threeElems.node 0 1 [2, 3, 4] where
  run := by
    refine ⟨?_, by decide⟩
    exact .cons_cons (by exact ⟨rfl, rfl⟩) (.cons_cons (by exact ⟨rfl, rfl⟩) (.cons_cons (by exact ⟨rfl, rfl⟩)
      (.cons_cons (by exact ⟨rfl, rfl⟩) (.singleton 1))))
  first := rfl
  last := rfl

theorem keyLess_strictWeak (key : Addr → Nat) (l : List Addr) : StrictWeak (keyLess key) l where
  irrefl a _ := decide_eq_false (Nat.lt_irrefl (key a))
  trans a _ b _ c _ hab hbc :=
    decide_eq_true (Nat.lt_trans (of_decide_eq_true hab) (of_decide_eq_true hbc))
  incomp a _ b _ c _ hab hba hbc hcb := by
    have h1 := of_decide_eq_false hab
    have h2 := of_decide_eq_false hbc
    exact decide_eq_false (by omega)

theorem threeElems_sorted :
    ∃ m l', listSort keyLess ⟨0, 1⟩ 4 threeElems = .ok ((), { threeElems with node := m }) ∧
      Chain m 0 1 l' ∧ l'.Perm [2, 3, 4] ∧ [2, 4].Sublist l' := by
  let list : KList := ⟨0, 1⟩
  have hchain : Chain threeElems.node list.head list.tail [2, 3, 4] := threeElems_chain
  have hless : StrictWeak (keyLess threeElems.data) [2, 3, 4] := keyLess_strictWeak _ _
  obtain ⟨m, l', hrun, hchain', hperm, -, hstable, -⟩ := listSort_sorts (n := 4) hchain hless (by decide)
  exact ⟨m, l', hrun, hchain', hperm, hstable 2 4 (by decide) (by decide) (by decide)⟩

end Pintos.Kernel
