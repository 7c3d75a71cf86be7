import Pintos.Base.FirstOfClass
import Pintos.Kernel.ListOps

/-!
# Removing duplicates (lib/kernel/list.c)

`list_unique` compares each element with the one behind it and takes that out as long as the two are
equal. The list of the duplicates is any other list of the heap, or none.
-/

namespace Pintos.Kernel

open Pintos.Base

section

variable {ω : Type} (less : ω → Addr → Addr → Bool)

/-- `!less (a, b, aux) && !less (b, a, aux)` -/
def equalElems (a b : Option Addr) : ListM ω Bool := do
  let below ← callLess less a b
  if below then pure false
  else do
    let above ← callLess less b a
    pure !above

/-- `if (duplicates != NULL) list_push_back (duplicates, next);` -/
def pushDuplicate (duplicates : Option KList) (next : Option Addr) : ListM ω Unit :=
  match duplicates with
  | none => pure ()
  | some list => do
    let next ← derefPtr next
    listPushBack list next

/-- The loop of `list_unique`, at most `n` times. -/
def uniqueLoop (list : KList) (duplicates : Option KList) : (n : Nat) → (elem : Option Addr) → ListM ω Unit
  | 0, _ => throw .unfinished
  | n + 1, elem => do
    let next ← listNext elem
    if next = some list.tail then pure ()
    else do
      let equal ← equalElems less elem next
      if equal then do
        discard (listRemove next)
        pushDuplicate duplicates next
        uniqueLoop list duplicates n elem
      else uniqueLoop list duplicates n next

def listUnique (n : Nat) (list : KList) (duplicates : Option KList) : ListM ω Unit := do
  if ← listEmpty list then pure ()
  else do
    let elem ← listBegin list
    uniqueLoop less list duplicates n elem

end

section

variable {ω ι : Type} [DecidableEq ι] {less : ω → Addr → Addr → Bool} {s : Heap ω} {lists : ι → KList}
  {seq : ι → List Addr} {i : ι} {dup : Option ι} {n : Nat} {e : Addr} {k p u v r l : List Addr}

/-- The list `i` has the elements `kept`, and `removed` is behind the old duplicates, if there is a list of them. -/
def uniqueSeq (seq : ι → List Addr) (i : ι) (dup : Option ι) (kept removed : List Addr) : ι → List Addr :=
  match dup with
  | none => Function.update seq i kept
  | some j => Function.update (Function.update seq i kept) j (seq j ++ removed)

theorem uniqueSeq_self : uniqueSeq seq i dup (seq i) [] = seq := by
  cases dup with
  | none => exact Function.update_eq_self i seq
  | some j =>
    show Function.update (Function.update seq i (seq i)) j (seq j ++ []) = seq
    rw [Function.update_eq_self, List.append_nil, Function.update_eq_self]

theorem uniqueSeq_list (hd : ∀ j, dup = some j → j ≠ i) : uniqueSeq seq i dup k r i = k := by
  cases dup with
  | none => exact Function.update_self ..
  | some j =>
    have hij : i ≠ j := (hd j rfl).symm
    show Function.update (Function.update seq i k) j (seq j ++ r) i = k
    rw [Function.update_of_ne hij, Function.update_self]

theorem uniqueSeq_update (hd : ∀ j, dup = some j → j ≠ i) :
    Function.update (uniqueSeq seq i dup k r) i l = uniqueSeq seq i dup l r := by
  cases dup with
  | none => exact Function.update_idem ..
  | some j =>
    show Function.update (Function.update (Function.update seq i k) j (seq j ++ r)) i l = _
    rw [Function.update_comm (hd j rfl), Function.update_idem]
    rfl

/-- Its new place, if there is a list of duplicates. -/
theorem pushDuplicate_run (hd : ∀ j, dup = some j → j ≠ i)
    (L : Lists s.node lists (uniqueSeq seq i dup k r)) (he : Unlinked s.node lists (uniqueSeq seq i dup k r) e) :
    ∃ m, pushDuplicate (dup.map lists) (some e) s = .ok ((), { s with node := m }) ∧
      Lists m lists (uniqueSeq seq i dup k (r ++ [e])) := by
  cases dup with
  | none => exact ⟨s.node, rfl, L⟩
  | some j =>
    have hj : uniqueSeq seq i (some j) k r j = seq j ++ r := Function.update_self ..
    obtain ⟨m, hrun, c', hm⟩ := listPushBack_chain (L.chain j) he.isSome (he.notMem j)
    have L' := L.update c' (fun a _ ha => hm a ha) fun a ha => by
      rcases List.mem_append.mp ha with ha | ha
      · exact .inl ha
      · exact .inr (List.mem_singleton.mp ha ▸ he)
    refine ⟨m, hrun, ?_⟩
    have heq : Function.update (uniqueSeq seq i (some j) k r) j (uniqueSeq seq i (some j) k r j ++ [e]) =
        uniqueSeq seq i (some j) k (r ++ [e]) := by
      rw [hj, List.append_assoc]
      exact Function.update_idem ..
    rwa [heq] at L'

theorem equalElems_run (less : ω → Addr → Addr → Bool) (s : Heap ω) (a b : Addr) :
    equalElems less (some a) (some b) s = .ok (sameClass (less s.data) a b, s) := by
  unfold equalElems sameClass
  rw [bind_run, callLess_run, ok_bind]
  dsimp only
  cases less s.data a b with
  | true => rfl
  | false =>
    rw [if_neg Bool.false_ne_true, bind_run, callLess_run]
    rfl

/-- **The loop**, when the elements `p` are done and `e` is the last one of them that is left. -/
theorem uniqueLoop_run {lt : Addr → Addr → Bool} {whole : List Addr} (hd : ∀ j, dup = some j → j ≠ i)
    (hlt : less s.data = lt) (hless : StrictWeak lt whole) (hsorted : whole.Pairwise fun a b => lt b a = false)
    (hnd : whole.Nodup) (hw : whole = p ++ v) (he : e ∈ p) (hmax : ∀ x ∈ p, lt e x = false)
    (hk : p.filter (isFirst lt whole) = k ++ [e])
    (L : Lists s.node lists (uniqueSeq seq i dup (k ++ e :: v) (p.filter fun a => !isFirst lt whole a)))
    (hn : v.length < n) :
    ∃ m, uniqueLoop less (lists i) (dup.map lists) n (some e) s = .ok ((), { s with node := m }) ∧
      Lists m lists (uniqueSeq seq i dup (firsts lt whole) (repeats lt whole)) := by
  induction n generalizing s p v e k with
  | zero => omega
  | succ n ih =>
    have c := L.chain i
    rw [uniqueSeq_list hd] at c
    have hnext : listNext (some e) s = .ok (some (v.headD (lists i).tail), s) := listNext_run c
    rw [uniqueLoop, bind_run, hnext, ok_bind]
    cases v with
    | nil =>
      rw [List.append_nil] at hw
      subst hw
      refine ⟨s.node, ?_, ?_⟩
      · rw [List.headD_nil, if_pos rfl]
        rfl
      · rw [firsts, hk]
        exact L
    | cons b v =>
      have hne : ¬ some b = some (lists i).tail := fun hc => c.ne_tail (by simp) (Option.some.inj hc)
      have hbp : b ∉ p := by
        rw [hw, List.nodup_append] at hnd
        exact fun hc => hnd.2.2 b hc b List.mem_cons_self rfl
      have hfirst : isFirst lt whole b = !sameClass lt e b := by
        subst hw
        exact isFirst_sorted hless hsorted hbp he hmax
      have hw' : whole = p ++ [b] ++ v := by rw [hw, List.append_assoc]; rfl
      rw [List.headD_cons, if_neg hne, bind_run, equalElems_run, ok_bind, hlt]
      dsimp only
      cases hc : sameClass lt e b with
      | true =>
        -- `b` goes to the duplicates
        rw [hc] at hfirst
        have hsplit : uniqueSeq seq i dup (k ++ e :: b :: v) (p.filter fun a => !isFirst lt whole a) i =
            (k ++ [e]) ++ b :: v := by
          rw [uniqueSeq_list hd, List.append_assoc]
          rfl
        obtain ⟨m₁, hremove, L₁, hfree, -⟩ := L.removeElem hsplit
        rw [uniqueSeq_update hd] at L₁ hfree
        obtain ⟨m₂, hpush, L₂⟩ := pushDuplicate_run (s := { s with node := m₁ }) hd L₁ hfree
        have hkeep : (p ++ [b]).filter (isFirst lt whole) = k ++ [e] := by
          rw [List.filter_append, hk, List.filter_singleton, hfirst]
          exact List.append_nil _
        have hdrop : ((p ++ [b]).filter fun a => !isFirst lt whole a) =
            (p.filter fun a => !isFirst lt whole a) ++ [b] := by
          rw [List.filter_append, List.filter_singleton, hfirst]
          rfl
        have hmax' : ∀ x ∈ p ++ [b], lt e x = false := by
          intro x hx
          rcases List.mem_append.mp hx with hx | hx
          · exact hmax x hx
          · rw [sameClass, Bool.and_eq_true, Bool.not_eq_true'] at hc
            rw [List.mem_singleton.mp hx]
            exact hc.1
        rw [List.append_assoc, ← hdrop] at L₂
        obtain ⟨m, hrun, L'⟩ := ih (s := { s with node := m₂ }) hlt hw' (List.mem_append_left _ he) hmax' hkeep L₂
          (Nat.lt_of_succ_lt_succ hn)
        refine ⟨m, ?_, L'⟩
        rw [if_pos rfl, bind_run, discard_run hremove, ok_bind, bind_run, hpush, ok_bind]
        exact hrun
      | false =>
        -- `b` is the first of its class
        rw [hc] at hfirst
        have hkeep : (p ++ [b]).filter (isFirst lt whole) = k ++ [e] ++ [b] := by
          rw [List.filter_append, hk, List.filter_singleton, hfirst]
          rfl
        have hdrop : ((p ++ [b]).filter fun a => !isFirst lt whole a) = p.filter fun a => !isFirst lt whole a := by
          rw [List.filter_append, List.filter_singleton, hfirst]
          exact List.append_nil _
        have hmax' : ∀ x ∈ p ++ [b], lt b x = false := by
          intro x hx
          rcases List.mem_append.mp hx with hx | hx
          · rw [hw] at hsorted
            exact (List.pairwise_append.mp hsorted).2.2 x hx b List.mem_cons_self
          · rw [List.mem_singleton.mp hx]
            exact hless.irrefl b (hw ▸ by simp)
        have hassoc : k ++ e :: b :: v = k ++ [e] ++ b :: v := by simp
        rw [hassoc, ← hdrop] at L
        rw [if_neg Bool.false_ne_true]
        exact ih hlt hw' (by simp) hmax' hkeep L (Nat.lt_of_succ_lt_succ hn)

/-- **`list_unique`** of a sorted list leaves the first element of each class in it, and puts the others
behind the old elements of the other list, if there is one. -/
theorem list_unique_firsts (L : Lists s.node lists seq) (hd : ∀ j, dup = some j → j ≠ i)
    (hless : StrictWeak (less s.data) (seq i)) (hsorted : (seq i).Pairwise fun a b => less s.data b a = false)
    (hn : (seq i).length < n) :
    ∃ m, listUnique less n (lists i) (dup.map lists) s = .ok ((), { s with node := m }) ∧
      Lists m lists (uniqueSeq seq i dup (firsts (less s.data) (seq i)) (repeats (less s.data) (seq i))) ∧
      ((firsts (less s.data) (seq i)).Pairwise fun a b => less s.data a b = true) ∧
      (firsts (less s.data) (seq i) ++ repeats (less s.data) (seq i)).Perm (seq i) := by
  have c := L.chain i
  have hpair := firsts_increasing hsorted c.nodup
  have hperm := firsts_repeats_perm (less s.data) (seq i)
  cases hl : seq i with
  | nil =>
    refine ⟨s.node, ?_, ?_, .nil, .nil⟩
    · rw [hl] at c
      rw [listUnique, bind_run, listEmpty_run c]
      rfl
    · have hself : uniqueSeq seq i dup (seq i) [] = seq := uniqueSeq_self
      rw [hl] at hself
      show Lists s.node lists (uniqueSeq seq i dup [] [])
      rwa [hself]
  | cons e v =>
    rw [← hl]
    have hw : seq i = [e] ++ v := hl
    have hfirst : isFirst (less s.data) (seq i) e = true := by
      rw [hl]
      exact isFirst_middle (p := []) (by simp)
    have hk : [e].filter (isFirst (less s.data) (seq i)) = [] ++ [e] := by
      rw [List.filter_singleton, hfirst]
      rfl
    have hr : ([e].filter fun a => !isFirst (less s.data) (seq i) a) = [] := by
      rw [List.filter_singleton, hfirst]
      rfl
    have hmax : ∀ x ∈ [e], less s.data e x = false := by
      intro x hx
      rw [List.mem_singleton.mp hx]
      exact hless.irrefl e (hl ▸ List.mem_cons_self)
    have L' : Lists s.node lists (uniqueSeq seq i dup ([] ++ e :: v)
        ([e].filter fun a => !isFirst (less s.data) (seq i) a)) := by
      rw [hr, List.nil_append, ← hl, uniqueSeq_self]
      exact L
    rw [hl, List.length_cons] at hn
    obtain ⟨m, hrun, L''⟩ := uniqueLoop_run (n := n) hd rfl hless hsorted c.nodup hw (by simp) hmax hk L' (by omega)
    refine ⟨m, ?_, L'', hpair, hperm⟩
    rw [hl] at c
    rw [listUnique, bind_run, listEmpty_run c, ok_bind, List.isEmpty_cons, if_neg Bool.false_ne_true, bind_run,
      listBegin_run c]
    exact hrun

end

/-- Of the elements 2, 3 and 4 the last one has another key. -/
def keyedLists : Heap (Addr → Nat) where
  node := twoLists.node
  data a := if a = 4 then 2 else 1

theorem keyedLists_unique :
    ∃ m, listUnique keyLess 4 ⟨0, 1⟩ (some ⟨5, 6⟩) keyedLists = .ok ((), { keyedLists with node := m }) ∧
      Chain m 0 1 [2, 4] ∧ Chain m 5 6 [3] := by
  have hsorted : [2, 3, 4].Pairwise fun a b => keyLess keyedLists.data b a = false := by decide
  obtain ⟨m, hrun, L, -⟩ := list_unique_firsts (s := keyedLists) (n := 4) (i := false) twoLists_lists
    (show ∀ j, some true = some j → j ≠ false from fun j hj => by cases hj; decide)
    (keyLess_strictWeak _ _) hsorted (by decide)
  exact ⟨m, hrun, L.chain false, L.chain true⟩

end Pintos.Kernel
