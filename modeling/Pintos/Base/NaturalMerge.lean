import Mathlib.Data.List.Chain
import Mathlib.Data.List.Basic
import Mathlib.Tactic.Common

/-!
# Natural merge sort

A pass over a list merges its runs, the maximal nondecreasing segments, two by two. It leaves one
sorted piece for each pair, in the order of the pairs, so that a pass with more than one piece makes
the descents of the list fewer, and a pass with one piece sorts it. Elements that the order does not
tell apart keep their order.
-/

namespace Pintos.Base

section

variable {α : Type}

/-- The rest of the run that begins with `a`, and what follows the run. -/
def endOfRun (le : α → α → Bool) (a : α) : List α → List α × List α
  | [] => ([], [])
  | b :: l => if le a b then (b :: (endOfRun le b l).1, (endOfRun le b l).2) else ([], b :: l)

/-- A pass over the list, with the pieces it leaves. -/
inductive MergePass (le : α → α → Bool) : List α → List (List α) → Prop where
  | nil : MergePass le [] []
  | last {a : α} {l : List α} (h : (endOfRun le a l).2 = []) : MergePass le (a :: l) [a :: l]
  | pair {a b : α} {l l' : List α} {ps : List (List α)} (h : (endOfRun le a l).2 = b :: l')
      (hp : MergePass le (endOfRun le b l').2 ps) :
      MergePass le (a :: l) (List.merge (a :: (endOfRun le a l).1) (b :: (endOfRun le b l').1) le :: ps)

/-- How often an element is less than the one in front of it. -/
def descents (le : α → α → Bool) : List α → Nat
  | a :: b :: l => (if le a b then 0 else 1) + descents le (b :: l)
  | _ => 0

/-- The order does not tell the two apart. -/
def eqv (le : α → α → Bool) (a b : α) : Bool := le a b && le b a

/-- A total preorder. -/
structure IsOrder (le : α → α → Bool) : Prop where
  trans : ∀ a b c, le a b = true → le b c = true → le a c = true
  total : ∀ a b, (le a b || le b a) = true

def Sorted (le : α → α → Bool) (l : List α) : Prop := l.Pairwise fun a b => le a b = true

variable {le : α → α → Bool} {a b : α} {l l' p q : List α} {ps : List (List α)}

theorem endOfRun_append (le : α → α → Bool) (a : α) (l : List α) :
    (endOfRun le a l).1 ++ (endOfRun le a l).2 = l := by
  induction l generalizing a with
  | nil => rfl
  | cons b l ih =>
    unfold endOfRun
    split
    · exact congrArg (b :: ·) (ih b)
    · rfl

theorem endOfRun_chain (le : α → α → Bool) (a : α) (l : List α) :
    (a :: (endOfRun le a l).1).IsChain fun a b => le a b = true := by
  induction l generalizing a with
  | nil => exact .singleton a
  | cons b l ih =>
    unfold endOfRun
    split
    · next h => exact .cons_cons h (ih b)
    · exact .singleton a

/-- A run ends in front of a descent. -/
theorem descents_endOfRun (le : α → α → Bool) (a : α) (l : List α) : descents le (a :: l) =
    if (endOfRun le a l).2 = [] then 0 else 1 + descents le (endOfRun le a l).2 := by
  induction l generalizing a with
  | nil => rfl
  | cons b l ih =>
    have hstep : descents le (a :: b :: l) = (if le a b then 0 else 1) + descents le (b :: l) := rfl
    rw [hstep, endOfRun]
    by_cases h : le a b = true
    · rw [if_pos h, if_pos h, Nat.zero_add]
      exact ih b
    · rw [if_neg h, if_neg h, if_neg (List.cons_ne_nil b l)]

theorem descents_append (le : α → α → Bool) (p q : List α) :
    descents le (p ++ q) ≤ descents le p + 1 + descents le q := by
  induction p with
  | nil => exact Nat.le_add_left _ _
  | cons a p ih =>
    cases p with
    | nil =>
      cases q with
      | nil => exact Nat.zero_le _
      | cons b q =>
        show (if le a b then 0 else 1) + descents le (b :: q) ≤ 0 + 1 + descents le (b :: q)
        split <;> omega
    | cons b p =>
      show (if le a b then 0 else 1) + descents le (b :: p ++ q) ≤
        (if le a b then 0 else 1) + descents le (b :: p) + 1 + descents le q
      omega

theorem descents_le (le : α → α → Bool) (l : List α) : descents le l ≤ l.length := by
  induction l with
  | nil => exact Nat.le_refl 0
  | cons a l ih =>
    cases l with
    | nil => exact Nat.zero_le _
    | cons b l =>
      show (if le a b then 0 else 1) + descents le (b :: l) ≤ (b :: l).length + 1
      split <;> omega

theorem descents_of_sorted (h : Sorted le l) : descents le l = 0 := by
  induction l with
  | nil => rfl
  | cons a l ih =>
    obtain ⟨ha, hl⟩ := List.pairwise_cons.mp h
    cases l with
    | nil => rfl
    | cons b l =>
      show (if le a b then 0 else 1) + descents le (b :: l) = 0
      rw [if_pos (ha b (List.mem_cons_self ..)), ih hl]

/-- A list without a run behind its first one is that run. -/
theorem endOfRun_eq_self (h : (endOfRun le a l).2 = []) : (endOfRun le a l).1 = l := by
  have happ := endOfRun_append le a l
  rwa [h, List.append_nil] at happ

theorem endOfRun_append_cons (h : (endOfRun le a l).2 = b :: l') :
    a :: (endOfRun le a l).1 ++ b :: l' = a :: l := by
  rw [← h]
  exact congrArg (a :: ·) (endOfRun_append le a l)

theorem length_endOfRun (le : α → α → Bool) (a : α) (l : List α) : (endOfRun le a l).2.length ≤ l.length := by
  have happ := congrArg List.length (endOfRun_append le a l)
  rw [List.length_append] at happ
  omega

theorem endOfRun_split (h : (endOfRun le a l).2 = b :: l') :
    a :: l = a :: (endOfRun le a l).1 ++ (b :: (endOfRun le b l').1) ++ (endOfRun le b l').2 := by
  calc a :: l = a :: (endOfRun le a l).1 ++ b :: l' := (endOfRun_append_cons h).symm
    _ = a :: (endOfRun le a l).1 ++ b :: ((endOfRun le b l').1 ++ (endOfRun le b l').2) := by
      rw [endOfRun_append le b l']
    _ = _ := by simp

/-! ## A pass -/

theorem MergePass.perm (h : MergePass le l ps) : ps.flatten.Perm l := by
  induction h with
  | nil => exact .refl _
  | last h =>
    rw [List.flatten_cons, List.flatten_nil, List.append_nil]
  | @pair a b l l' ps h hp ih =>
    rw [List.flatten_cons, endOfRun_split h]
    exact (List.merge_perm_append le).append ih

/-- A pass leaves at most half as many pieces as there were runs. -/
theorem MergePass.count (h : MergePass le l ps) : 2 * ps.length ≤ descents le l + 2 ∧ (l = [] → ps = []) := by
  induction h with
  | nil => exact ⟨Nat.zero_le _, fun _ => rfl⟩
  | last h => exact ⟨Nat.le_add_left _ _, fun h => by cases h⟩
  | @pair a b l l' ps h hp ih =>
    refine ⟨?_, fun h => by cases h⟩
    have hfirst := descents_endOfRun le a l
    rw [h, if_neg (List.cons_ne_nil b l')] at hfirst
    have hsecond := descents_endOfRun le b l'
    rw [List.length_cons]
    by_cases hrest : (endOfRun le b l').2 = []
    · rw [ih.2 hrest]
      simp only [List.length_nil]
      omega
    · rw [if_neg hrest] at hsecond
      omega

theorem descents_flatten (h : ∀ p ∈ ps, Sorted le p) : descents le ps.flatten ≤ ps.length - 1 := by
  induction ps with
  | nil => exact Nat.le_refl 0
  | cons p ps ih =>
    have hp := descents_of_sorted (h p (List.mem_cons_self ..))
    cases ps with
    | nil =>
      rw [List.flatten_cons, List.flatten_nil, List.append_nil, hp]
      exact Nat.zero_le _
    | cons q ps =>
      have hrest := ih fun r hr => h r (List.mem_cons_of_mem p hr)
      have happ := descents_append le p (q :: ps).flatten
      rw [List.flatten_cons]
      simp only [List.length_cons] at hrest ⊢
      omega

theorem IsOrder.sorted_of_chain (ho : IsOrder le) (h : l.IsChain fun a b => le a b = true) :
    Sorted le l := by
  have : IsTrans α fun a b => le a b = true := ⟨ho.trans⟩
  exact List.isChain_iff_pairwise.mp h

theorem MergePass.sorted (h : MergePass le l ps) (ho : IsOrder le) : ∀ p ∈ ps, Sorted le p := by
  induction h with
  | nil =>
    intro p hp
    cases hp
  | @last a l h =>
    intro p hp
    obtain rfl := List.mem_singleton.mp hp
    have hchain := endOfRun_chain le a l
    rw [endOfRun_eq_self h] at hchain
    exact ho.sorted_of_chain hchain
  | @pair a b l l' ps h hp ih =>
    intro p hmem
    rcases List.mem_cons.mp hmem with rfl | hmem
    · exact List.pairwise_merge ho.trans ho.total _ _ (ho.sorted_of_chain (endOfRun_chain le a l))
        (ho.sorted_of_chain (endOfRun_chain le b l'))
    · exact ih p hmem

/-- **More than one piece** means fewer descents than before. -/
theorem MergePass.fewer (h : MergePass le l ps) (ho : IsOrder le) (hps : 1 < ps.length) :
    descents le ps.flatten < descents le l := by
  have hcount := h.count.1
  have hflat := descents_flatten (h.sorted ho)
  omega

/-- One piece is the sorted list. -/
theorem MergePass.sorted_flatten (h : MergePass le l ps) (ho : IsOrder le) (hps : ps.length ≤ 1) :
    Sorted le ps.flatten := by
  have hall := h.sorted ho
  match ps, hps with
  | [], _ => exact .nil
  | [p], _ =>
    rw [List.flatten_cons, List.flatten_nil, List.append_nil]
    exact hall p (List.mem_cons_self ..)

/-- Merging keeps the order of the elements of a class: those of the first list come first. -/
theorem filter_merge (ho : IsOrder le) (z : α) (hp : Sorted le p) :
    (List.merge p q le).filter (eqv le z) = p.filter (eqv le z) ++ q.filter (eqv le z) := by
  induction p generalizing q with
  | nil => rw [List.nil_merge, List.filter_nil, List.nil_append]
  | cons x p ihp =>
    obtain ⟨hx, hp'⟩ := List.pairwise_cons.mp hp
    induction q with
    | nil => rw [List.merge_right, List.filter_nil, List.append_nil]
    | cons y q ihq =>
      by_cases hxy : le x y = true
      · rw [List.cons_merge_cons_pos le p q hxy]
        by_cases hz : eqv le z x = true
        · rw [List.filter_cons_of_pos hz, List.filter_cons_of_pos hz, ihp hp']
          rfl
        · rw [List.filter_cons_of_neg hz, List.filter_cons_of_neg hz, ihp hp']
      · rw [List.cons_merge_cons_neg le p q hxy]
        by_cases hz : eqv le z y = true
        · -- nothing of the first list is in the class of `y`
          have hnone : (x :: p).filter (eqv le z) = [] := by
            refine List.filter_eq_nil_iff.mpr fun a ha haz => hxy ?_
            obtain ⟨hzy, -⟩ := Bool.and_eq_true_iff.mp hz
            obtain ⟨-, haz⟩ := Bool.and_eq_true_iff.mp haz
            have hxa : le x a = true := by
              rcases List.mem_cons.mp ha with rfl | ha
              · have := ho.total a a
                rwa [Bool.or_self] at this
              · exact hx a ha
            exact ho.trans _ _ _ hxa (ho.trans _ _ _ haz hzy)
          rw [List.filter_cons_of_pos hz, List.filter_cons_of_pos hz, ihq, hnone]
          rfl
        · rw [List.filter_cons_of_neg hz, List.filter_cons_of_neg hz, ihq]

theorem MergePass.stable (h : MergePass le l ps) (ho : IsOrder le) (z : α) :
    ps.flatten.filter (eqv le z) = l.filter (eqv le z) := by
  induction h with
  | nil => rfl
  | last h => rw [List.flatten_cons, List.flatten_nil, List.append_nil]
  | @pair a b l l' ps h hp ih =>
    have hrun := ho.sorted_of_chain (endOfRun_chain le a l)
    rw [List.flatten_cons, List.filter_append, filter_merge ho z hrun, ih]
    conv => rhs; rw [endOfRun_split h]
    rw [List.filter_append, List.filter_append]

/-- A stable rearrangement keeps two elements of a class in their order. -/
theorem sublist_of_filter_eqv (ho : IsOrder le) (hl : l'.filter (eqv le a) = l.filter (eqv le a))
    (hab : eqv le a b = true) (h : [a, b].Sublist l) : [a, b].Sublist l' := by
  have haa : eqv le a a = true := by
    have htotal := ho.total a a
    rw [Bool.or_self] at htotal
    rw [eqv, htotal]
    rfl
  have hfilter : [a, b].filter (eqv le a) = [a, b] := by
    rw [List.filter_cons_of_pos haa, List.filter_cons_of_pos hab, List.filter_nil]
  have hsub := h.filter (eqv le a)
  rw [hfilter, ← hl] at hsub
  exact hsub.trans List.filter_sublist

end

/-! ## Strict weak orders -/

section

variable {α : Type} {lt : α → α → Bool} {l : List α}

/-- A strict weak order on the elements of a list. -/
structure StrictWeak (lt : α → α → Bool) (l : List α) : Prop where
  irrefl : ∀ a ∈ l, lt a a = false
  trans : ∀ a ∈ l, ∀ b ∈ l, ∀ c ∈ l, lt a b = true → lt b c = true → lt a c = true
  incomp : ∀ a ∈ l, ∀ b ∈ l, ∀ c ∈ l, lt a b = false → lt b a = false → lt b c = false → lt c b = false →
    lt a c = false

/-- The preorder of a strict weak order, with all that is not in the list above it. -/
def leOf [DecidableEq α] (lt : α → α → Bool) (l : List α) (a b : α) : Bool :=
  if b ∈ l then decide (a ∈ l) && !lt b a else true

theorem StrictWeak.asymm (h : StrictWeak lt l) {a b : α} (ha : a ∈ l) (hb : b ∈ l)
    (hab : lt a b = true) : lt b a = false := by
  refine Bool.eq_false_iff.mpr fun hba => ?_
  have haa := h.trans a ha b hb a ha hab hba
  rw [h.irrefl a ha] at haa
  cases haa

/-- Not being greater is transitive. -/
theorem StrictWeak.not_lt_trans (h : StrictWeak lt l) {a b c : α} (ha : a ∈ l) (hb : b ∈ l) (hc : c ∈ l)
    (hba : lt b a = false) (hcb : lt c b = false) : lt c a = false := by
  refine Bool.eq_false_iff.mpr fun hca => ?_
  have hab : lt a b = false := by
    refine Bool.eq_false_iff.mpr fun hab => ?_
    have := h.trans c hc a ha b hb hca hab
    rw [hcb] at this
    cases this
  have hbc : lt b c = false := by
    refine Bool.eq_false_iff.mpr fun hbc => ?_
    have := h.trans b hb c hc a ha hbc hca
    rw [hba] at this
    cases this
  have := h.incomp c hc b hb a ha hcb hbc hba hab
  rw [hca] at this
  cases this

variable [DecidableEq α]

theorem leOf_of_mem {a b : α} (ha : a ∈ l) (hb : b ∈ l) : leOf lt l a b = !lt b a := by
  rw [leOf, if_pos hb, decide_eq_true ha, Bool.true_and]

theorem StrictWeak.isOrder (h : StrictWeak lt l) : IsOrder (leOf lt l) where
  trans := by
    intro a b c hab hbc
    by_cases hc : c ∈ l
    · rw [leOf, if_pos hc, Bool.and_eq_true, decide_eq_true_eq, Bool.not_eq_true'] at hbc
      obtain ⟨hb, hcb⟩ := hbc
      rw [leOf, if_pos hb, Bool.and_eq_true, decide_eq_true_eq, Bool.not_eq_true'] at hab
      obtain ⟨ha, hba⟩ := hab
      rw [leOf_of_mem ha hc, h.not_lt_trans ha hb hc hba hcb]
      rfl
    · rw [leOf, if_neg hc]
  total := by
    intro a b
    by_cases ha : a ∈ l
    · by_cases hb : b ∈ l
      · rw [leOf_of_mem ha hb, leOf_of_mem hb ha]
        cases hba : lt b a with
        | false => rfl
        | true =>
          rw [h.asymm hb ha hba]
          rfl
      · rw [leOf, if_neg hb]
        rfl
    · rw [Bool.or_comm, leOf, if_neg ha]
      rfl

end

end Pintos.Base
