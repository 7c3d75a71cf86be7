import Mathlib.Data.List.Basic
import Mathlib.Data.List.Perm.Basic
import Pintos.Base.NaturalMerge

/-!
# The first element of each class

Under a strict weak order two elements are in one class if neither is less. `firsts` are the elements of
a list with none of their class in front of them, `repeats` the others. In a sorted list an element is
one of the first exactly if it is not in the class of the last one of these.
-/

namespace Pintos.Base

variable {α : Type}

/-- Neither element is less. -/
def sameClass (lt : α → α → Bool) (a b : α) : Bool := !lt a b && !lt b a

variable [DecidableEq α]

/-- No element in front of `a` is in its class. -/
def isFirst (lt : α → α → Bool) (l : List α) (a : α) : Bool :=
  (l.takeWhile fun b => decide (b ≠ a)).all fun b => !sameClass lt b a

def firsts (lt : α → α → Bool) (l : List α) : List α := l.filter (isFirst lt l)

def repeats (lt : α → α → Bool) (l : List α) : List α := l.filter fun a => !isFirst lt l a

variable {lt : α → α → Bool} {l p v : List α} {a b e : α}

theorem isFirst_middle (hb : b ∉ p) : isFirst lt (p ++ b :: v) b = p.all fun x => !sameClass lt x b := by
  have htake : ((p ++ b :: v).takeWhile fun x => decide (x ≠ b)) = p := by
    rw [List.takeWhile_append_of_pos fun x hx => decide_eq_true (ne_of_mem_of_not_mem hx hb),
      List.takeWhile_cons_of_neg (by simp), List.append_nil]
  rw [isFirst, htake]

/-- Behind `p`, of which no element is greater than `e`. -/
theorem isFirst_sorted (h : StrictWeak lt (p ++ b :: v)) (hs : (p ++ b :: v).Pairwise fun a b => lt b a = false)
    (hb : b ∉ p) (he : e ∈ p) (hmax : ∀ x ∈ p, lt e x = false) :
    isFirst lt (p ++ b :: v) b = !sameClass lt e b := by
  rw [isFirst_middle hb]
  have hin : ∀ {x}, x ∈ p → x ∈ p ++ b :: v := fun hx => List.mem_append_left _ hx
  have hbm : b ∈ p ++ b :: v := by simp
  cases hc : sameClass lt e b with
  | true => exact List.all_eq_false.mpr ⟨e, he, by simp [hc]⟩
  | false =>
    refine List.all_eq_true.mpr fun x hx => ?_
    have hbe : lt b e = false := (List.pairwise_append.mp hs).2.2 e he b List.mem_cons_self
    have heb : lt e b = true := by
      rw [sameClass, hbe] at hc
      simpa using hc
    rw [Bool.not_eq_true', sameClass]
    cases hxb : lt x b with
    | true => rfl
    | false =>
      have := h.not_lt_trans hbm (hin hx) (hin he) hxb (hmax x hx)
      rw [heb] at this
      cases this

/-- The first elements of a sorted list increase. -/
theorem firsts_increasing (hs : l.Pairwise fun a b => lt b a = false) (hnd : l.Nodup) :
    (firsts lt l).Pairwise fun a b => lt a b = true := by
  refine List.pairwise_filter.mpr (List.pairwise_iff_getElem.mpr fun i j hi hj hij _ hfirst => ?_)
  have hba := List.pairwise_iff_getElem.mp hs i j hi hj hij
  have hsplit : l = l.take j ++ l[j] :: l.drop (j + 1) := by
    rw [← List.drop_eq_getElem_cons hj, List.take_append_drop]
  have hmem : l[i] ∈ l.take j := List.mem_take_iff_getElem.mpr ⟨i, by omega, rfl⟩
  have hnot : l[j] ∉ l.take j := by
    rw [hsplit, List.nodup_append] at hnd
    exact fun hc => hnd.2.2 _ hc _ List.mem_cons_self rfl
  have hall : isFirst lt (l.take j ++ l[j] :: l.drop (j + 1)) l[j] = true := by rwa [← hsplit]
  rw [isFirst_middle hnot, List.all_eq_true] at hall
  have hnc := hall _ hmem
  rw [Bool.not_eq_true', sameClass, hba] at hnc
  simpa using hnc

theorem firsts_repeats_perm (lt : α → α → Bool) (l : List α) : (firsts lt l ++ repeats lt l).Perm l :=
  List.filter_append_perm (isFirst lt l) l

end Pintos.Base
