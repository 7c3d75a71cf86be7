import Mathlib.Data.List.TakeWhile
import Mathlib.Data.List.Pairwise
import Mathlib.Algebra.Order.Ring.Int
import Mathlib.Tactic.Common

/-!
# Lists ordered by a key

Insertion before the first larger element keeps a list ordered, and on a list
ordered by a key the elements up to a bound are a prefix: dropping them is
filtering.
-/

namespace Pintos.Base

variable {α β : Type} [LinearOrder β]

/-- The keys are nondecreasing. -/
def Ordered (key : α → β) (l : List α) : Prop := l.Pairwise fun a b => key a ≤ key b

/-- Insert `x` just before the first element `less` puts it before. -/
def insertBy (less : α → α → Bool) (x : α) : List α → List α
  | [] => [x]
  | e :: l => if less x e then x :: e :: l else e :: insertBy less x l

theorem mem_insertBy {less : α → α → Bool} {x y : α} {l : List α} :
    y ∈ insertBy less x l ↔ y = x ∨ y ∈ l := by
  induction l with
  | nil => simp [insertBy]
  | cons e l ih =>
    unfold insertBy
    split
    · simp
    · simp only [List.mem_cons, ih]; tauto

theorem nodup_insertBy {less : α → α → Bool} {x : α} {l : List α} (hx : x ∉ l) (h : l.Nodup) :
    (insertBy less x l).Nodup := by
  induction l with
  | nil => simp [insertBy]
  | cons e l ih =>
    simp only [List.mem_cons, not_or] at hx
    obtain ⟨hxe, hxl⟩ := hx
    obtain ⟨he, hl⟩ := List.nodup_cons.mp h
    unfold insertBy
    split
    · exact List.nodup_cons.mpr ⟨by simp [hxe, hxl], h⟩
    · refine List.nodup_cons.mpr ⟨?_, ih hxl hl⟩
      rw [mem_insertBy]
      rintro (rfl | h')
      · exact hxe rfl
      · exact he h'

/-- An element `less` puts before those related to it, and after all others, is
inserted where the relation wants it. -/
theorem pairwise_insertBy {R : α → α → Prop} {less : α → α → Bool} {x : α} {l : List α}
    (h : l.Pairwise R) (hlt : ∀ a ∈ l, less x a = true → R x a)
    (hge : ∀ a ∈ l, less x a = false → R a x)
    (htrans : ∀ a ∈ l, ∀ b ∈ l, less x a = true → R a b → R x b) :
    (insertBy less x l).Pairwise R := by
  induction l with
  | nil => simp [insertBy]
  | cons e l ih =>
    obtain ⟨he, hl⟩ := List.pairwise_cons.mp h
    have hmem := fun {a : α} (ha : a ∈ l) => List.mem_cons_of_mem e ha
    unfold insertBy
    split
    · next hx =>
      refine List.pairwise_cons.mpr ⟨fun b hb => ?_, h⟩
      rcases List.mem_cons.mp hb with rfl | hb
      · exact hlt b List.mem_cons_self hx
      · exact htrans e List.mem_cons_self b (hmem hb) hx (he b hb)
    · next hx =>
      have ih := ih hl (fun a ha => hlt a (hmem ha)) (fun a ha => hge a (hmem ha))
        fun a ha b hb => htrans a (hmem ha) b (hmem hb)
      refine List.pairwise_cons.mpr ⟨fun b hb => ?_, ih⟩
      rcases mem_insertBy.mp hb with rfl | hb
      · exact hge e List.mem_cons_self (by simpa using hx)
      · exact he b hb

theorem ordered_insertBy {key : α → β} {x : α} {l : List α} (h : Ordered key l) :
    Ordered key (insertBy (fun a b => decide (key a < key b)) x l) := by
  refine pairwise_insertBy h ?_ ?_ ?_
  · intro a _ hx
    exact le_of_lt (of_decide_eq_true hx)
  · intro a _ hx
    exact not_lt.mp (of_decide_eq_false hx)
  · intro a _ b _ hx hab
    exact (le_of_lt (of_decide_eq_true hx)).trans hab

/-- Dropping the elements up to a bound from an ordered list leaves exactly the
elements above it. -/
theorem Ordered.dropWhile_eq_filter {key : α → β} {l : List α} (h : Ordered key l) (b : β) :
    l.dropWhile (fun a => decide (key a ≤ b)) = l.filter (fun a => decide (b < key a)) := by
  induction l with
  | nil => rfl
  | cons e l ih =>
    obtain ⟨he, hl⟩ := List.pairwise_cons.mp h
    by_cases hb : key e ≤ b
    · simp only [List.dropWhile_cons, hb, decide_true, ↓reduceIte, List.filter_cons,
        not_lt.mpr hb, decide_false, Bool.false_eq_true]
      exact ih hl
    · have hlt : b < key e := not_le.mp hb
      simp only [List.dropWhile_cons, hb, decide_false, Bool.false_eq_true, ↓reduceIte,
        List.filter_cons, hlt, decide_true, List.cons.injEq, true_and]
      refine (List.filter_eq_self.mpr fun a ha => ?_).symm
      exact decide_eq_true (hlt.trans_le (he a ha))

/-- Two elements of a list stand in it in one order or the other. -/
theorem rel_or_rel_of_mem {R : α → α → Prop} {l : List α} (h : l.Pairwise R) {a b : α}
    (ha : a ∈ l) (hb : b ∈ l) (hne : a ≠ b) : R a b ∨ R b a := by
  have : Std.Symm fun a b => R a b ∨ R b a := ⟨fun _ _ hab => hab.symm⟩
  exact (h.imp (S := fun a b => R a b ∨ R b a) fun hab => .inl hab).forall ha hb hne

theorem Ordered.sublist {key : α → β} {l l' : List α} (h : Ordered key l) (hs : l'.Sublist l) :
    Ordered key l' := List.Pairwise.sublist hs h

end Pintos.Base
