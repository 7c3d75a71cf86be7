import Mathlib.Data.List.Pairwise
import Mathlib.Data.List.Perm.Basic
import Mathlib.Order.Defs.Unbundled
import Mathlib.Tactic.Common

/-!
# Lists with one element of each class

A list in which no two elements are equivalent is a finite map from the classes to their
elements. Looking one up does not depend on the order of the list, and adding and erasing
an element change the map at its class only.
-/

namespace Pintos.Base

variable {α : Type}

/-- Neither element is less than the other. -/
def incomparable (less : α → α → Bool) (a b : α) : Bool := !less a b && !less b a

/-- No two elements of the list are of the same class. -/
def OnePerClass (same : α → α → Bool) (l : List α) : Prop := l.Pairwise fun a b => same a b = false

/-- The element of the class of `x`. -/
def lookup (same : α → α → Bool) (l : List α) (x : α) : Option α := l.find? fun a => same a x

/-- The map with `e` for its class. -/
def put (same : α → α → Bool) (m : α → Option α) (e x : α) : Option α :=
  if same e x then some e else m x

/-- The map without the class of `e`. -/
def drop (same : α → α → Bool) (m : α → Option α) (e x : α) : Option α :=
  if same e x then none else m x

/-- Being of the same class. -/
structure Classes (same : α → α → Bool) : Prop where
  refl : ∀ a, same a a = true
  symm : ∀ a b, same a b = same b a
  trans : ∀ a b c, same a b = true → same b c = true → same a c = true

theorem classes_incomparable {less : α → α → Bool}
    (h : IsStrictWeakOrder α fun a b => less a b = true) : Classes (incomparable less) where
  refl a := by
    have := h.toIsStrictOrder.toIrrefl.irrefl a
    simp [incomparable, this]
  symm a b := Bool.and_comm ..
  trans a b c hab hbc := by
    simp only [incomparable, Bool.and_eq_true, Bool.not_eq_true'] at *
    have := h.incomp_trans a b c (by simp [hab]) (by simp [hbc])
    simpa using this

section

variable {same : α → α → Bool} {l l' : List α} {a e x : α}

theorem OnePerClass.perm (hc : Classes same) (h : OnePerClass same l) (hp : l.Perm l') :
    OnePerClass same l' :=
  (hp.pairwise_iff fun hab => (hc.symm _ _).trans hab).mp h

theorem OnePerClass.nodup (hc : Classes same) (h : OnePerClass same l) : l.Nodup := by
  refine List.Pairwise.imp (fun hab he => ?_) h
  subst he
  rw [hc.refl] at hab
  cases hab

theorem OnePerClass.eq (hc : Classes same) (h : OnePerClass same l) (ha : a ∈ l) (he : e ∈ l)
    (hs : same a e = true) : a = e := by
  by_contra hne
  have : Std.Symm fun a b => same a b = false := ⟨fun a b hab => (hc.symm b a).trans hab⟩
  have hno : same a e = false := h.forall ha he hne
  rw [hs] at hno
  cases hno

theorem lookup_eq_some (hc : Classes same) (h : OnePerClass same l) :
    lookup same l x = some a ↔ a ∈ l ∧ same a x = true := by
  refine ⟨fun hl => ⟨List.mem_of_find?_eq_some hl,
    List.find?_some (p := fun a => same a x) hl⟩, ?_⟩
  rintro ⟨ha, hs⟩
  cases hl : lookup same l x with
  | none => exact absurd hs (by simpa using List.find?_eq_none.mp hl a ha)
  | some b =>
    have hb : same b x = true := List.find?_some (p := fun a => same a x) hl
    have hba := hc.trans b x a hb ((hc.symm x a).trans hs)
    rw [h.eq hc (List.mem_of_find?_eq_some hl) ha hba]

theorem lookup_perm (hc : Classes same) (h : OnePerClass same l) (hp : l.Perm l') :
    lookup same l = lookup same l' := by
  funext x
  refine Option.ext fun a => ?_
  rw [lookup_eq_some hc h, lookup_eq_some hc (h.perm hc hp), hp.mem_iff]

/-- A part of the list that has the elements of the class finds the same. -/
theorem lookup_sublist (hc : Classes same) (h : OnePerClass same l) (hl : l'.Sublist l)
    (hx : ∀ a ∈ l, same a x = true → a ∈ l') : lookup same l' x = lookup same l x := by
  refine Option.ext fun a => ?_
  rw [lookup_eq_some hc h, lookup_eq_some hc (List.Pairwise.sublist hl h)]
  exact ⟨fun ha => ⟨hl.subset ha.1, ha.2⟩, fun ha => ⟨hx a ha.1 ha.2, ha.2⟩⟩

theorem lookup_cons (e : α) (l : List α) : lookup same (e :: l) = put same (lookup same l) e := by
  funext x
  unfold lookup put
  rw [List.find?_cons]
  cases same e x <;> rfl

theorem OnePerClass.cons (hc : Classes same) (h : OnePerClass same l) (hno : lookup same l e = none) :
    OnePerClass same (e :: l) := by
  refine List.pairwise_cons.mpr ⟨fun a ha => ?_, h⟩
  rw [hc.symm]
  simpa using List.find?_eq_none.mp hno a ha

theorem lookup_erase [DecidableEq α] (hc : Classes same) (h : OnePerClass same l) (ha : a ∈ l) :
    lookup same (l.erase a) = drop same (lookup same l) a := by
  have hsub := List.erase_sublist (a := a) (l := l)
  funext x
  refine Option.ext fun b => ?_
  rw [lookup_eq_some hc (List.Pairwise.sublist hsub h), (h.nodup hc).mem_erase_iff, drop]
  cases hs : same a x with
  | false =>
    rw [if_neg (by simp), lookup_eq_some hc h]
    refine ⟨fun hb => ⟨hb.1.2, hb.2⟩, fun hb => ⟨⟨?_, hb.1⟩, hb.2⟩⟩
    rintro rfl
    rw [hs] at hb
    cases hb.2
  | true =>
    rw [if_pos rfl]
    refine ⟨fun hb => ?_, fun hb => by cases hb⟩
    exact absurd (h.eq hc hb.1.2 ha (hc.trans b x a hb.2 ((hc.symm x a).trans hs))) hb.1.1

theorem drop_of_none (hc : Classes same) (hno : lookup same l e = none) :
    drop same (lookup same l) e = lookup same l := by
  funext x
  unfold drop
  split
  · next hex =>
    refine (List.find?_eq_none.mpr fun a ha hax => ?_).symm
    exact List.find?_eq_none.mp hno a ha (hc.trans a x e hax ((hc.symm x e).trans hex))
  · rfl

/-- An equivalent element replaces the one erased. -/
theorem put_drop (hc : Classes same) (hs : same a e = true) (m : α → Option α) :
    put same (drop same m a) e = put same m e := by
  funext x
  unfold put drop
  split
  · rfl
  · next hex =>
    rw [if_neg fun hax => hex (hc.trans e a x ((hc.symm e a).trans hs) hax)]

theorem drop_congr (hc : Classes same) (hs : same a e = true) (m : α → Option α) :
    drop same m a = drop same m e := by
  funext x
  unfold drop
  have : same a x = same e x := by
    refine Bool.eq_iff_iff.mpr ⟨fun hax => ?_, hc.trans a e x hs⟩
    exact hc.trans e a x ((hc.symm e a).trans hs) hax
  rw [this]

end

end Pintos.Base
