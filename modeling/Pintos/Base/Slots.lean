import Mathlib.Data.List.Nodup
import Mathlib.Data.List.Perm.Basic
import Mathlib.Logic.Function.Basic

/-!
# Finite maps in an array of slots

A table of a fixed number of slots, each of them free or with a key and a value, and no key in two
of them. Read as a map it does not depend on the slots the keys are in.
-/

namespace Pintos.Base

/-- `cnt` slots with different keys. -/
structure Slots (κ ν : Type) (cnt : Nat) where
  slot : Nat → Option (κ × ν)
  distinct : ∀ i j a v w, i < cnt → j < cnt → slot i = some (a, v) → slot j = some (a, w) → i = j

namespace Slots

variable {κ ν : Type} {cnt : Nat}

/-- What the slots hold, in their order. -/
def bindings (t : Slots κ ν cnt) : List (κ × ν) := (List.range cnt).filterMap t.slot

def keys (t : Slots κ ν cnt) : List κ := t.bindings.map Prod.fst

def values (t : Slots κ ν cnt) : List ν := t.bindings.map Prod.snd

/-- The number of keys. -/
def card (t : Slots κ ν cnt) : Nat := t.bindings.length

/-- All slots are free. -/
def empty : Slots κ ν cnt := ⟨fun _ => none, fun _ _ _ _ _ _ _ h => by cases h⟩

section

variable {t : Slots κ ν cnt} {i : Nat} {a : κ} {v w : ν}

theorem mem_bindings : (a, v) ∈ t.bindings ↔ ∃ i < cnt, t.slot i = some (a, v) := by
  unfold bindings
  rw [List.mem_filterMap]
  exact exists_congr fun j => and_congr_left fun _ => List.mem_range

/-- A key has one value. -/
theorem value_unique (h : (a, v) ∈ t.bindings) (h' : (a, w) ∈ t.bindings) : v = w := by
  obtain ⟨i, hi, h⟩ := mem_bindings.mp h
  obtain ⟨j, hj, h'⟩ := mem_bindings.mp h'
  obtain rfl := t.distinct i j a v w hi hj h h'
  exact congrArg Prod.snd (Option.some.inj (h.symm.trans h'))

theorem keys_nodup (t : Slots κ ν cnt) : t.keys.Nodup := by
  unfold keys bindings
  rw [List.Nodup, List.pairwise_map, List.pairwise_filterMap]
  refine List.nodup_range.pairwise_of_forall_ne fun i hi j hj hne => ?_
  rintro ⟨a, v⟩ hv ⟨b, w⟩ hw rfl
  exact hne (t.distinct i j a v w (List.mem_range.mp hi) (List.mem_range.mp hj) hv hw)

theorem bindings_empty : (empty : Slots κ ν cnt).bindings = [] :=
  List.filterMap_eq_nil_iff.mpr fun _ _ => rfl

/-- There is room for a key as long as a slot is free. -/
theorem card_lt_iff : t.card < cnt ↔ ∃ i < cnt, t.slot i = none := by
  have h : ((List.range cnt).filterMap t.slot).length < (List.range cnt).length ↔
      ∃ i, ∃ _ : i ∈ List.range cnt, t.slot i = none := List.length_filterMap_lt_length_iff_exists
  rw [List.length_range] at h
  refine h.trans (exists_congr fun j => ?_)
  rw [List.mem_range, exists_prop]

/-- Only the slot `i` is different. -/
theorem bindings_update {t' : Slots κ ν cnt} (hi : i < cnt) (h : ∀ j, j ≠ i → t'.slot j = t.slot j) :
    ∃ l₁ l₂, t.bindings = l₁ ++ ((t.slot i).toList ++ l₂) ∧
      t'.bindings = l₁ ++ ((t'.slot i).toList ++ l₂) := by
  obtain ⟨u, v, huv⟩ := List.append_of_mem (List.mem_range.mpr hi)
  have hnd := List.nodup_range (n := cnt)
  rw [huv] at hnd
  have hu : ∀ j ∈ u, t'.slot j = t.slot j := fun j hj => h j (by grind)
  have hv : ∀ j ∈ v, t'.slot j = t.slot j := fun j hj => h j (by grind)
  have hcons : ∀ f : Nat → Option (κ × ν),
      (i :: v).filterMap f = (f i).toList ++ v.filterMap f := fun f => by
    rw [List.filterMap_cons]
    cases f i <;> rfl
  refine ⟨u.filterMap t.slot, v.filterMap t.slot, ?_, ?_⟩
  · rw [bindings, huv, List.filterMap_append, hcons]
  · rw [bindings, huv, List.filterMap_append, hcons, List.filterMap_congr hu, List.filterMap_congr hv]

/-- The slot `i` is cleared. -/
def erase (t : Slots κ ν cnt) (i : Nat) : Slots κ ν cnt where
  slot := Function.update t.slot i none
  distinct j k b x y hj hk hx hy := by
    have hne : ∀ l z, Function.update t.slot i none l = some (b, z) → t.slot l = some (b, z) :=
      fun l z hz => by
        by_cases hl : l = i
        · rw [hl, Function.update_self] at hz
          cases hz
        · rwa [Function.update_of_ne hl] at hz
    exact t.distinct j k b x y hj hk (hne j x hx) (hne k y hy)

theorem bindings_erase (hi : i < cnt) (hs : t.slot i = some (a, v)) :
    t.bindings.Perm ((a, v) :: (t.erase i).bindings) := by
  obtain ⟨l₁, l₂, h1, h2⟩ := bindings_update hi fun j hj =>
    show (t.erase i).slot j = t.slot j from Function.update_of_ne hj _ _
  have hnew : (t.erase i).slot i = none := Function.update_self ..
  rw [h1, h2, hs, hnew]
  exact List.perm_middle

end

section

variable [DecidableEq κ] {t : Slots κ ν cnt} {i : Nat} {a b : κ} {v w : ν}

/-- The value of a key. -/
def get (t : Slots κ ν cnt) (a : κ) : Option ν := (t.bindings.find? fun b => b.1 = a).map Prod.snd

theorem get_eq_some : t.get a = some v ↔ (a, v) ∈ t.bindings := by
  unfold get
  constructor
  · intro h
    obtain ⟨⟨b, w⟩, hf, rfl⟩ := Option.map_eq_some_iff.mp h
    obtain rfl : b = a := by simpa using List.find?_some hf
    exact List.mem_of_find?_eq_some hf
  · intro h
    cases hf : t.bindings.find? fun b => b.1 = a with
    | none => exact absurd (List.find?_eq_none.mp hf _ h) (by simp)
    | some b =>
      obtain ⟨b, w⟩ := b
      obtain rfl : b = a := by simpa using List.find?_some hf
      rw [value_unique h (List.mem_of_find?_eq_some hf)]
      rfl

theorem get_eq_some_iff : t.get a = some v ↔ ∃ i < cnt, t.slot i = some (a, v) :=
  get_eq_some.trans mem_bindings

theorem get_eq_none : t.get a = none ↔ ∀ i < cnt, ∀ v, t.slot i ≠ some (a, v) := by
  rw [Option.eq_none_iff_forall_ne_some]
  constructor
  · exact fun h i hi v hs => h v (get_eq_some_iff.mpr ⟨i, hi, hs⟩)
  · intro h v hv
    obtain ⟨i, hi, hs⟩ := get_eq_some_iff.mp hv
    exact h i hi v hs

theorem mem_keys : a ∈ t.keys ↔ t.get a ≠ none := by
  rw [Option.ne_none_iff_exists', keys, List.mem_map]
  constructor
  · rintro ⟨⟨b, v⟩, h, rfl⟩
    exact ⟨v, get_eq_some.mpr h⟩
  · rintro ⟨v, h⟩
    exact ⟨(a, v), get_eq_some.mp h, rfl⟩

/-- The key is put into the slot `i`. -/
def put (t : Slots κ ν cnt) (i : Nat) (a : κ) (v : ν) (h : t.get a = none) : Slots κ ν cnt where
  slot := Function.update t.slot i (some (a, v))
  distinct j k b x y hj hk hx hy := by
    have hnew := get_eq_none.mp h
    by_cases h1 : j = i <;> by_cases h2 : k = i
    · rw [h1, h2]
    · subst h1
      rw [Function.update_self] at hx
      rw [Function.update_of_ne h2] at hy
      obtain ⟨rfl, -⟩ := Prod.mk.inj (Option.some.inj hx)
      exact absurd hy (hnew k hk y)
    · subst h2
      rw [Function.update_self] at hy
      rw [Function.update_of_ne h1] at hx
      obtain ⟨rfl, -⟩ := Prod.mk.inj (Option.some.inj hy)
      exact absurd hx (hnew j hj x)
    · rw [Function.update_of_ne h1] at hx
      rw [Function.update_of_ne h2] at hy
      exact t.distinct j k b x y hj hk hx hy

theorem bindings_put (hi : i < cnt) (hs : t.slot i = none) (h : t.get a = none) :
    (t.put i a v h).bindings.Perm ((a, v) :: t.bindings) := by
  obtain ⟨l₁, l₂, h1, h2⟩ := bindings_update hi fun j hj =>
    show (t.put i a v h).slot j = t.slot j from Function.update_of_ne hj _ _
  have hnew : (t.put i a v h).slot i = some (a, v) := Function.update_self ..
  rw [h1, h2, hs, hnew]
  exact List.perm_middle

theorem get_put (hi : i < cnt) (hs : t.slot i = none) (h : t.get a = none) :
    (t.put i a v h).get = Function.update t.get a (some v) := by
  funext b
  refine Option.ext fun w => ?_
  rw [get_eq_some, (bindings_put hi hs h).mem_iff, List.mem_cons, Prod.mk.injEq, ← get_eq_some]
  by_cases hb : b = a
  · subst hb
    rw [Function.update_self, h, Option.some.injEq]
    simp [eq_comm]
  · rw [Function.update_of_ne hb]
    simp [hb]

theorem get_erase (hi : i < cnt) (hs : t.slot i = some (a, v)) :
    (t.erase i).get = Function.update t.get a none := by
  have hp := bindings_erase hi hs
  have hnd : ((a, v) :: (t.erase i).bindings).map Prod.fst |>.Nodup :=
    (hp.map Prod.fst).nodup_iff.mp t.keys_nodup
  funext b
  refine Option.ext fun w => ?_
  by_cases hb : b = a
  · subst hb
    rw [Function.update_self, get_eq_some]
    refine iff_of_false (fun hm => ?_) (by simp)
    exact (List.nodup_cons.mp hnd).1 (List.mem_map.mpr ⟨_, hm, rfl⟩)
  · rw [Function.update_of_ne hb, get_eq_some, get_eq_some, hp.mem_iff, List.mem_cons]
    simp [hb]

end

end Slots

end Pintos.Base
