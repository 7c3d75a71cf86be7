import Mathlib.Algebra.Order.Ring.Int
import Pintos.Base.Prog

/-!
# Bytes at addresses (lib/string.c, lib/stdlib.c)

Pointers are 32-bit numbers, and the arithmetic on them goes round. Memory has a byte at some of the
addresses and none at the null pointer; an access to an address without a byte is a fault, so a
program that returns accesses no other bytes than those it is given.
-/

namespace Pintos.Lib

open Pintos.Base

structure Ram where
  /-- The byte at each address, where there is one. -/
  byte : Nat → Option UInt8
  range : ∀ p, (byte p).isSome → 0 < p ∧ p < 2 ^ 32

/-- Why a program over bytes stops. -/
inductive Fault where
  /-- An access to an address that has no byte. -/
  | wild
  /-- A failed ASSERT. -/
  | assertion
  /-- The bound on the rounds of a loop. -/
  | unfinished
  deriving DecidableEq, Repr

abbrev RamM (α : Type) : Type := Prog Ram Fault α

def ptrAdd (p n : Nat) : Nat := (p + n) % 2 ^ 32

/-- `--p` -/
def ptrDec (p : Nat) : Nat := (p + (2 ^ 32 - 1)) % 2 ^ 32

/-- A byte is replaced. -/
def Ram.set (m : Ram) (p : Nat) (b : UInt8) : Ram where
  byte q := if q = p then (m.byte p).map fun _ => b else m.byte q
  range q h := by
    split at h
    · next he =>
      subst he
      exact m.range q (by simpa using h)
    · exact m.range q h

/-- The bytes of a list from `p` on, and nothing else. -/
def Ram.ofList (p : Nat) (l : List UInt8) (h : 0 < p ∧ p + l.length ≤ 2 ^ 32) : Ram where
  byte q := if p ≤ q then l[q - p]? else none
  range q hq := by
    split at hq
    · next hp =>
      obtain ⟨b, hb⟩ := Option.isSome_iff_exists.mp hq
      have hlt := (List.getElem?_eq_some_iff.mp hb).1
      omega
    · cases hq

def load (p : Nat) : RamM UInt8 := do
  let m ← get
  match m.byte p with
  | some b => pure b
  | none => throw .wild

def store (p : Nat) (b : UInt8) : RamM Unit := do
  discard (load p)
  modify (·.set p b)

/-- An ASSERT. -/
def assertThat (b : Bool) : RamM Unit := if b then pure () else throw .assertion

/-! ## Runs -/

section

variable {m m' : Ram} {p q i n : Nat} {b c : UInt8} {l l' : List UInt8}

theorem load_run (h : m.byte p = some b) : load p m = .ok (b, m) := by
  rw [load, bind_run, get_run, ok_bind, h]
  rfl

theorem store_run (h : (m.byte p).isSome) (b : UInt8) : store p b m = .ok ((), m.set p b) := by
  obtain ⟨c, hc⟩ := Option.isSome_iff_exists.mp h
  rw [store, bind_run, discard_run (load_run hc)]
  rfl

theorem assertThat_run (m : Ram) {b : Bool} (h : b = true) : assertThat b m = .ok ((), m) := by
  rw [assertThat, if_pos h]
  rfl

theorem byte_set_self (h : (m.byte p).isSome) : (m.set p b).byte p = some b := by
  obtain ⟨c, hc⟩ := Option.isSome_iff_exists.mp h
  simp [Ram.set, hc]

theorem byte_set_of_ne (h : q ≠ p) : (m.set p b).byte q = m.byte q := if_neg h

@[simp] theorem isSome_set : ((m.set p b).byte q).isSome = (m.byte q).isSome := by
  by_cases h : q = p
  · subst h
    simp [Ram.set]
  · rw [byte_set_of_ne h]

theorem ptrAdd_eq (h : (m.byte (p + i)).isSome) : ptrAdd p i = p + i :=
  Nat.mod_eq_of_lt (m.range _ h).2

/-! ## Blocks -/

/-- The pointer `p` is to `n` bytes. -/
structure Block (m : Ram) (p n : Nat) : Prop where
  ptr : p < 2 ^ 32
  bytes : ∀ i < n, (m.byte (p + i)).isSome

theorem Block.ne_null (h : Block m p n) (hn : 0 < n) : p ≠ 0 :=
  Nat.ne_of_gt (m.range p (h.bytes 0 hn)).1

theorem Block.bound (h : Block m p n) (hn : 0 < n) : p + n ≤ 2 ^ 32 := by
  have := (m.range _ (h.bytes (n - 1) (by omega))).2
  omega

theorem Block.congr (h : Block m p n) (hm : ∀ q, (m'.byte q).isSome = (m.byte q).isSome) :
    Block m' p n := ⟨h.ptr, fun i hi => by rw [hm]; exact h.bytes i hi⟩

/-- The bytes from `p` on are those of the list. -/
def BytesAt (m : Ram) (p : Nat) (l : List UInt8) : Prop := ∀ i (h : i < l.length), m.byte (p + i) = some l[i]

instance (m : Ram) (p : Nat) (l : List UInt8) : Decidable (BytesAt m p l) :=
  inferInstanceAs (Decidable (∀ i (_ : i < l.length), _))

theorem BytesAt.append (h : BytesAt m p (l ++ l')) : BytesAt m p l ∧ BytesAt m (p + l.length) l' := by
  constructor
  · intro i hi
    rw [h i (by rw [List.length_append]; omega), List.getElem_append_left hi]
  · intro i hi
    rw [Nat.add_assoc, h (l.length + i) (by rw [List.length_append]; omega),
      List.getElem_append_right (by omega)]
    simp

theorem BytesAt.join (h : BytesAt m p l) (h' : BytesAt m (p + l.length) l') : BytesAt m p (l ++ l') := by
  intro i hi
  rw [List.length_append] at hi
  by_cases hil : i < l.length
  · rw [h i hil, List.getElem_append_left hil]
  · obtain ⟨j, rfl⟩ := Nat.exists_eq_add_of_le (Nat.not_lt.mp hil)
    rw [← Nat.add_assoc, h' j (by omega), List.getElem_append_right (by omega)]
    simp

theorem BytesAt.head (h : BytesAt m p (b :: l)) : m.byte p = some b := h 0 (by simp)

theorem BytesAt.tail (h : BytesAt m p (b :: l)) : BytesAt m (p + 1) l := by
  have h' : BytesAt m p ([b] ++ l) := h
  exact h'.append.2

theorem BytesAt.congr (h : BytesAt m p l) (hm : ∀ i < l.length, m'.byte (p + i) = m.byte (p + i)) :
    BytesAt m' p l := fun i hi => (hm i hi).trans (h i hi)

end

end Pintos.Lib
