import Pintos.Lib.ByteMemory

/-!
# Moving bytes (lib/string.c)

`memmove` copies upwards when the destination is below the source and downwards otherwise, so that
no byte is overwritten before it is read. The upward loop leaves its pointer behind the destination,
and that is what is returned.
-/

namespace Pintos.Lib

open Pintos.Base

/-- `while (size-- > 0) *dst++ = *src++;`, and `dst` behind it. -/
def copyUp : (size : Nat) → (dst src : Nat) → RamM Nat
  | 0, dst, _ => pure dst
  | size + 1, dst, src => do
    let b ← load src
    store dst b
    copyUp size (ptrAdd dst 1) (ptrAdd src 1)

/-- `while (size-- > 0) *--dst = *--src;`, and `dst` behind it. -/
def copyDown : (size : Nat) → (dst src : Nat) → RamM Nat
  | 0, dst, _ => pure dst
  | size + 1, dst, src => do
    let b ← load (ptrDec src)
    store (ptrDec dst) b
    copyDown size (ptrDec dst) (ptrDec src)

def memmove (dst src size : Nat) : RamM Nat := do
  assertThat (dst != 0 || size == 0)
  assertThat (src != 0 || size == 0)
  if dst < src then copyUp size dst src
  else copyDown size (ptrAdd dst size) (ptrAdd src size)

/-- The `size` bytes at `src` are at `dst`, and the others as they were. -/
structure Moved (m m' : Ram) (dst src size : Nat) : Prop where
  copied : ∀ i < size, m'.byte (dst + i) = m.byte (src + i)
  frame : ∀ q, (∀ i < size, q ≠ dst + i) → m'.byte q = m.byte q

section

variable {m m' : Ram} {dst src size : Nat}

/-- One byte, and then the others behind it, from where they are not yet overwritten. -/
theorem Moved.up {b : UInt8} (hb : m.byte src = some b) (hd : (m.byte dst).isSome) (hlt : dst < src)
    (h : Moved (m.set dst b) m' (dst + 1) (src + 1) size) : Moved m m' dst src (size + 1) where
  copied i hi := by
    cases i with
    | zero =>
      rw [Nat.add_zero, Nat.add_zero, hb, h.frame dst fun j _ => by omega]
      exact byte_set_self hd
    | succ i =>
      have hcopied := h.copied i (by omega)
      rw [byte_set_of_ne (by omega), Nat.add_right_comm, Nat.add_right_comm src] at hcopied
      exact hcopied
  frame q hq := by
    rw [h.frame q fun j hj => ?_]
    · exact byte_set_of_ne (hq 0 (by omega))
    · have := hq (j + 1) (by omega)
      omega

/-- The last byte, and then those in front of it. -/
theorem Moved.down {b : UInt8} (hb : m.byte (src + size) = some b) (hd : (m.byte (dst + size)).isSome)
    (hle : src ≤ dst) (h : Moved (m.set (dst + size) b) m' dst src size) : Moved m m' dst src (size + 1) where
  copied i hi := by
    by_cases he : i = size
    · subst he
      rw [hb, h.frame (dst + i) fun j hj => by omega]
      exact byte_set_self hd
    · rw [h.copied i (by omega), byte_set_of_ne (by omega)]
  frame q hq := by
    rw [h.frame q fun j hj => hq j (by omega)]
    exact byte_set_of_ne (hq size (by omega))

theorem ptrAdd_mod (p n : Nat) : ptrAdd (p % 2 ^ 32) n = (p + n) % 2 ^ 32 := Nat.mod_add_mod ..

/-- A pointer may go round behind the last byte. -/
theorem copyUp_run (hd : ∀ i < size, (m.byte (dst + i)).isSome) (hs : ∀ i < size, (m.byte (src + i)).isSome)
    (hlt : dst < src) : ∃ m', copyUp size (dst % 2 ^ 32) (src % 2 ^ 32) m = .ok ((dst + size) % 2 ^ 32, m') ∧
      Moved m m' dst src size := by
  induction size generalizing m dst src with
  | zero => exact ⟨m, rfl, ⟨fun i hi => absurd hi (Nat.not_lt_zero i), fun q _ => rfl⟩⟩
  | succ size ih =>
    have hd0 : (m.byte dst).isSome := hd 0 (Nat.succ_pos size)
    have hs0 : (m.byte src).isSome := hs 0 (Nat.succ_pos size)
    obtain ⟨b, hb⟩ := Option.isSome_iff_exists.mp hs0
    have hd' : ∀ i < size, ((m.set dst b).byte (dst + 1 + i)).isSome := by
      intro i hi
      rw [isSome_set, Nat.add_assoc, Nat.add_comm 1]
      exact hd (i + 1) (by omega)
    have hs' : ∀ i < size, ((m.set dst b).byte (src + 1 + i)).isSome := by
      intro i hi
      rw [isSome_set, Nat.add_assoc, Nat.add_comm 1]
      exact hs (i + 1) (by omega)
    obtain ⟨m', hrun, hmoved⟩ := ih hd' hs' (by omega)
    refine ⟨m', ?_, hmoved.up hb hd0 hlt⟩
    have hload : load (src % 2 ^ 32) m = .ok (b, m) := by
      rw [Nat.mod_eq_of_lt (m.range _ hs0).2]
      exact load_run hb
    have hstore : store (dst % 2 ^ 32) b m = .ok ((), m.set dst b) := by
      rw [Nat.mod_eq_of_lt (m.range _ hd0).2]
      exact store_run hd0 b
    rw [copyUp, bind_run, hload, ok_bind, bind_run, hstore, ok_bind, ptrAdd_mod, ptrAdd_mod, hrun,
      Nat.add_right_comm]
    rfl

theorem ptrDec_ptrAdd {p n : Nat} (h : p + n < 2 ^ 32) : ptrDec (ptrAdd p (n + 1)) = p + n := by
  unfold ptrDec ptrAdd
  omega

theorem copyDown_run (hd : Block m dst size) (hs : Block m src size) (hle : src ≤ dst) :
    ∃ m', copyDown size (ptrAdd dst size) (ptrAdd src size) m = .ok (dst, m') ∧ Moved m m' dst src size := by
  induction size generalizing m with
  | zero =>
    refine ⟨m, ?_, ⟨fun i hi => absurd hi (Nat.not_lt_zero i), fun q _ => rfl⟩⟩
    rw [copyDown, ptrAdd, Nat.add_zero, Nat.mod_eq_of_lt hd.ptr]
    rfl
  | succ size ih =>
    have hd0 := hd.bytes size (Nat.lt_succ_self size)
    have hs0 := hs.bytes size (Nat.lt_succ_self size)
    obtain ⟨b, hb⟩ := Option.isSome_iff_exists.mp hs0
    have hblock : ∀ {p : Nat}, Block m p (size + 1) → Block (m.set (dst + size) b) p size := fun h =>
      ⟨h.ptr, fun i hi => by rw [isSome_set]; exact h.bytes i (by omega)⟩
    have hdst := (m.range _ hd0).2
    have hsrc := (m.range _ hs0).2
    obtain ⟨m', hrun, hmoved⟩ := ih (hblock hd) (hblock hs)
    refine ⟨m', ?_, hmoved.down hb hd0 hle⟩
    rw [ptrAdd, ptrAdd, Nat.mod_eq_of_lt hdst, Nat.mod_eq_of_lt hsrc] at hrun
    rw [copyDown, ptrDec_ptrAdd hdst, ptrDec_ptrAdd hsrc, bind_run, load_run hb, ok_bind, bind_run,
      store_run hd0, ok_bind, hrun]

/-- **The bytes** are moved whatever the two ranges share. -/
theorem memmove_run (hd : Block m dst size) (hs : Block m src size) :
    ∃ m', memmove dst src size m = .ok (if dst < src then ptrAdd dst size else dst, m') ∧
      Moved m m' dst src size := by
  have hassert : ∀ {p : Nat}, Block m p size → assertThat (p != 0 || size == 0) m = .ok ((), m) := by
    intro p h
    apply assertThat_run m
    by_cases hz : size = 0
    · simp [hz]
    · have := h.ne_null (Nat.pos_of_ne_zero hz)
      simp [this]
  by_cases hlt : dst < src
  · obtain ⟨m', hrun, hmoved⟩ := copyUp_run hd.bytes hs.bytes hlt
    rw [Nat.mod_eq_of_lt hd.ptr, Nat.mod_eq_of_lt hs.ptr] at hrun
    refine ⟨m', ?_, hmoved⟩
    rw [memmove, bind_run, hassert hd, ok_bind, bind_run, hassert hs, ok_bind, if_pos hlt, if_pos hlt, hrun]
    rfl
  · obtain ⟨m', hrun, hmoved⟩ := copyDown_run hd hs (Nat.not_lt.mp hlt)
    refine ⟨m', ?_, hmoved⟩
    rw [memmove, bind_run, hassert hd, ok_bind, bind_run, hassert hs, ok_bind, if_neg hlt, if_neg hlt, hrun]

/-- The bytes are moved and the destination is returned. -/
def MemmoveOk (m : Ram) (dst src size : Nat) : Prop :=
  ∃ m', memmove dst src size m = .ok (dst, m') ∧ Moved m m' dst src size

/-- **`memmove`** does what it says exactly when it copies downwards, or nothing: else it returns the
pointer behind the destination. -/
theorem memmove_ok_iff (hd : Block m dst size) (hs : Block m src size) :
    MemmoveOk m dst src size ↔ src ≤ dst ∨ size = 0 := by
  obtain ⟨m', hrun, hmoved⟩ := memmove_run hd hs
  have hret : MemmoveOk m dst src size ↔ (if dst < src then ptrAdd dst size else dst) = dst := by
    constructor
    · rintro ⟨m'', hrun', -⟩
      rw [hrun] at hrun'
      exact (Prod.mk.inj (Except.ok.inj hrun')).1
    · intro he
      rw [he] at hrun
      exact ⟨m', hrun, hmoved⟩
  rw [hret]
  have hptr := hd.ptr
  by_cases hz : size = 0
  · refine iff_of_true ?_ (.inr hz)
    rw [hz, ptrAdd, Nat.add_zero, Nat.mod_eq_of_lt hptr, ite_self]
  · have hbound := hd.bound (Nat.pos_of_ne_zero hz)
    have hnull := hd.ne_null (Nat.pos_of_ne_zero hz)
    by_cases hlt : dst < src
    · rw [if_pos hlt, ptrAdd]
      omega
    · rw [if_neg hlt]
      omega

end

/-- Three bytes, moved down by one and up by one. -/
def threeBytes : Ram := Ram.ofList 16 [97, 98, 99] (by decide)

theorem threeBytes_moved_up : MemmoveOk threeBytes 17 16 2 :=
  (@memmove_ok_iff threeBytes 17 16 2 ⟨by decide, by decide⟩ ⟨by decide, by decide⟩).mpr (.inl (by decide))

theorem threeBytes_moved_down : ¬ ∀ (m : Ram) (dst src size : Nat), Block m dst size → Block m src size →
    MemmoveOk m dst src size := by
  intro h
  obtain ⟨m', hrun, -⟩ := h threeBytes 16 17 2 ⟨by decide, by decide⟩ ⟨by decide, by decide⟩
  cases hrun

end Pintos.Lib
