import Pintos.Base.Links
import Pintos.Base.Prog

/-!
# Doubly linked lists (lib/kernel/list.c)

The list functions load and store the `prev` and `next` of elements that are part of other
objects; those are the `data` of the heap. An element that is not allocated can be neither
loaded nor stored, and a null pointer fails the ASSERT of every function that has one.
-/

namespace Pintos.Kernel

open Pintos.Base

abbrev Addr := Nat

structure Heap (ω : Type) where
  /-- The `struct list_elem` at each address, where one is allocated. -/
  node : Nodes Addr
  data : ω

/-- Why a program over lists stops. -/
inductive Fault where
  /-- An access to memory that is not allocated. -/
  | wild
  /-- A failed ASSERT. -/
  | assertion
  /-- The bound on the rounds of a loop. -/
  | unfinished
  deriving DecidableEq, Repr

abbrev ListM (ω α : Type) : Type := Prog (Heap ω) Fault α

/-- The addresses of the elements in a `struct list`. -/
structure KList where
  head : Addr
  tail : Addr

section

variable {ω : Type}

def loadNode (a : Addr) : ListM ω (Node Addr) := do
  let s ← get
  match s.node a with
  | some n => pure n
  | none => throw .wild

def storePrev (a : Addr) (x : Option Addr) : ListM ω Unit := do
  discard (loadNode a)
  modify fun s => { s with node := s.node.setPrev a x }

def storeNext (a : Addr) (x : Option Addr) : ListM ω Unit := do
  discard (loadNode a)
  modify fun s => { s with node := s.node.setNext a x }

/-- An access through the pointer. -/
def derefPtr : Option Addr → ListM ω Addr
  | some a => pure a
  | none => throw .wild

def isHead (n : Node Addr) : Bool := n.prev.isNone && n.next.isSome

def isInterior (n : Node Addr) : Bool := n.prev.isSome && n.next.isSome

def isTail (n : Node Addr) : Bool := n.prev.isSome && n.next.isNone

def isHeadOrInterior (n : Node Addr) : Bool := isHead n || isInterior n

def isInteriorOrTail (n : Node Addr) : Bool := isInterior n || isTail n

/-- An ASSERT on the kind of an element, which is false of a null pointer. -/
def assertElem (kind : Node Addr → Bool) : Option Addr → ListM ω Addr
  | none => throw .assertion
  | some a => do
    let n ← loadNode a
    if kind n then pure a else throw .assertion

def listInit (list : KList) : ListM ω Unit := do
  storePrev list.head none
  storeNext list.head (some list.tail)
  storePrev list.tail (some list.head)
  storeNext list.tail none

def listBegin (list : KList) : ListM ω (Option Addr) := do
  let n ← loadNode list.head
  pure n.next

def listNext (elem : Option Addr) : ListM ω (Option Addr) := do
  let a ← assertElem isHeadOrInterior elem
  let n ← loadNode a
  pure n.next

def listEmpty (list : KList) : ListM ω Bool := do
  let b ← listBegin list
  pure (b == some list.tail)

def listFront (list : KList) : ListM ω (Option Addr) := do
  if ← listEmpty list then throw .assertion
  else listBegin list

def listInsert (before : Option Addr) (elem : Addr) : ListM ω Unit := do
  let b ← assertElem isInteriorOrTail before
  let n ← loadNode b
  storePrev elem n.prev
  storeNext elem (some b)
  let n ← loadNode b
  let p ← derefPtr n.prev
  storeNext p (some elem)
  storePrev b (some elem)

def listPushFront (list : KList) (elem : Addr) : ListM ω Unit := do
  let b ← listBegin list
  listInsert b elem

def listRemove (elem : Option Addr) : ListM ω (Option Addr) := do
  let a ← assertElem isInterior elem
  let n ← loadNode a
  let p ← derefPtr n.prev
  storeNext p n.next
  let n ← loadNode a
  let q ← derefPtr n.next
  storePrev q n.prev
  let n ← loadNode a
  pure n.next

def listPopFront (list : KList) : ListM ω (Option Addr) := do
  let front ← listFront list
  discard (listRemove front)
  pure front

/-! ## Runs -/

variable {s : Heap ω} {a : Addr} {x : Option Addr}

theorem loadNode_run {n : Node Addr} (h : s.node a = some n) :
    (loadNode a : ListM ω _) s = .ok (n, s) := by
  rw [loadNode, bind_run, get_run, ok_bind, h]
  rfl

/-- The node at an address is given by its two links. -/
theorem loadNode_links (h : (s.node a).isSome) :
    (loadNode a : ListM ω _) s = .ok (⟨s.node.prev a, s.node.next a⟩, s) := by
  obtain ⟨n, hn⟩ := Option.isSome_iff_exists.mp h
  rw [loadNode_run hn, Nodes.prev, Nodes.next, hn]
  rfl

theorem storePrev_run (h : (s.node a).isSome) :
    (storePrev a x : ListM ω _) s = .ok ((), { s with node := s.node.setPrev a x }) := by
  obtain ⟨n, hn⟩ := Option.isSome_iff_exists.mp h
  rw [storePrev, bind_run, discard_run (loadNode_run hn)]
  rfl

theorem storeNext_run (h : (s.node a).isSome) :
    (storeNext a x : ListM ω _) s = .ok ((), { s with node := s.node.setNext a x }) := by
  obtain ⟨n, hn⟩ := Option.isSome_iff_exists.mp h
  rw [storeNext, bind_run, discard_run (loadNode_run hn)]
  rfl

theorem assertElem_run {kind : Node Addr → Bool} (h : (s.node a).isSome)
    (hk : kind ⟨s.node.prev a, s.node.next a⟩ = true) :
    (assertElem kind (some a) : ListM ω _) s = .ok (a, s) := by
  rw [assertElem, bind_run, loadNode_links h, ok_bind, if_pos hk]
  rfl

theorem listRemove_run {p q : Addr} (hp : s.node.prev a = some p) (hq : s.node.next a = some q)
    (hps : (s.node p).isSome) (hqs : (s.node q).isSome) (hpa : a ≠ p) :
    (listRemove (some a) : ListM ω _) s =
      .ok (some q, { s with node := s.node.unlink p q }) := by
  have ha := Nodes.isSome_of_next hq
  have hkind : isInterior ⟨s.node.prev a, s.node.next a⟩ = true := by
    rw [hp, hq]
    rfl
  have hp' : (s.node.setNext p (some q)).prev a = some p := by rw [Nodes.prev_setNext, hp]
  have hq' : (s.node.setNext p (some q)).next a = some q := by rw [Nodes.next_setNext_of_ne hpa, hq]
  have hload := loadNode_links (s := { s with node := s.node.setNext p (some q) })
    (Nodes.isSome_of_next hq')
  have hstore := storePrev_run (s := { s with node := s.node.setNext p (some q) }) (a := q)
    (x := some p) (by simpa using hqs)
  have hlast := loadNode_links
    (s := { s with node := (s.node.setNext p (some q)).setPrev q (some p) }) (a := a)
    (by simpa using ha)
  simp only [hp', hq'] at hload
  simp only [Nodes.next_setPrev, hq'] at hlast
  simp only [listRemove, bind_run, assertElem_run ha hkind, ok_bind, loadNode_links ha, hp, hq,
    derefPtr, pure_run, storeNext_run hps, hload, hstore, hlast]
  rfl

theorem listInsert_run {b p : Addr} (hp : s.node.prev b = some p) (hps : (s.node p).isSome)
    (ha : (s.node a).isSome) (hba : b ≠ a) :
    (listInsert (some b) a : ListM ω _) s = .ok ((), { s with node := s.node.linkIn p a b }) := by
  have hb := Nodes.isSome_of_prev hp
  have hkind : isInteriorOrTail ⟨s.node.prev b, s.node.next b⟩ = true := by
    rw [hp]
    cases s.node.next b <;> rfl
  have hp' : (s.node.setPrev a (some p)).prev b = some p := by rw [Nodes.prev_setPrev_of_ne hba, hp]
  have h1 := storeNext_run (s := { s with node := s.node.setPrev a (some p) }) (a := a)
    (x := some b) (by simpa using ha)
  have h2 := loadNode_links (s := { s with node := (s.node.setPrev a (some p)).setNext a (some b) })
    (a := b) (by simpa using hb)
  have h3 := storeNext_run (s := { s with node := (s.node.setPrev a (some p)).setNext a (some b) })
    (a := p) (x := some a) (by simpa using hps)
  have h4 := storePrev_run (s := { s with
    node := ((s.node.setPrev a (some p)).setNext a (some b)).setNext p (some a) })
    (a := b) (x := some a) (by simpa using hb)
  simp only [Nodes.prev_setNext, hp'] at h2
  simp only [listInsert, bind_run, assertElem_run hb hkind, ok_bind, loadNode_links hb, hp,
    storePrev_run ha, h1, h2, derefPtr, pure_run, h3, h4]
  rfl

/-! ## The functions on a list -/

variable {list : KList} {e : Addr} {l l₁ l₂ : List Addr}

theorem listInit_run (hh : (s.node list.head).isSome) (ht : (s.node list.tail).isSome) :
    (listInit list : ListM ω _) s =
      .ok ((), { s with node := s.node.initList list.head list.tail }) := by
  have h1 := storeNext_run (s := { s with node := s.node.setPrev list.head none })
    (a := list.head) (x := some list.tail) (by simpa using hh)
  have h2 := storePrev_run (s := { s with
    node := (s.node.setPrev list.head none).setNext list.head (some list.tail) })
    (a := list.tail) (x := some list.head) (by simpa using ht)
  have h3 := storeNext_run (s := { s with
    node := ((s.node.setPrev list.head none).setNext list.head (some list.tail)).setPrev list.tail
      (some list.head) }) (a := list.tail) (x := none) (by simpa using ht)
  simp only [listInit, bind_run, storePrev_run hh, ok_bind, h1, h2, h3]
  rfl

theorem listBegin_run (c : Chain s.node list.head list.tail l) :
    (listBegin list : ListM ω _) s = .ok (some (l.headD list.tail), s) := by
  rw [listBegin, bind_run, loadNode_links (c.isSome List.mem_cons_self), ok_bind, c.next_head]
  rfl

/-- `list_next` of a node that has one. -/
theorem listNext_of_next {b : Addr} (hn : s.node.next a = some b) :
    (listNext (some a) : ListM ω _) s = .ok (some b, s) := by
  have hs := Nodes.isSome_of_next hn
  have hkind : isHeadOrInterior ⟨s.node.prev a, s.node.next a⟩ = true := by
    rw [hn]
    cases s.node.prev a <;> rfl
  simp only [listNext, bind_run, assertElem_run hs hkind, ok_bind, loadNode_links hs, hn, pure_run]

theorem listNext_run {h t : Addr} (c : Chain s.node h t (l₁ ++ e :: l₂)) :
    (listNext (some e) : ListM ω _) s = .ok (some (l₂.headD t), s) := listNext_of_next c.next_of_mem

theorem listEmpty_run (c : Chain s.node list.head list.tail l) :
    (listEmpty list : ListM ω _) s = .ok (l.isEmpty, s) := by
  rw [listEmpty, bind_run, listBegin_run c, ok_bind]
  cases l with
  | nil => simp
  | cons a l =>
    have hne := c.ne_tail List.mem_cons_self
    simp [hne]

/-- **`list_remove`** takes the element out of its list. -/
theorem listRemove_chain {h t : Addr} (c : Chain s.node h t (l₁ ++ e :: l₂)) :
    ∃ m, (listRemove (some e) : ListM ω _) s = .ok (some (l₂.headD t), { s with node := m }) ∧
      Chain m h t (l₁ ++ l₂) ∧ ∀ a, a ∉ h :: (l₁ ++ l₂ ++ [t]) → m a = s.node a := by
  obtain ⟨x, z, hp, hq, hx, hz, c'⟩ := c.unlink
  have hnd := c.run.nodup
  have hex : e ≠ x := by grind
  have hxs := c.isSome (a := x) (by grind)
  have hzs := c.isSome (a := z) (by grind)
  rw [c.next_of_mem] at hq
  obtain rfl := Option.some.inj hq
  refine ⟨_, listRemove_run hp c.next_of_mem hxs hzs hex, c', fun a ha => ?_⟩
  exact Nodes.unlink_of_ne (by grind) (by grind)

/-- **`list_push_front`** -/
theorem listPushFront_chain (c : Chain s.node list.head list.tail l) (he : (s.node e).isSome)
    (hmem : e ∉ list.head :: (l ++ [list.tail])) :
    ∃ m, (listPushFront list e : ListM ω _) s = .ok ((), { s with node := m }) ∧
      Chain m list.head list.tail (e :: l) ∧
      ∀ a, a ∉ list.head :: e :: (l ++ [list.tail]) → m a = s.node a := by
  obtain ⟨z, hn, hp, hz, c'⟩ := c.linkFront he hmem
  have hze : z ≠ e := by grind
  have hhead := c.isSome (a := list.head) List.mem_cons_self
  refine ⟨s.node.linkIn list.head e z, ?_, c', fun a ha => ?_⟩
  · have hbegin := @listBegin_run ω s list l c
    rw [← c.next_head, hn] at hbegin
    rw [listPushFront, bind_run, hbegin, ok_bind]
    exact listInsert_run hp hhead he hze
  · exact Nodes.linkIn_of_ne (by grind) (by grind) (by grind)

/-- **`list_pop_front`** -/
theorem listPopFront_chain (c : Chain s.node list.head list.tail (e :: l)) :
    ∃ m, (listPopFront list : ListM ω _) s = .ok (some e, { s with node := m }) ∧
      Chain m list.head list.tail l ∧ ∀ a, a ∉ list.head :: (l ++ [list.tail]) → m a = s.node a := by
  have hc : Chain s.node list.head list.tail ([] ++ e :: l) := c
  obtain ⟨m, hrun, c', hm⟩ := listRemove_chain hc
  refine ⟨m, ?_, c', hm⟩
  have hfront : (listFront list : ListM ω _) s = .ok (some e, s) := by
    rw [listFront, bind_run, listEmpty_run c, ok_bind]
    exact listBegin_run c
  rw [listPopFront, bind_run, hfront, ok_bind, bind_run, discard_run hrun]
  rfl

end

end Pintos.Kernel
