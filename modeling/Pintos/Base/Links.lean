import Mathlib.Data.List.Chain
import Mathlib.Data.List.Basic
import Mathlib.Logic.Function.Basic

/-!
# Doubly linked lists in memory

A memory of nodes that point at their neighbours. `Run m l` says that the nodes of `l` are
linked both ways in this order; `Chain m h t l` that `l` is a list between the sentinels `h`
and `t`. The updates are the stores that take a node out and put one in; each keeps the runs
it is made in, and the ones it does not touch.
-/

namespace Pintos.Base

structure Node (α : Type) where
  prev : Option α
  next : Option α
  deriving DecidableEq, Repr

/-- The node at each address, if there is one. -/
abbrev Nodes (α : Type) : Type := α → Option (Node α)

namespace Nodes

variable {α : Type}

def next (m : Nodes α) (a : α) : Option α := (m a).bind Node.next

def prev (m : Nodes α) (a : α) : Option α := (m a).bind Node.prev

theorem isSome_of_next {m : Nodes α} {a b : α} (h : m.next a = some b) : (m a).isSome := by
  unfold next at h
  cases hm : m a with
  | none =>
    rw [hm] at h
    cases h
  | some n => rfl

theorem isSome_of_prev {m : Nodes α} {a b : α} (h : m.prev a = some b) : (m a).isSome := by
  unfold prev at h
  cases hm : m a with
  | none =>
    rw [hm] at h
    cases h
  | some n => rfl

section

variable [DecidableEq α]

def setNext (m : Nodes α) (a : α) (x : Option α) : Nodes α :=
  Function.update m a ((m a).map fun n => { n with next := x })

def setPrev (m : Nodes α) (a : α) (x : Option α) : Nodes α :=
  Function.update m a ((m a).map fun n => { n with prev := x })

variable {m : Nodes α} {a b : α} {x : Option α}

theorem next_setNext (h : (m a).isSome) : (m.setNext a x).next a = x := by
  obtain ⟨n, hn⟩ := Option.isSome_iff_exists.mp h
  simp [setNext, next, hn]

theorem prev_setPrev (h : (m a).isSome) : (m.setPrev a x).prev a = x := by
  obtain ⟨n, hn⟩ := Option.isSome_iff_exists.mp h
  simp [setPrev, prev, hn]

theorem setNext_of_ne (h : b ≠ a) : m.setNext a x b = m b := Function.update_of_ne h _ _

theorem setPrev_of_ne (h : b ≠ a) : m.setPrev a x b = m b := Function.update_of_ne h _ _

@[simp] theorem prev_setNext : (m.setNext a x).prev b = m.prev b := by
  unfold prev
  by_cases h : b = a
  · subst h
    cases hm : m b <;> simp [setNext, hm]
  · rw [setNext_of_ne h]

@[simp] theorem next_setPrev : (m.setPrev a x).next b = m.next b := by
  unfold next
  by_cases h : b = a
  · subst h
    cases hm : m b <;> simp [setPrev, hm]
  · rw [setPrev_of_ne h]

theorem next_setNext_of_ne (h : b ≠ a) : (m.setNext a x).next b = m.next b := by
  rw [next, setNext_of_ne h, next]

theorem prev_setPrev_of_ne (h : b ≠ a) : (m.setPrev a x).prev b = m.prev b := by
  rw [prev, setPrev_of_ne h, prev]

@[simp] theorem isSome_setNext : (m.setNext a x b).isSome = (m b).isSome := by
  by_cases h : b = a
  · subst h
    simp [setNext]
  · rw [setNext_of_ne h]

@[simp] theorem isSome_setPrev : (m.setPrev a x b).isSome = (m b).isSome := by
  by_cases h : b = a
  · subst h
    simp [setPrev]
  · rw [setPrev_of_ne h]

/-! Stores to different fields, or to different nodes, may change places. -/

theorem setPrev_setNext {y : Option α} : (m.setNext a x).setPrev b y = (m.setPrev b y).setNext a x := by
  funext c
  by_cases ha : c = a
  · subst ha
    by_cases hb : c = b
    · subst hb
      cases hm : m c <;> simp [setNext, setPrev, hm]
    · simp [setNext, setPrev, hb]
  · by_cases hb : c = b
    · subst hb
      simp [setNext, setPrev, ha]
    · simp [setNext, setPrev, ha, hb]

theorem setNext_comm {y : Option α} (h : a ≠ b) :
    (m.setNext a x).setNext b y = (m.setNext b y).setNext a x := by
  unfold setNext
  rw [Function.update_of_ne h.symm, Function.update_of_ne h, Function.update_comm h]

theorem setPrev_comm {y : Option α} (h : a ≠ b) :
    (m.setPrev a x).setPrev b y = (m.setPrev b y).setPrev a x := by
  unfold setPrev
  rw [Function.update_of_ne h.symm, Function.update_of_ne h, Function.update_comm h]

end

end Nodes

/-! ## Runs -/

section

variable {α : Type}

def Linked (m : Nodes α) (a b : α) : Prop := m.next a = some b ∧ m.prev b = some a

structure Run (m : Nodes α) (l : List α) : Prop where
  links : l.IsChain (Linked m)
  nodup : l.Nodup

variable {m m' : Nodes α} {u v l : List α} {x y z : α}

/-- Neighbours on a run. -/
theorem Run.linked (h : Run m (u ++ x :: y :: v)) : Linked m x y :=
  (List.isChain_append_cons_cons.mp h.links).2.1

theorem Run.right (h : Run m (u ++ v)) : Run m v :=
  ⟨(List.isChain_append.mp h.links).2.1, (List.nodup_append.mp h.nodup).2.1⟩

/-- A run is as it was in a memory with the same nodes on it. -/
theorem Run.congr (h : Run m l) (hm : ∀ a ∈ l, m' a = m a) : Run m' l := by
  refine ⟨h.links.imp_of_mem_imp fun a b ha hb hab => ?_, h.nodup⟩
  unfold Linked Nodes.next Nodes.prev
  rw [hm a ha, hm b hb]
  exact hab

/-- A link is kept by stores that do not touch it. -/
theorem Linked.keep {a b : α} (h : Linked m a b) (hnext : m'.next a = m.next a)
    (hprev : m'.prev b = m.prev b) : Linked m' a b := ⟨hnext.trans h.1, hprev.trans h.2⟩

/-- Links inside a list: all but the last point to a next one, all but the first to one before. -/
theorem isChain_inner {R S : α → α → Prop} (h : l.IsChain R)
    (hRS : ∀ a ∈ l.dropLast, ∀ b ∈ l.tail, R a b → S a b) : l.IsChain S := by
  induction l with
  | nil => exact .nil
  | cons a l ih =>
    cases l with
    | nil => exact .singleton a
    | cons b l =>
      obtain ⟨hab, h⟩ := List.isChain_cons_cons.mp h
      refine List.isChain_cons_cons.mpr ⟨hRS a List.mem_cons_self b List.mem_cons_self hab, ih h ?_⟩
      intro c hc d hd
      exact hRS c (List.mem_cons_of_mem a hc) d (List.mem_cons_of_mem b hd)

/-- Links are kept by stores to the `next` of the last node. -/
theorem links_before (h : (u ++ [x]).IsChain (Linked m)) (hnext : ∀ a ∈ u, m'.next a = m.next a)
    (hprev : ∀ b ∈ u ++ [x], m'.prev b = m.prev b) : (u ++ [x]).IsChain (Linked m') := by
  refine isChain_inner h fun a ha b hb hab => hab.keep (hnext a ?_) (hprev b (List.mem_of_mem_tail hb))
  rwa [List.dropLast_concat] at ha

/-- So are they by stores to the `prev` of the first one. -/
theorem links_after (h : (z :: v).IsChain (Linked m)) (hnext : ∀ a ∈ z :: v, m'.next a = m.next a)
    (hprev : ∀ b ∈ v, m'.prev b = m.prev b) : (z :: v).IsChain (Linked m') :=
  isChain_inner h fun a ha b hb hab => hab.keep (hnext a (List.dropLast_subset _ ha)) (hprev b hb)

/-- The nodes of a run with more than one are in memory. -/
theorem Run.isSome {a : α} (h : Run m l) (hlen : 1 < l.length) (ha : a ∈ l) : (m a).isSome := by
  obtain ⟨pre, post, rfl⟩ := List.append_of_mem ha
  cases post with
  | cons b post => exact Nodes.isSome_of_next h.linked.1
  | nil =>
    rcases List.eq_nil_or_concat pre with rfl | ⟨pre, b, rfl⟩
    · simp at hlen
    · rw [List.concat_eq_append, List.append_assoc] at h
      exact Nodes.isSome_of_prev (h.linked (v := [])).2

section

variable [DecidableEq α]

/-- What is between `x` and `z` is taken out. -/
def Nodes.unlink (m : Nodes α) (x z : α) : Nodes α :=
  (m.setNext x (some z)).setPrev z (some x)

/-- The node `y` is put in between `x` and `z`. -/
def Nodes.linkIn (m : Nodes α) (x y z : α) : Nodes α :=
  (((m.setPrev y (some x)).setNext y (some z)).setNext x (some y)).setPrev z (some y)

/-- The nodes from `f` to `e` are put in between `x` and `z`. -/
def Nodes.linkRange (m : Nodes α) (x f e z : α) : Nodes α :=
  (((m.setPrev f (some x)).setNext e (some z)).setNext x (some f)).setPrev z (some e)

theorem Nodes.unlink_of_ne {a : α} (hx : a ≠ x) (hz : a ≠ z) : m.unlink x z a = m a := by
  rw [unlink, setPrev_of_ne hz, setNext_of_ne hx]

theorem Nodes.linkRange_of_ne {a f e : α} (hx : a ≠ x) (hf : a ≠ f) (he : a ≠ e) (hz : a ≠ z) :
    m.linkRange x f e z a = m a := by
  rw [linkRange, setPrev_of_ne hz, setNext_of_ne hx, setNext_of_ne he, setPrev_of_ne hf]

theorem Nodes.linkIn_of_ne {a : α} (hx : a ≠ x) (hy : a ≠ y) (hz : a ≠ z) :
    m.linkIn x y z a = m a := linkRange_of_ne hx hy hy hz

theorem Nodes.next_unlink {a : α} (ha : a ≠ x) : (m.unlink x z).next a = m.next a := by
  rw [unlink, next_setPrev, next_setNext_of_ne ha]

theorem Nodes.prev_unlink {a : α} (ha : a ≠ z) : (m.unlink x z).prev a = m.prev a := by
  rw [unlink, prev_setPrev_of_ne ha, prev_setNext]

theorem linked_unlink (hx : (m x).isSome) (hz : (m z).isSome) : Linked (m.unlink x z) x z := by
  unfold Linked Nodes.unlink
  rw [Nodes.next_setPrev, Nodes.next_setNext hx, Nodes.prev_setPrev (by simpa using hz)]
  exact ⟨rfl, rfl⟩

variable {r : List α} {f e : α}

/-- **Taking a range out.** It stays a run. -/
theorem Run.unlinkRange (h : Run m (u ++ x :: (r ++ z :: v))) :
    Run (m.unlink x z) (u ++ x :: z :: v) ∧ Run (m.unlink x z) r := by
  have hnd := h.nodup
  obtain ⟨hpre, hrest⟩ := List.isChain_split.mp h.links
  obtain ⟨hrange, hpost, -⟩ := List.isChain_append.mp hrest.tail
  have hlen : 1 < (u ++ x :: (r ++ z :: v)).length := by
    simp only [List.length_append, List.length_cons]
    omega
  have hx : x ∉ u ∧ x ∉ z :: v ∧ x ∉ r := by grind
  have hz : z ∉ u ++ [x] ∧ z ∉ v ∧ z ∉ r := by grind
  have hlink := linked_unlink (h.isSome (a := x) hlen (by simp)) (h.isSome (a := z) hlen (by simp))
  refine ⟨⟨List.isChain_append_cons_cons.mpr ⟨?_, hlink, ?_⟩, by grind⟩, ?_, by grind⟩
  · exact links_before hpre (fun a ha => Nodes.next_unlink (ne_of_mem_of_not_mem ha hx.1))
      fun b hb => Nodes.prev_unlink (ne_of_mem_of_not_mem hb hz.1)
  · exact links_after hpost (fun a ha => Nodes.next_unlink (ne_of_mem_of_not_mem ha hx.2.1))
      fun b hb => Nodes.prev_unlink (ne_of_mem_of_not_mem hb hz.2.1)
  · exact hrange.imp_of_mem_imp fun a b ha hb hab => hab.keep
      (Nodes.next_unlink (ne_of_mem_of_not_mem ha hx.2.2)) (Nodes.prev_unlink (ne_of_mem_of_not_mem hb hz.2.2))

theorem Nodes.next_linkRange {a : α} (hx : a ≠ x) (he : a ≠ e) :
    (m.linkRange x f e z).next a = m.next a := by
  rw [linkRange, next_setPrev, next_setNext_of_ne hx, next_setNext_of_ne he, next_setPrev]

theorem Nodes.prev_linkRange {a : α} (hz : a ≠ z) (hf : a ≠ f) :
    (m.linkRange x f e z).prev a = m.prev a := by
  rw [linkRange, prev_setPrev_of_ne hz, prev_setNext, prev_setNext, prev_setPrev_of_ne hf]

theorem linked_linkRange (hx : (m x).isSome) (hf : (m f).isSome) (he : (m e).isSome) (hz : (m z).isSome)
    (hex : e ≠ x) (hfz : f ≠ z) :
    Linked (m.linkRange x f e z) x f ∧ Linked (m.linkRange x f e z) e z := by
  unfold Linked Nodes.linkRange
  rw [Nodes.next_setPrev, Nodes.next_setNext (by simpa using hx), Nodes.prev_setPrev_of_ne hfz,
    Nodes.prev_setNext, Nodes.prev_setNext, Nodes.prev_setPrev hf, Nodes.next_setPrev,
    Nodes.next_setNext_of_ne hex, Nodes.next_setNext (by simpa using he),
    Nodes.prev_setPrev (by simpa using hz)]
  exact ⟨⟨rfl, rfl⟩, rfl, rfl⟩

/-- **Putting a range in**, whatever was between `x` and `z`. -/
theorem Run.linkRange (hr : Run m r) (hpre : (u ++ [x]).IsChain (Linked m)) (hpost : (z :: v).IsChain (Linked m))
    (hnd : (u ++ x :: z :: v).Nodup) (hsome : ∀ a ∈ x :: z :: r, (m a).isSome) (hf : r.head? = some f)
    (he : r.getLast? = some e) (hdis : ∀ a ∈ r, a ∉ u ++ x :: z :: v) :
    Run (m.linkRange x f e z) (u ++ x :: (r ++ z :: v)) := by
  have hnr := hr.nodup
  have hfm := List.mem_of_mem_head? hf
  have hem := List.mem_of_getLast? he
  have hex : e ≠ x := fun hc => hdis e hem (by simp [hc])
  have hfz : f ≠ z := fun hc => hdis f hfm (by simp [hc])
  obtain ⟨h1, h2⟩ := linked_linkRange (hsome x (by simp)) (hsome f (by simp [hfm])) (hsome e (by simp [hem]))
    (hsome z (by simp)) hex hfz
  obtain ⟨r', hr'⟩ : ∃ r', r = f :: r' := List.head?_eq_some_iff.mp hf
  obtain ⟨r'', hr''⟩ : ∃ r'', r = r'' ++ [e] := List.getLast?_eq_some_iff.mp he
  have hx : x ∉ u ∧ x ∉ z :: v ∧ x ∉ r := by grind
  have hz : z ∉ u ++ [x] ∧ z ∉ v ∧ z ∉ r := by grind
  have hfr : f ∉ r' := (List.nodup_cons.mp (hr' ▸ hnr)).1
  have her : e ∉ r'' := by
    rw [hr'', List.nodup_append] at hnr
    exact fun hc => hnr.2.2 e hc e List.mem_cons_self rfl
  have hfu : f ∉ u ++ x :: z :: v := hdis f hfm
  have heu : e ∉ u ++ x :: z :: v := hdis e hem
  have hpre' : (u ++ [x]).IsChain (Linked (m.linkRange x f e z)) := by
    refine links_before hpre (fun a ha => ?_) fun b hb => ?_
    · exact Nodes.next_linkRange (ne_of_mem_of_not_mem ha hx.1) fun hc => heu (by simp [← hc, ha])
    · exact Nodes.prev_linkRange (ne_of_mem_of_not_mem hb hz.1) fun hc => hfu (by grind)
  have hpost' : (z :: v).IsChain (Linked (m.linkRange x f e z)) := by
    refine links_after hpost (fun a ha => ?_) fun b hb => ?_
    · exact Nodes.next_linkRange (ne_of_mem_of_not_mem ha hx.2.1) fun hc => heu (by grind)
    · exact Nodes.prev_linkRange (ne_of_mem_of_not_mem hb hz.2.1) fun hc => hfu (by simp [← hc, hb])
  have hrange : r.IsChain (Linked (m.linkRange x f e z)) := by
    refine isChain_inner hr.links fun a ha b hb hab => hab.keep ?_ ?_
    · have har := List.dropLast_subset _ ha
      rw [hr'', List.dropLast_concat] at ha
      exact Nodes.next_linkRange (ne_of_mem_of_not_mem har hx.2.2) (ne_of_mem_of_not_mem ha her)
    · have hbr := List.mem_of_mem_tail hb
      rw [hr', List.tail_cons] at hb
      exact Nodes.prev_linkRange (ne_of_mem_of_not_mem hbr hz.2.2) (ne_of_mem_of_not_mem hb hfr)
  have hperm : (u ++ x :: (r ++ z :: v)).Perm (r ++ (u ++ x :: z :: v)) := by
    have hcomm := List.perm_append_comm_assoc (u ++ [x]) r (z :: v)
    rwa [List.append_assoc, List.append_assoc] at hcomm
  have hnodup : (u ++ x :: (r ++ z :: v)).Nodup :=
    hperm.nodup_iff.mpr (List.nodup_append.mpr ⟨hnr, hnd, fun a ha b hb hab => hdis a ha (hab ▸ hb)⟩)
  refine ⟨List.isChain_split.mpr ⟨hpre', ?_⟩, hnodup⟩
  refine List.isChain_cons.mpr ⟨fun a ha => ?_, hrange.append hpost' fun a ha b hb => ?_⟩
  · obtain rfl : f = a := by simpa [hr'] using ha
    exact h1
  · obtain rfl : e = a := by simpa [he] using ha
    obtain rfl : z = b := by simpa using hb
    exact h2

end

end

/-! ## Lists between sentinels -/

/-- The nodes of `l` in this order between `h` and `t`. -/
structure Chain {α : Type} (m : Nodes α) (h t : α) (l : List α) : Prop where
  run : Run m (h :: (l ++ [t]))
  first : m.prev h = none
  last : m.next t = none

section

variable {α : Type} {m m' : Nodes α} {h t e : α} {l l₁ l₂ : List α}

theorem Chain.congr (c : Chain m h t l) (hm : ∀ a ∈ h :: (l ++ [t]), m' a = m a) :
    Chain m' h t l := by
  refine ⟨c.run.congr hm, ?_, ?_⟩
  · rw [Nodes.prev, hm h List.mem_cons_self]
    exact c.first
  · rw [Nodes.next, hm t (by simp)]
    exact c.last

theorem Chain.isSome (c : Chain m h t l) {a : α} (ha : a ∈ h :: (l ++ [t])) : (m a).isSome :=
  c.run.isSome (by simp) ha

theorem Chain.nodup (c : Chain m h t l) : l.Nodup :=
  (List.nodup_append.mp (List.nodup_cons.mp c.run.nodup).2).1

theorem Chain.ne_tail (c : Chain m h t l) (he : e ∈ l) : e ≠ t :=
  (List.nodup_append.mp (List.nodup_cons.mp c.run.nodup).2).2.2 e he t (List.mem_singleton.mpr rfl)

/-- The first node, or the sentinel behind an empty list. -/
theorem Chain.next_head (c : Chain m h t l) : m.next h = some (l.headD t) := by
  cases l with
  | nil => exact (c.run.linked (u := []) (v := [])).1
  | cons a l => exact (c.run.linked (u := [])).1

/-- The node behind `e`. -/
theorem Chain.next_of_mem (c : Chain m h t (l₁ ++ e :: l₂)) : m.next e = some (l₂.headD t) := by
  have hrun := c.run
  rw [List.append_assoc, ← List.cons_append] at hrun
  cases l₂ with
  | nil => exact (hrun.linked (v := [])).1
  | cons a l => exact hrun.linked.1

/-- The node in front of what follows `e`. -/
theorem Chain.prev_headD (c : Chain m h t (l₁ ++ e :: l₂)) : m.prev (l₂.headD t) = some e := by
  have hrun := c.run
  rw [List.append_assoc, ← List.cons_append] at hrun
  cases l₂ with
  | nil => exact (hrun.linked (v := [])).2
  | cons a l => exact hrun.linked.2

theorem Chain.isSome_prev (c : Chain m h t (l₁ ++ e :: l₂)) : (m.prev e).isSome := by
  have hrun := c.run
  rw [List.append_assoc, ← List.cons_append] at hrun
  obtain ⟨pre, x, hx⟩ : ∃ pre x, h :: l₁ = pre ++ [x] :=
    ⟨_, _, (List.dropLast_append_getLast (List.cons_ne_nil h l₁)).symm⟩
  rw [hx, List.append_assoc] at hrun
  rw [hrun.linked.2]
  rfl

/-- A node is not the end of the range it begins. -/
theorem Chain.ne_headD (c : Chain m h t (l₁ ++ e :: (l ++ l₂))) : e ≠ l₂.headD t := by
  have hnd := c.run.nodup
  cases l₂ with
  | nil =>
    show e ≠ t
    grind
  | cons a l₂ =>
    show e ≠ a
    grind

/-- The last node up to a place in a list, and the first one from there on. -/
theorem place_split (h t : α) (l₁ l₂ : List α) : ∃ pre x post, h :: l₁ = pre ++ [x] ∧
    l₂ ++ [t] = l₂.headD t :: post ∧ x ∈ h :: l₁ := by
  obtain ⟨pre, x, hx⟩ : ∃ pre x, h :: l₁ = pre ++ [x] :=
    ⟨_, _, (List.dropLast_append_getLast (List.cons_ne_nil h l₁)).symm⟩
  obtain ⟨post, hz⟩ : ∃ post, l₂ ++ [t] = l₂.headD t :: post := by
    cases l₂ with
    | nil => exact ⟨[], rfl⟩
    | cons a l => exact ⟨l ++ [t], rfl⟩
  exact ⟨pre, x, post, hx, hz, hx ▸ List.mem_append_right pre List.mem_cons_self⟩

section

variable [DecidableEq α]

/-- **Taking a range out of a list.** -/
theorem Chain.unlinkRange {r : List α} {f : α} (c : Chain m h t (l₁ ++ (r ++ l₂)))
    (hf : r.head? = some f) (he : r.getLast? = some e) :
    ∃ x, m.prev f = some x ∧ m.next e = some (l₂.headD t) ∧ x ∈ h :: l₁ ∧
      Chain (m.unlink x (l₂.headD t)) h t (l₁ ++ l₂) ∧ Run (m.unlink x (l₂.headD t)) r := by
  obtain ⟨pre, x, post, hx, hz, hxm⟩ := place_split h t l₁ l₂
  have hzm : l₂.headD t ∈ l₂ ++ [t] := hz ▸ List.mem_cons_self
  generalize l₂.headD t = z at hz hzm ⊢
  have hsplit : h :: (l₁ ++ (r ++ l₂) ++ [t]) = pre ++ x :: (r ++ z :: post) := by
    calc h :: (l₁ ++ (r ++ l₂) ++ [t]) = h :: l₁ ++ (r ++ (l₂ ++ [t])) := by simp
      _ = pre ++ x :: (r ++ z :: post) := by rw [hx, hz]; simp
  have hjoin : h :: (l₁ ++ l₂ ++ [t]) = pre ++ x :: z :: post := by
    calc h :: (l₁ ++ l₂ ++ [t]) = h :: l₁ ++ (l₂ ++ [t]) := by simp
      _ = pre ++ x :: z :: post := by rw [hx, hz]; simp
  have hnd := c.run.nodup
  have hzh : h ≠ z := by grind
  have hxt : t ≠ x := by grind
  have hrun := c.run
  rw [hsplit] at hrun
  obtain ⟨r', hr'⟩ : ∃ r', r = f :: r' := List.head?_eq_some_iff.mp hf
  obtain ⟨r'', hr''⟩ : ∃ r'', r = r'' ++ [e] := List.getLast?_eq_some_iff.mp he
  obtain ⟨hout, hrange⟩ := hrun.unlinkRange
  refine ⟨x, ?_, ?_, hxm, ⟨?_, ?_, ?_⟩, hrange⟩
  · rw [hr'] at hrun
    exact (Run.linked (v := r' ++ z :: post) hrun).2
  · have hassoc : pre ++ x :: (r ++ z :: post) = (pre ++ x :: r'') ++ e :: z :: post := by simp [hr'']
    rw [hassoc] at hrun
    exact hrun.linked.1
  · rw [hjoin]
    exact hout
  · rw [Nodes.prev_unlink hzh]
    exact c.first
  · rw [Nodes.next_unlink hxt]
    exact c.last

/-- **Taking a node out of a list.** -/
theorem Chain.unlink (c : Chain m h t (l₁ ++ e :: l₂)) :
    ∃ x z, m.prev e = some x ∧ m.next e = some z ∧ x ∈ h :: l₁ ∧ z ∈ l₂ ++ [t] ∧
      Chain (m.unlink x z) h t (l₁ ++ l₂) := by
  have c' : Chain m h t (l₁ ++ ([e] ++ l₂)) := c
  obtain ⟨x, hp, hn, hx, hc, -⟩ := c'.unlinkRange rfl rfl
  obtain ⟨-, -, post, -, hz, -⟩ := place_split h t l₁ l₂
  exact ⟨x, _, hp, hn, hx, hz ▸ List.mem_cons_self, hc⟩

/-- **Putting a range in.** -/
theorem Chain.linkRange {r : List α} {f : α} (c : Chain m h t (l₁ ++ l₂)) (hr : Run m r)
    (hf : r.head? = some f) (he : r.getLast? = some e) (hsome : ∀ a ∈ r, (m a).isSome)
    (hdis : ∀ a ∈ r, a ∉ h :: (l₁ ++ l₂ ++ [t])) :
    ∃ x, m.prev (l₂.headD t) = some x ∧ x ∈ h :: l₁ ∧
      Chain (m.linkRange x f e (l₂.headD t)) h t (l₁ ++ (r ++ l₂)) := by
  obtain ⟨pre, x, post, hx, hz, hxm⟩ := place_split h t l₁ l₂
  have hzm : l₂.headD t ∈ l₂ ++ [t] := hz ▸ List.mem_cons_self
  generalize l₂.headD t = z at hz hzm ⊢
  have hsplit : h :: (l₁ ++ l₂ ++ [t]) = pre ++ x :: z :: post := by
    calc h :: (l₁ ++ l₂ ++ [t]) = h :: l₁ ++ (l₂ ++ [t]) := by simp
      _ = pre ++ x :: z :: post := by rw [hx, hz]; simp
  have hjoin : h :: (l₁ ++ (r ++ l₂) ++ [t]) = pre ++ x :: (r ++ z :: post) := by
    calc h :: (l₁ ++ (r ++ l₂) ++ [t]) = h :: l₁ ++ (r ++ (l₂ ++ [t])) := by simp
      _ = pre ++ x :: (r ++ z :: post) := by rw [hx, hz]; simp
  have hnd := c.run.nodup
  have hzh : h ≠ z := by grind
  have htx : t ≠ x := by grind
  have hhf : h ≠ f := fun hc => hdis f (List.mem_of_mem_head? hf) (hc ▸ List.mem_cons_self)
  have hte : t ≠ e := fun hc => hdis e (List.mem_of_getLast? he) (hc ▸ by simp)
  have hrun := c.run
  rw [hsplit] at hrun hdis
  obtain ⟨hpre, hxz, hpost⟩ := List.isChain_append_cons_cons.mp hrun.links
  refine ⟨x, hxz.2, hxm, ⟨?_, ?_, ?_⟩⟩
  · rw [hjoin]
    refine hr.linkRange hpre hpost hrun.nodup (fun a ha => ?_) hf he hdis
    obtain rfl | rfl | har := List.mem_cons.mp ha |>.imp_right List.mem_cons.mp
    · exact Nodes.isSome_of_next hxz.1
    · exact Nodes.isSome_of_prev hxz.2
    · exact hsome a har
  · rw [Nodes.prev_linkRange hzh hhf]
    exact c.first
  · rw [Nodes.next_linkRange htx hte]
    exact c.last

/-- **Putting a node in.** -/
theorem Chain.linkBefore (c : Chain m h t (l₁ ++ l₂)) (he : (m e).isSome)
    (hmem : e ∉ h :: (l₁ ++ l₂ ++ [t])) :
    ∃ x, m.prev (l₂.headD t) = some x ∧ x ∈ h :: l₁ ∧
      Chain (m.linkIn x e (l₂.headD t)) h t (l₁ ++ e :: l₂) :=
  c.linkRange (r := [e]) ⟨.singleton e, by simp⟩ rfl rfl (by simpa using he) (by simpa using hmem)

/-- **Putting a node in front.** -/
theorem Chain.linkFront (c : Chain m h t l) (he : (m e).isSome) (hmem : e ∉ h :: (l ++ [t])) :
    ∃ z, m.next h = some z ∧ m.prev z = some h ∧ z ∈ l ++ [t] ∧
      Chain (m.linkIn h e z) h t (e :: l) := by
  have c' : Chain m h t ([] ++ l) := c
  obtain ⟨x, hx, hxm, hc⟩ := c'.linkBefore he hmem
  obtain rfl := List.mem_singleton.mp hxm
  refine ⟨l.headD t, c.next_head, hx, ?_, hc⟩
  cases l <;> simp

/-- The links of each node of `l` change places. -/
def Nodes.flipAll (m : Nodes α) (l : List α) : Nodes α := fun a =>
  if a ∈ l then (m a).map fun n => ⟨n.next, n.prev⟩ else m a

@[simp] theorem Nodes.flipAll_nil : m.flipAll [] = m := rfl

theorem Nodes.flipAll_of_notMem {a : α} (ha : a ∉ l) : m.flipAll l a = m a := if_neg ha

theorem Nodes.next_flipAll {a : α} (ha : a ∈ l) : (m.flipAll l).next a = m.prev a := by
  rw [next, flipAll, if_pos ha, prev]
  cases m a <;> rfl

theorem Nodes.prev_flipAll {a : α} (ha : a ∈ l) : (m.flipAll l).prev a = m.next a := by
  rw [next, prev, flipAll, if_pos ha]
  cases m a <;> rfl

theorem Nodes.next_flipAll_of_notMem {a : α} (ha : a ∉ l) : (m.flipAll l).next a = m.next a := by
  rw [next, flipAll_of_notMem ha, next]

theorem Nodes.prev_flipAll_of_notMem {a : α} (ha : a ∉ l) : (m.flipAll l).prev a = m.prev a := by
  rw [prev, flipAll_of_notMem ha, prev]

@[simp] theorem Nodes.isSome_flipAll {a : α} : (m.flipAll l a).isSome = (m a).isSome := by
  unfold flipAll
  split
  · exact Option.isSome_map
  · rfl

theorem Run.flipAll (h : Run m l) : Run (m.flipAll l) l.reverse := by
  refine ⟨List.isChain_reverse.mpr ?_, (List.reverse_perm l).nodup_iff.mpr h.nodup⟩
  refine h.links.imp_of_mem_imp fun a b ha hb hab => ⟨?_, ?_⟩
  · rw [Nodes.next_flipAll hb]
    exact hab.2
  · rw [Nodes.prev_flipAll ha]
    exact hab.1

/-- **Reversing a list.** Between the sentinels are its nodes, with their links the other way round. -/
theorem Chain.reverse {f : α} (c : Chain m h t l) (hf : l.head? = some f) (he : l.getLast? = some e) :
    Chain ((m.flipAll l).linkRange h e f t) h t l.reverse := by
  have hnd := c.run.nodup
  have hfm := List.mem_of_mem_head? hf
  have hem := List.mem_of_getLast? he
  have hhl : h ∉ l := by grind
  have htl : t ∉ l := by grind
  have hht : h ≠ t := by grind
  have hrun : Run m l := by
    have hright : Run m ([h] ++ (l ++ [t])) := c.run
    obtain ⟨hlinks, -⟩ := List.isChain_append.mp hright.right.links
    exact ⟨hlinks, c.nodup⟩
  refine ⟨?_, ?_, ?_⟩
  · have hin := hrun.flipAll.linkRange (u := []) (v := []) (x := h) (z := t) (.singleton h) (.singleton t)
      (by simpa using hht) (fun a ha => ?_) (by rw [List.head?_reverse, he]) (by rw [List.getLast?_reverse, hf])
      fun a ha => ?_
    · exact hin
    · rw [Nodes.isSome_flipAll]
      exact c.isSome (by simpa [or_comm, or_left_comm] using ha)
    · have hal := List.mem_reverse.mp ha
      simpa using ⟨ne_of_mem_of_not_mem hal hhl, ne_of_mem_of_not_mem hal htl⟩
  · rw [Nodes.prev_linkRange hht (ne_of_mem_of_not_mem hem hhl).symm, Nodes.prev_flipAll_of_notMem hhl]
    exact c.first
  · rw [Nodes.next_linkRange hht.symm (ne_of_mem_of_not_mem hfm htl).symm, Nodes.next_flipAll_of_notMem htl]
    exact c.last

/-- The sentinels of an empty list. -/
def Nodes.initList (m : Nodes α) (h t : α) : Nodes α :=
  (((m.setPrev h none).setNext h (some t)).setPrev t (some h)).setNext t none

theorem Nodes.initList_of_ne {a : α} (hh : a ≠ h) (ht : a ≠ t) : m.initList h t a = m a := by
  rw [initList, setNext_of_ne ht, setPrev_of_ne ht, setNext_of_ne hh, setPrev_of_ne hh]

theorem chain_initList (hh : (m h).isSome) (ht : (m t).isSome) (hne : h ≠ t) :
    Chain (m.initList h t) h t [] := by
  unfold Nodes.initList
  have ht' : (((m.setPrev h none).setNext h (some t)) t).isSome := by simpa using ht
  have hh' : ((m.setPrev h none) h).isSome := by simpa using hh
  refine ⟨⟨List.isChain_pair.mpr ⟨?_, ?_⟩, by simpa using hne⟩, ?_, ?_⟩
  · rw [Nodes.next_setNext_of_ne hne, Nodes.next_setPrev, Nodes.next_setNext hh']
  · rw [Nodes.prev_setNext, Nodes.prev_setPrev ht']
  · rw [Nodes.prev_setNext, Nodes.prev_setPrev_of_ne hne, Nodes.prev_setNext, Nodes.prev_setPrev hh]
  · exact Nodes.next_setNext (by simpa using ht)

end

end

end Pintos.Base
