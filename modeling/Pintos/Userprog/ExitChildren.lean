import Pintos.Kernel.LinkedList

/-!
# The children of an exiting process (userprog/process.c)

`process_exit` lowers the count of every entry of `cs_list` and frees those whose count comes to
0. It does not take an entry out while it goes through the list: the first loop collects pointers
to those entries in a second list, from which the second loop takes them.
-/

namespace Pintos.Userprog.Exit

open Pintos.Base Pintos.Kernel

/-- `struct child_status`, without what the loops do not use. -/
structure Child where
  refCnt : Int
  /-- Whether `cs_lock` is held. -/
  locked : Bool
  deriving DecidableEq, Repr

/-- The objects around the list elements, and what was done with them. -/
structure Records where
  /-- The `struct child_status` whose `cs_elem` is at the address. -/
  child : Addr → Option Child
  /-- `pointer` in the `struct elem_copy` whose `elem` is at the address. -/
  copy : Addr → Option (Option Addr)
  /-- The addresses of `elem` in the blocks `malloc` will give in turn, before it has none. -/
  blocks : List Addr
  /-- The entries whose count was lowered, oldest first. -/
  lowered : List Addr
  /-- The objects that were freed, oldest first. -/
  freed : List Addr

abbrev ExitM (α : Type) : Type := ListM Records α

def getChild (a : Addr) : ExitM Child := do
  let s ← get
  match s.data.child a with
  | some c => pure c
  | none => throw .wild

def setChild (a : Addr) (c : Child) : ExitM Unit := do
  discard (getChild a)
  modify fun s => { s with data := { s.data with child := Function.update s.data.child a (some c) } }

/-- `lock_acquire`, of a lock no other thread has. -/
def lockAcquire (a : Addr) : ExitM Unit := do
  let c ← getChild a
  if c.locked then throw .assertion
  else setChild a { c with locked := true }

def lockRelease (a : Addr) : ExitM Unit := do
  let c ← getChild a
  if c.locked then setChild a { c with locked := false }
  else throw .assertion

/-- `cs->ref_cnt--` -/
def lowerRef (a : Addr) : ExitM Unit := do
  let c ← getChild a
  setChild a { c with refCnt := c.refCnt - 1 }
  modify fun s => { s with data := { s.data with lowered := s.data.lowered ++ [a] } }

/-- `malloc (sizeof (struct elem_copy))` -/
def mallocCopy : ExitM (Option Addr) := do
  let s ← get
  match s.data.blocks with
  | [] => pure none
  | a :: blocks => do
    set { s with
      node := Function.update s.node a (some ⟨none, none⟩)
      data := { s.data with copy := Function.update s.data.copy a (some none), blocks := blocks } }
    pure (some a)

def getPointer (a : Addr) : ExitM (Option Addr) := do
  let s ← get
  match s.data.copy a with
  | some p => pure p
  | none => throw .wild

def setPointer (a : Addr) (p : Option Addr) : ExitM Unit := do
  discard (getPointer a)
  modify fun s => { s with data := { s.data with copy := Function.update s.data.copy a (some p) } }

/-- `free` of a `struct elem_copy` -/
def freeCopy (a : Addr) : ExitM Unit := do
  discard (getPointer a)
  modify fun s => { s with
    node := Function.update s.node a none
    data := { s.data with copy := Function.update s.data.copy a none, freed := s.data.freed ++ [a] } }

/-- `free` of a `struct child_status` -/
def freeChild (a : Addr) : ExitM Unit := do
  discard (getChild a)
  modify fun s => { s with
    node := Function.update s.node a none
    data := { s.data with child := Function.update s.data.child a none, freed := s.data.freed ++ [a] } }

/-- The body of the first loop. -/
def visit (childrenToDelete : KList) (e : Addr) : ExitM Unit := do
  lockAcquire e
  lowerRef e
  let cs ← getChild e
  if cs.refCnt = 0 then
    let ec ← mallocCopy
    let ec ← derefPtr ec
    setPointer ec (some e)
    listPushFront childrenToDelete ec
  else pure ()
  lockRelease e

def collect (csList childrenToDelete : KList) : (fuel : Nat) → (e : Option Addr) → ExitM Unit
  | 0, _ => throw .unfinished
  | fuel + 1, e => do
    if e = some csList.tail then pure ()
    else
      let a ← derefPtr e
      visit childrenToDelete a
      let e ← listNext (some a)
      collect csList childrenToDelete fuel e

def deleteAll (childrenToDelete : KList) : (fuel : Nat) → ExitM Unit
  | 0 => throw .unfinished
  | fuel + 1 => do
    if ← listEmpty childrenToDelete then pure ()
    else
      let e ← listPopFront childrenToDelete
      let ec ← derefPtr e
      let p ← getPointer ec
      discard (listRemove p)
      let cs ← derefPtr p
      freeCopy ec
      freeChild cs
      deleteAll childrenToDelete fuel

/-- What `process_exit` does with `cs_list`, with a bound on the rounds of each loop. -/
def releaseChildren (csList childrenToDelete : KList) (fuel : Nat) : ExitM Unit := do
  listInit childrenToDelete
  let e ← listBegin csList
  collect csList childrenToDelete fuel e
  deleteAll childrenToDelete fuel

/-! ## Before and after -/

/-- The count of the entry comes to 0. -/
def dies (cnt : Addr → Int) (a : Addr) : Bool := cnt a - 1 == 0

/-- An exiting process with the entries `l`, whose counts are `cnt` and whose locks are free, and
with memory for a copy of each that dies. -/
structure Exiting (s : Heap Records) (csList childrenToDelete : KList) (l : List Addr)
    (cnt : Addr → Int) : Prop where
  list : Chain s.node csList.head csList.tail l
  child : ∀ a ∈ l, s.data.child a = some ⟨cnt a, false⟩
  head : (s.node childrenToDelete.head).isSome
  tail : (s.node childrenToDelete.tail).isSome
  ne : childrenToDelete.head ≠ childrenToDelete.tail
  apart : ∀ a ∈ csList.head :: (l ++ [csList.tail]),
    a ≠ childrenToDelete.head ∧ a ≠ childrenToDelete.tail
  nodup : s.data.blocks.Nodup
  unused : ∀ a ∈ s.data.blocks, s.node a = none ∧ s.data.child a = none ∧ s.data.copy a = none
  enough : (l.filter (dies cnt)).length ≤ s.data.blocks.length

/-- The children are released: each count is lowered once, the entries that die are taken out and
freed, each with its copy and the last first, and the others stay in their order. -/
structure Released (s s' : Heap Records) (csList childrenToDelete : KList) (l copies : List Addr)
    (cnt : Addr → Int) : Prop where
  lowered : s'.data.lowered = s.data.lowered ++ l
  list : Chain s'.node csList.head csList.tail (l.filter fun a => !dies cnt a)
  kept : ∀ a ∈ l, dies cnt a = false → s'.data.child a = some ⟨cnt a - 1, false⟩
  blocks : s.data.blocks = copies ++ s'.data.blocks
  count : copies.length = (l.filter (dies cnt)).length
  freed : s'.data.freed = s.data.freed ++
    (copies.reverse.zip (l.filter (dies cnt)).reverse).flatMap fun p => [p.1, p.2]
  gone : ∀ a ∈ l, dies cnt a = true → s'.node a = none ∧ s'.data.child a = none
  empty : Chain s'.node childrenToDelete.head childrenToDelete.tail []
  nodes : ∀ a, a ∉ csList.head :: (l ++ [csList.tail]) → a ≠ childrenToDelete.head →
    a ≠ childrenToDelete.tail → s'.node a = s.node a
  children : ∀ a, a ∉ l → s'.data.child a = s.data.child a
  pointers : ∀ a, s'.data.copy a = s.data.copy a

/-! ## One round of the first loop -/

section

variable {s₀ s : Heap Records} {csList childrenToDelete : KList} {l done rest copies : List Addr}
  {cnt : Addr → Int} {e : Addr}

/-- The state after the rounds for `done`, with the copies made in front of each other. -/
structure Collected (s₀ s : Heap Records) (csList childrenToDelete : KList)
    (l done copies : List Addr) (cnt : Addr → Int) : Prop where
  list : Chain s.node csList.head csList.tail l
  dels : Chain s.node childrenToDelete.head childrenToDelete.tail copies
  child : ∀ a ∈ l, s.data.child a = some ⟨if a ∈ done then cnt a - 1 else cnt a, false⟩
  pointers : copies.map s.data.copy = (done.filter (dies cnt)).reverse.map fun a => some (some a)
  blocks : copies.reverse ++ s.data.blocks = s₀.data.blocks
  lowered : s.data.lowered = s₀.data.lowered ++ done
  freed : s.data.freed = s₀.data.freed
  nodes : ∀ a, a ∉ csList.head :: (l ++ [csList.tail]) →
    a ∉ childrenToDelete.head :: (copies ++ [childrenToDelete.tail]) → s.node a = s₀.node a
  children : ∀ a, a ∉ l → s.data.child a = s₀.data.child a
  others : ∀ a, a ∉ copies → s.data.copy a = s₀.data.copy a

/-- A block `malloc` gives is none of the elements of the lists. -/
theorem Exiting.block (h : Exiting s csList childrenToDelete l cnt) {b : Addr}
    (hb : b ∈ s.data.blocks) :
    b ∉ csList.head :: (l ++ [csList.tail]) ∧ b ≠ childrenToDelete.head ∧ b ≠ childrenToDelete.tail := by
  have hnone := (h.unused b hb).1
  refine ⟨fun hm => ?_, ?_, ?_⟩
  · have := h.list.isSome hm
    rw [hnone] at this
    cases this
  · rintro rfl
    have := h.head
    rw [hnone] at this
    cases this
  · rintro rfl
    have := h.tail
    rw [hnone] at this
    cases this

/-- An entry after its count was lowered. -/
def lower (s : Heap Records) (e : Addr) (c : Child) : Heap Records :=
  { s with data := { s.data with
      child := Function.update s.data.child e (some c)
      lowered := s.data.lowered ++ [e] } }

theorem getChild_run {c : Child} (h : s.data.child e = some c) : getChild e s = .ok (c, s) := by
  rw [getChild, bind_run, get_run, ok_bind, h]
  rfl

theorem setChild_run {c : Child} (h : (s.data.child e).isSome) : setChild e c s =
    .ok ((), { s with data := { s.data with child := Function.update s.data.child e (some c) } }) := by
  obtain ⟨c', hc⟩ := Option.isSome_iff_exists.mp h
  rw [setChild, bind_run, discard_run (getChild_run hc)]
  rfl

theorem getPointer_run {p : Option Addr} (h : s.data.copy e = some p) :
    getPointer e s = .ok (p, s) := by
  rw [getPointer, bind_run, get_run, ok_bind, h]
  rfl

/-- The lock is taken and the count lowered. -/
theorem lower_run (h : s.data.child e = some ⟨cnt e, false⟩) :
    (lockAcquire e >>= fun _ => lowerRef e) s = .ok ((), lower s e ⟨cnt e - 1, true⟩) := by
  have hset := setChild_run (s := s) (e := e) (c := ⟨cnt e, true⟩) (by rw [h]; rfl)
  have hget := getChild_run
    (s := { s with data := { s.data with child := Function.update s.data.child e (some ⟨cnt e, true⟩) } })
    (e := e) (c := ⟨cnt e, true⟩) (Function.update_self ..)
  have hset' := setChild_run
    (s := { s with data := { s.data with child := Function.update s.data.child e (some ⟨cnt e, true⟩) } })
    (e := e) (c := ⟨cnt e - 1, true⟩) (by simp)
  simp only [bind_run, lockAcquire, getChild_run h, ok_bind, Bool.false_eq_true, if_false, hset, lowerRef,
    hget, hset', modify_run, Function.update_idem]
  rfl

theorem lockRelease_run {n : Int} (h : s.data.child e = some ⟨n, true⟩) : lockRelease e s =
    .ok ((), { s with data := { s.data with
      child := Function.update s.data.child e (some ⟨n, false⟩) } }) := by
  have hset := setChild_run (s := s) (e := e) (c := ⟨n, false⟩) (by rw [h]; rfl)
  simp only [lockRelease, bind_run, getChild_run h, ok_bind, if_true, hset]

/-- A new copy with a pointer to `e`, in no list. -/
def withCopy (s : Heap Records) (e b : Addr) (blocks : List Addr) : Heap Records where
  node := Function.update s.node b (some ⟨none, none⟩)
  data := { s.data with copy := Function.update s.data.copy b (some (some e)), blocks := blocks }

theorem visit_kept (h : s.data.child e = some ⟨cnt e, false⟩) (hd : dies cnt e = false) :
    visit childrenToDelete e s = .ok ((), lower s e ⟨cnt e - 1, false⟩) := by
  have hne : cnt e - 1 ≠ 0 := by simpa [dies] using hd
  have hget : getChild e (lower s e ⟨cnt e - 1, true⟩) = .ok (⟨cnt e - 1, true⟩, _) :=
    getChild_run (Function.update_self ..)
  have hrel : lockRelease e (lower s e ⟨cnt e - 1, true⟩) = .ok ((), lower s e ⟨cnt e - 1, false⟩) := by
    rw [lockRelease_run (n := cnt e - 1) (Function.update_self ..)]
    simp only [lower, Function.update_idem]
  obtain ⟨_, s₁, hlock, hlower⟩ := ok_of_bind (lower_run h)
  simp only [visit, bind_run, hlock, ok_bind, hlower, hget, if_neg hne, hrel]

/-- A count that comes to 0: a copy is put in front of the second list. -/
theorem visit_dies (h : s.data.child e = some ⟨cnt e, false⟩) (hd : dies cnt e = true) {b : Addr}
    {blocks : List Addr} (hb : s.data.blocks = b :: blocks) {m : Nodes Addr}
    (hpush : listPushFront childrenToDelete b
      (withCopy (lower s e ⟨cnt e - 1, true⟩) e b blocks) =
        .ok ((), { withCopy (lower s e ⟨cnt e - 1, true⟩) e b blocks with node := m })) :
    visit childrenToDelete e s =
      .ok ((), { withCopy (lower s e ⟨cnt e - 1, false⟩) e b blocks with node := m }) := by
  have hz : cnt e - 1 = 0 := by simpa [dies] using hd
  have hget : getChild e (lower s e ⟨cnt e - 1, true⟩) = .ok (⟨cnt e - 1, true⟩, _) :=
    getChild_run (Function.update_self ..)
  have hmalloc : mallocCopy (lower s e ⟨cnt e - 1, true⟩) = .ok (some b, { lower s e ⟨cnt e - 1, true⟩ with
      node := Function.update s.node b (some ⟨none, none⟩)
      data := { (lower s e ⟨cnt e - 1, true⟩).data with
        copy := Function.update s.data.copy b (some none), blocks := blocks } }) := by
    have hblocks : (lower s e ⟨cnt e - 1, true⟩).data.blocks = b :: blocks := hb
    simp only [mallocCopy, bind_run, get_run, ok_bind, hblocks]
    rfl
  have hset : setPointer b (some e) { lower s e ⟨cnt e - 1, true⟩ with
      node := Function.update s.node b (some ⟨none, none⟩)
      data := { (lower s e ⟨cnt e - 1, true⟩).data with
        copy := Function.update s.data.copy b (some none), blocks := blocks } } =
      .ok ((), withCopy (lower s e ⟨cnt e - 1, true⟩) e b blocks) := by
    rw [setPointer, bind_run, discard_run (getPointer_run (Function.update_self ..)), ok_bind, modify_run]
    simp only [withCopy, Function.update_idem]
    rfl
  have hrel : lockRelease e { withCopy (lower s e ⟨cnt e - 1, true⟩) e b blocks with node := m } =
      .ok ((), { withCopy (lower s e ⟨cnt e - 1, false⟩) e b blocks with node := m }) := by
    rw [lockRelease_run (n := cnt e - 1) (Function.update_self ..)]
    simp only [withCopy, lower, Function.update_idem]
  obtain ⟨_, s₁, hlock, hlower⟩ := ok_of_bind (lower_run h)
  simp only [visit, bind_run, hlock, ok_bind, hlower, hget, if_pos hz, hmalloc, derefPtr, pure_run,
    hset, hpush, hrel]

/-- A copy is in a block that was not in use. -/
theorem Collected.copy_block (h : Collected s₀ s csList childrenToDelete l done copies cnt)
    (hx : Exiting s₀ csList childrenToDelete l cnt) {a : Addr} (ha : a ∈ copies) :
    a ∈ s₀.data.blocks ∧ a ∉ csList.head :: (l ++ [csList.tail]) := by
  have hmem : a ∈ s₀.data.blocks := by
    rw [← h.blocks]
    exact List.mem_append_left _ (List.mem_reverse.mpr ha)
  exact ⟨hmem, (hx.block hmem).1⟩

/-- The counts after the round for `e`. -/
theorem Collected.child_lower (h : Collected s₀ s csList childrenToDelete l done copies cnt) {a : Addr}
    (ha : a ∈ l) : Function.update s.data.child e (some ⟨cnt e - 1, false⟩) a =
      some ⟨if a ∈ done ++ [e] then cnt a - 1 else cnt a, false⟩ := by
  by_cases he : a = e
  · subst he
    rw [Function.update_self, if_pos (by simp)]
  · rw [Function.update_of_ne he, h.child a ha]
    simp [he]

theorem Collected.next_block (h : Collected s₀ s csList childrenToDelete l done copies cnt)
    (hx : Exiting s₀ csList childrenToDelete l cnt) (hl : l = done ++ e :: rest)
    (hd : dies cnt e = true) : ∃ b blocks, s.data.blocks = b :: blocks := by
  cases hb : s.data.blocks with
  | cons b blocks => exact ⟨b, blocks, rfl⟩
  | nil =>
    have hcopies := congrArg List.length h.pointers
    have hblocks := congrArg List.length h.blocks
    have henough := hx.enough
    rw [hl, List.filter_append, List.filter_cons_of_pos hd] at henough
    simp only [List.length_append, List.length_cons, List.length_map, List.length_reverse, hb,
      List.length_nil] at hcopies hblocks henough
    omega

/-- **One round** of the first loop. -/
theorem Collected.visit (h : Collected s₀ s csList childrenToDelete l done copies cnt)
    (hx : Exiting s₀ csList childrenToDelete l cnt) (hl : l = done ++ e :: rest) :
    ∃ s' copies', Exit.visit childrenToDelete e s = .ok ((), s') ∧
      Collected s₀ s' csList childrenToDelete l (done ++ [e]) copies' cnt := by
  have he : e ∈ l := by rw [hl]; simp
  have hnd : l.Nodup := by
    have := h.list.run.nodup
    grind
  have hdone : e ∉ done := by
    rw [hl] at hnd
    grind
  have hchild := h.child e he
  rw [if_neg hdone] at hchild
  have hlowered : s.data.lowered ++ [e] = s₀.data.lowered ++ (done ++ [e]) := by
    rw [h.lowered, List.append_assoc]
  have hchildren : ∀ a, a ∉ l → Function.update s.data.child e (some ⟨cnt e - 1, false⟩) a =
      s₀.data.child a := fun a ha => by
    have hne : a ≠ e := by
      rintro rfl
      exact ha he
    rw [Function.update_of_ne hne, h.children a ha]
  cases hd : dies cnt e with
  | false =>
    refine ⟨_, copies, visit_kept hchild hd, ?_⟩
    refine { h with
      child := fun a => h.child_lower
      pointers := ?_
      lowered := hlowered
      children := hchildren }
    rw [List.filter_append, List.filter_cons_of_neg (by simp [hd]), List.filter_nil, List.append_nil]
    exact h.pointers
  | true =>
    obtain ⟨b, blocks, hb⟩ := h.next_block hx hl hd
    have hb₀ : b ∈ s₀.data.blocks := by
      rw [← h.blocks, hb]
      simp
    obtain ⟨hcells, hhead, htail⟩ := hx.block hb₀
    have hcopies : b ∉ copies := fun hc => by
      have hnodup := hx.nodup
      rw [← h.blocks, hb] at hnodup
      exact (List.nodup_append.mp hnodup).2.2 b (List.mem_reverse.mpr hc) b List.mem_cons_self rfl
    have hdel : b ∉ childrenToDelete.head :: (copies ++ [childrenToDelete.tail]) := by
      simp [hhead, htail, hcopies]
    have hdels : Chain (withCopy (lower s e ⟨cnt e - 1, true⟩) e b blocks).node
        childrenToDelete.head childrenToDelete.tail copies := h.dels.congr fun a ha => by
      have hab : a ≠ b := by
        rintro rfl
        exact hdel ha
      exact Function.update_of_ne hab _ _
    obtain ⟨m, hpush, hchain, hm⟩ := listPushFront_chain hdels (e := b)
      (by simp [withCopy]) hdel
    have hsame : ∀ a, a ≠ b → a ∉ childrenToDelete.head :: (copies ++ [childrenToDelete.tail]) →
        m a = s.node a := fun a hab ha => by
      rw [hm a (by grind)]
      exact Function.update_of_ne hab _ _
    refine ⟨_, b :: copies, visit_dies hchild hd hb hpush, ?_⟩
    refine ⟨h.list.congr fun a ha => hsame a ?_ ?_, hchain, fun a => h.child_lower, ?_, ?_, hlowered,
      h.freed, fun a h1 h2 => ?_, hchildren, fun a ha => ?_⟩
    · rintro rfl
      exact hcells ha
    · obtain ⟨h1, h2⟩ := hx.apart a ha
      have h3 : a ∉ copies := fun hc => (h.copy_block hx hc).2 ha
      simp [h1, h2, h3]
    · have hold : copies.map (Function.update s.data.copy b (some (some e))) =
          copies.map s.data.copy := List.map_congr_left fun a ha => by
        have hab : a ≠ b := by
          rintro rfl
          exact hcopies ha
        exact Function.update_of_ne hab _ _
      rw [List.filter_append, List.filter_cons_of_pos hd, List.filter_nil, List.reverse_append,
        List.map_append, ← h.pointers, ← hold, List.map_cons]
      exact congrArg (· :: _) (Function.update_self ..)
    · rw [← h.blocks, hb]
      simp [withCopy]
    · have hab : a ≠ b := by
        rintro rfl
        simp at h2
      have hdel' : a ∉ childrenToDelete.head :: (copies ++ [childrenToDelete.tail]) := by
        grind
      exact (hsame a hab hdel').trans (h.nodes a h1 hdel')
    · obtain ⟨hab, hc⟩ := not_or.mp (mt List.mem_cons.mpr ha)
      rw [← h.others a hc]
      exact Function.update_of_ne hab _ _

/-- **The first loop** goes through the whole list. -/
theorem Collected.collect (hx : Exiting s₀ csList childrenToDelete l cnt) :
    ∀ (rest done : List Addr) (s : Heap Records) (copies : List Addr) (fuel : Nat),
      l = done ++ rest → Collected s₀ s csList childrenToDelete l done copies cnt →
      rest.length < fuel →
      ∃ s' copies', Exit.collect csList childrenToDelete fuel (some (rest.headD csList.tail)) s =
          .ok ((), s') ∧ Collected s₀ s' csList childrenToDelete l l copies' cnt := by
  intro rest
  induction rest with
  | nil =>
    intro done s copies fuel hl h hfuel
    obtain ⟨fuel, rfl⟩ := Nat.exists_eq_succ_of_ne_zero (Nat.ne_of_gt hfuel)
    rw [List.append_nil] at hl
    exact ⟨s, copies, congrFun (if_pos rfl) s, hl ▸ h⟩
  | cons e rest ih =>
    intro done s copies fuel hl h hfuel
    obtain ⟨fuel, rfl⟩ := Nat.exists_eq_succ_of_ne_zero (Nat.ne_of_gt (Nat.zero_lt_of_lt hfuel))
    have hne : some e ≠ some csList.tail := by
      have := h.list.run.nodup
      grind
    obtain ⟨s₁, copies₁, hvisit, h₁⟩ := h.visit hx hl
    have hlist := h₁.list
    rw [hl] at hlist
    obtain ⟨s', copies', hrun, h'⟩ := ih (done ++ [e]) s₁ copies₁ fuel (by simp [hl]) h₁
      (Nat.lt_of_succ_lt_succ hfuel)
    refine ⟨s', copies', ?_, h'⟩
    rw [Exit.collect, List.headD_cons, if_neg hne]
    simp only [derefPtr, bind_run, pure_run, ok_bind, hvisit, listNext_run hlist, hrun]

/-! ## The second loop -/

variable {dead l₁ l₂ : List Addr} {c d : Addr}

/-- The second loop has the copies to go through, which point at the entries `dead`. -/
structure Doomed (s : Heap Records) (csList childrenToDelete : KList) (l copies dead : List Addr) :
    Prop where
  list : Chain s.node csList.head csList.tail l
  dels : Chain s.node childrenToDelete.head childrenToDelete.tail copies
  apart : ∀ a ∈ csList.head :: (l ++ [csList.tail]),
    a ∉ childrenToDelete.head :: (copies ++ [childrenToDelete.tail])
  pointers : copies.map s.data.copy = dead.map fun a => some (some a)
  mem : ∀ a ∈ dead, a ∈ l
  nodup : dead.Nodup
  child : ∀ a ∈ dead, (s.data.child a).isSome

/-- What the rest of the loop does. -/
structure Deleted (s s' : Heap Records) (csList childrenToDelete : KList)
    (l copies dead : List Addr) : Prop where
  list : Chain s'.node csList.head csList.tail (l.filter fun a => a ∉ dead)
  dels : Chain s'.node childrenToDelete.head childrenToDelete.tail []
  lowered : s'.data.lowered = s.data.lowered
  blocks : s'.data.blocks = s.data.blocks
  freed : s'.data.freed = s.data.freed ++ (copies.zip dead).flatMap fun p => [p.1, p.2]
  gone : ∀ a ∈ dead, s'.node a = none ∧ s'.data.child a = none
  freedCopies : ∀ a ∈ copies, s'.node a = none ∧ s'.data.copy a = none
  nodes : ∀ a, a ∉ csList.head :: (l ++ [csList.tail]) →
    a ∉ childrenToDelete.head :: (copies ++ [childrenToDelete.tail]) → s'.node a = s.node a
  children : ∀ a, a ∉ dead → s'.data.child a = s.data.child a
  others : ∀ a, a ∉ copies → s'.data.copy a = s.data.copy a

/-- The state after the copy `c` and its entry `d` are freed. -/
def dropPair (s : Heap Records) (m : Nodes Addr) (c d : Addr) : Heap Records where
  node := Function.update (Function.update m c none) d none
  data := { s.data with
    copy := Function.update s.data.copy c none
    child := Function.update s.data.child d none
    freed := s.data.freed ++ [c] ++ [d] }

theorem freePair_run {m : Nodes Addr} (hc : s.data.copy c = some (some d))
    (hd : (s.data.child d).isSome) : (freeCopy c >>= fun _ => freeChild d) { s with node := m } =
      .ok ((), dropPair s m c d) := by
  obtain ⟨k, hk⟩ := Option.isSome_iff_exists.mp hd
  have hget := getPointer_run (s := { s with node := m }) hc
  have hget' := getChild_run (e := d) (c := k) (s := {
    node := Function.update m c none
    data := { s.data with copy := Function.update s.data.copy c none, freed := s.data.freed ++ [c] } }) hk
  simp only [bind_run, freeCopy, discard_run hget, ok_bind, modify_run, freeChild, discard_run hget']
  rfl

/-- **One round** of the second loop. -/
theorem Doomed.round (h : Doomed s csList childrenToDelete (l₁ ++ d :: l₂) (c :: copies) (d :: dead))
    (fuel : Nat) :
    ∃ m, deleteAll childrenToDelete (fuel + 1) s = deleteAll childrenToDelete fuel (dropPair s m c d) ∧
      Doomed (dropPair s m c d) csList childrenToDelete (l₁ ++ l₂) copies dead ∧
      ∀ a, a ∉ csList.head :: (l₁ ++ d :: l₂ ++ [csList.tail]) →
        a ∉ childrenToDelete.head :: (c :: copies ++ [childrenToDelete.tail]) → m a = s.node a := by
  obtain ⟨m₁, hpop, hdels, hm₁⟩ := listPopFront_chain h.dels
  have hlist : Chain m₁ csList.head csList.tail (l₁ ++ d :: l₂) := h.list.congr fun a ha =>
    hm₁ a (by have := h.apart a ha; grind)
  obtain ⟨m₂, hremove, hlist₂, hm₂⟩ := listRemove_chain (s := { s with node := m₁ }) hlist
  have hptr : s.data.copy c = some (some d) := (List.cons.inj h.pointers).1
  have hget := getPointer_run (s := { s with node := m₁ }) hptr
  obtain ⟨_, s₁, hfree, hfree'⟩ := ok_of_bind
    (freePair_run (m := m₂) hptr (h.child d List.mem_cons_self))
  have hnd := h.list.run.nodup
  have hnd' := h.dels.run.nodup
  refine ⟨m₂, ?_, ?_, fun a h1 h2 => ?_⟩
  · rw [deleteAll]
    simp only [bind_run, listEmpty_run h.dels, ok_bind, List.isEmpty_cons, Bool.false_eq_true, if_false,
      hpop, derefPtr, pure_run, hget, discard_run hremove, hfree, hfree']
  · have hkeep : ∀ a, a ≠ c → a ≠ d → (dropPair s m₂ c d).node a = m₂ a := fun a hac had => by
      show Function.update (Function.update m₂ c none) d none a = m₂ a
      rw [Function.update_of_ne had, Function.update_of_ne hac]
    have hcell : ∀ a ∈ csList.head :: (l₁ ++ l₂ ++ [csList.tail]),
        a ∈ csList.head :: (l₁ ++ d :: l₂ ++ [csList.tail]) ∧ a ≠ d := fun a ha => by
      grind
    have hdel : ∀ a ∈ childrenToDelete.head :: (copies ++ [childrenToDelete.tail]),
        a ∈ childrenToDelete.head :: (c :: copies ++ [childrenToDelete.tail]) ∧ a ≠ c := fun a ha => by
      grind
    have hc : c ∈ childrenToDelete.head :: (c :: copies ++ [childrenToDelete.tail]) := by simp
    have hd : d ∈ csList.head :: (l₁ ++ d :: l₂ ++ [csList.tail]) := by simp
    refine ⟨hlist₂.congr fun a ha => ?_, hdels.congr fun a ha => ?_, fun a ha hm => ?_, ?_,
      fun a ha => ?_, h.nodup.of_cons, fun a ha => ?_⟩
    · obtain ⟨h1, h2⟩ := hcell a ha
      have hac : a ≠ c := by
        rintro rfl
        exact h.apart a h1 hc
      exact hkeep a hac h2
    · obtain ⟨h1, h2⟩ := hdel a ha
      have hout : a ∉ csList.head :: (l₁ ++ d :: l₂ ++ [csList.tail]) := fun hm => h.apart a hm h1
      have had : a ≠ d := by
        rintro rfl
        exact hout hd
      rw [hkeep a h2 had]
      exact hm₂ a (by grind)
    · exact h.apart a (hcell a ha).1 (hdel a hm).1
    · rw [← (List.cons.inj h.pointers).2]
      refine List.map_congr_left fun a ha => Function.update_of_ne ?_ _ _
      rintro rfl
      exact (hdel a (by simp [ha])).2 rfl
    · have had := List.nodup_cons.mp h.nodup
      have hal := h.mem a (List.mem_cons_of_mem _ ha)
      grind
    · have had : a ≠ d := by
        rintro rfl
        exact (List.nodup_cons.mp h.nodup).1 ha
      have hsome := h.child a (List.mem_cons_of_mem _ ha)
      exact (congrArg Option.isSome (Function.update_of_ne had _ _)).trans hsome
  · rw [hm₂ a (by grind)]
    exact hm₁ a (by grind)

/-- **The second loop** takes out and frees the entries. -/
theorem Doomed.deleteAll : ∀ (copies dead l : List Addr) (s : Heap Records) (fuel : Nat),
    Doomed s csList childrenToDelete l copies dead → copies.length < fuel →
      ∃ s', Exit.deleteAll childrenToDelete fuel s = .ok ((), s') ∧
        Deleted s s' csList childrenToDelete l copies dead := by
  intro copies
  induction copies with
  | nil =>
    intro dead l s fuel h hfuel
    obtain ⟨fuel, rfl⟩ := Nat.exists_eq_succ_of_ne_zero (Nat.ne_of_gt hfuel)
    obtain rfl : dead = [] := by
      have := congrArg List.length h.pointers
      exact List.eq_nil_of_length_eq_zero (by simpa using this.symm)
    refine ⟨s, ?_, ?_⟩
    · rw [Exit.deleteAll, bind_run, listEmpty_run h.dels, ok_bind]
      rfl
    · exact ⟨by simpa using h.list, h.dels, rfl, rfl, by simp, by simp, by simp, fun _ _ _ => rfl,
        fun _ _ => rfl, fun _ _ => rfl⟩
  | cons c copies ih =>
    intro dead l s fuel h hfuel
    obtain ⟨fuel, rfl⟩ := Nat.exists_eq_succ_of_ne_zero (Nat.ne_of_gt (Nat.zero_lt_of_lt hfuel))
    cases dead with
    | nil => cases h.pointers
    | cons d dead =>
      obtain ⟨l₁, l₂, rfl⟩ := List.append_of_mem (h.mem d List.mem_cons_self)
      obtain ⟨m, hround, hnext, hm⟩ := h.round fuel
      obtain ⟨s', hrun, hd⟩ := ih dead (l₁ ++ l₂) _ fuel hnext (Nat.lt_of_succ_lt_succ hfuel)
      refine ⟨s', hround.trans hrun, ?_⟩
      have hnd := h.list.run.nodup
      have hnd' := h.dels.run.nodup
      obtain ⟨hdead, -⟩ := List.nodup_cons.mp h.nodup
      have hd₁ : d ∉ childrenToDelete.head :: (copies ++ [childrenToDelete.tail]) := fun hmem =>
        h.apart d (by simp) (by grind)
      have hd₂ : d ∉ csList.head :: (l₁ ++ l₂ ++ [csList.tail]) := by grind
      have hc₁ : c ∉ csList.head :: (l₁ ++ d :: l₂ ++ [csList.tail]) := fun hmem =>
        h.apart c hmem (by simp)
      have hc₂ : c ∉ childrenToDelete.head :: (copies ++ [childrenToDelete.tail]) := by grind
      have hcd : c ≠ d := by
        rintro rfl
        exact hc₁ (by simp)
      have hcopies : c ∉ copies := by grind
      refine ⟨?_, hd.dels, hd.lowered, hd.blocks, ?_, fun a ha => ?_, fun a ha => ?_,
        fun a h1 h2 => ?_, fun a ha => ?_, fun a ha => ?_⟩
      · have hfilter : (l₁ ++ d :: l₂).filter (fun a => a ∉ d :: dead) =
            (l₁ ++ l₂).filter fun a => a ∉ dead := by
          rw [List.filter_append, List.filter_append, List.filter_cons_of_neg (by simp)]
          congr 1 <;> refine List.filter_congr fun a ha => ?_
          · have : a ≠ d := by grind
            simp [this]
          · have : a ≠ d := by grind
            simp [this]
        rw [hfilter]
        exact hd.list
      · rw [hd.freed]
        simp [dropPair]
      · obtain rfl | ha := List.mem_cons.mp ha
        · rw [hd.nodes a hd₂ hd₁, hd.children a hdead]
          exact ⟨Function.update_self .., Function.update_self ..⟩
        · exact hd.gone a ha
      · obtain rfl | ha := List.mem_cons.mp ha
        · rw [hd.nodes a (by grind) hc₂, hd.others a hcopies]
          refine ⟨?_, Function.update_self ..⟩
          exact (Function.update_of_ne hcd _ _).trans (Function.update_self ..)
        · exact hd.freedCopies a ha
      · have had : a ≠ d := by
          rintro rfl
          exact h1 (by simp)
        have hac : a ≠ c := by
          rintro rfl
          exact h2 (by simp)
        rw [hd.nodes a (by grind) (by grind), ← hm a h1 h2]
        exact (Function.update_of_ne had _ _).trans (Function.update_of_ne hac _ _)
      · obtain ⟨had, ha⟩ := not_or.mp (mt List.mem_cons.mpr ha)
        rw [hd.children a ha]
        exact Function.update_of_ne had _ _
      · obtain ⟨hac, ha⟩ := not_or.mp (mt List.mem_cons.mpr ha)
        rw [hd.others a ha]
        exact Function.update_of_ne hac _ _

/-- After the first loop the copies are those of the entries that die, the last first. -/
theorem Collected.doomed (h : Collected s₀ s csList childrenToDelete l l copies cnt)
    (hx : Exiting s₀ csList childrenToDelete l cnt) :
    Doomed s csList childrenToDelete l copies (l.filter (dies cnt)).reverse where
  list := h.list
  dels := h.dels
  apart a ha := by
    obtain ⟨h1, h2⟩ := hx.apart a ha
    have h3 : a ∉ copies := fun hc => (h.copy_block hx hc).2 ha
    simp [h1, h2, h3]
  pointers := h.pointers
  mem a ha := (List.mem_filter.mp (List.mem_reverse.mp ha)).1
  nodup := by
    have hnd := h.list.run.nodup
    exact (List.reverse_perm _).nodup_iff.mpr (List.filter_sublist.nodup (by grind))
  child a ha := by
    rw [h.child a (List.mem_filter.mp (List.mem_reverse.mp ha)).1]
    rfl

/-- Both loops together. -/
theorem Deleted.released {s' : Heap Records} (hx : Exiting s₀ csList childrenToDelete l cnt)
    (h : Collected s₀ s csList childrenToDelete l l copies cnt)
    (hd : Deleted s s' csList childrenToDelete l copies (l.filter (dies cnt)).reverse) :
    Released s₀ s' csList childrenToDelete l copies.reverse cnt := by
  have hlen := congrArg List.length h.pointers
  simp only [List.length_map, List.length_reverse] at hlen
  refine ⟨?_, ?_, fun a ha hk => ?_, ?_, ?_, ?_, fun a ha hk => ?_, hd.dels, fun a h1 h2 h3 => ?_,
    fun a ha => ?_, fun a => ?_⟩
  · rw [hd.lowered, h.lowered]
  · have hfilter : (l.filter fun a => a ∉ (l.filter (dies cnt)).reverse) =
        l.filter fun a => !dies cnt a := List.filter_congr fun a ha => by
      simp [ha]
    rw [← hfilter]
    exact hd.list
  · have hout : a ∉ (l.filter (dies cnt)).reverse := by simp [hk]
    rw [hd.children a hout, h.child a ha, if_pos ha]
  · rw [hd.blocks, h.blocks]
  · rw [List.length_reverse, hlen]
  · rw [hd.freed, h.freed, List.reverse_reverse]
  · exact hd.gone a (by simp [ha, hk])
  · by_cases hc : a ∈ copies
    · rw [(hd.freedCopies a hc).1, (hx.unused a (h.copy_block hx hc).1).1]
    · have hdel : a ∉ childrenToDelete.head :: (copies ++ [childrenToDelete.tail]) := by
        simp [h2, h3, hc]
      rw [hd.nodes a h1 hdel, h.nodes a h1 hdel]
  · have hout : a ∉ (l.filter (dies cnt)).reverse := by simp [ha]
    rw [hd.children a hout, h.children a ha]
  · by_cases hc : a ∈ copies
    · rw [(hd.freedCopies a hc).2, (hx.unused a (h.copy_block hx hc).1).2.2]
    · rw [hd.others a hc, h.others a hc]

/-- The second list starts empty, with nothing visited. -/
theorem Exiting.start (hx : Exiting s csList childrenToDelete l cnt) :
    Collected s { s with node := s.node.initList childrenToDelete.head childrenToDelete.tail }
      csList childrenToDelete l [] [] cnt where
  list := hx.list.congr fun a ha => by
    obtain ⟨hh, ht⟩ := hx.apart a ha
    exact Nodes.initList_of_ne hh ht
  dels := chain_initList hx.head hx.tail hx.ne
  child a ha := by simpa using hx.child a ha
  pointers := rfl
  blocks := rfl
  lowered := by simp
  freed := rfl
  nodes a _ ha := Nodes.initList_of_ne (by grind) (by grind)
  children _ _ := rfl
  others _ _ := rfl

/-- **The children of an exiting process are released**, in as many rounds as there are children. -/
theorem children_released (hx : Exiting s csList childrenToDelete l cnt) (fuel : Nat)
    (hfuel : l.length < fuel) :
    ∃ s' copies, releaseChildren csList childrenToDelete fuel s = .ok ((), s') ∧
      Released s s' csList childrenToDelete l copies cnt := by
  have hstart := hx.start
  obtain ⟨s₁, copies, hcollect, h₁⟩ := Collected.collect hx l [] _ [] fuel rfl hstart hfuel
  have hlen : copies.length ≤ l.length := by
    have hmap := congrArg List.length h₁.pointers
    have hle := List.length_filter_le (dies cnt) l
    simp only [List.length_map, List.length_reverse] at hmap
    omega
  obtain ⟨s', hdelete, hd⟩ := Doomed.deleteAll copies _ l s₁ fuel (h₁.doomed hx) (by omega)
  refine ⟨s', copies.reverse, ?_, hd.released hx h₁⟩
  simp only [releaseChildren, bind_run, listInit_run hx.head hx.tail, ok_bind,
    listBegin_run hstart.list, hcollect, hdelete]

end

/-- Three children, the first and the last of which have exited. -/
def threeChildren : Heap Records where
  node
    | 0 => some ⟨none, some 2⟩
    | 1 => some ⟨some 4, none⟩
    | 2 => some ⟨some 0, some 3⟩
    | 3 => some ⟨some 2, some 4⟩
    | 4 => some ⟨some 3, some 1⟩
    | 5 | 6 => some ⟨none, none⟩
    | _ => none
  data :=
    { child := fun a => match a with
        | 2 | 4 => some ⟨1, false⟩
        | 3 => some ⟨2, false⟩
        | _ => none
      copy := fun _ => none
      blocks := [7, 8]
      lowered := []
      freed := [] }

theorem three_children_released : ∃ s' copies,
    releaseChildren ⟨0, 1⟩ ⟨5, 6⟩ 4 threeChildren = .ok ((), s') ∧
      Released threeChildren s' ⟨0, 1⟩ ⟨5, 6⟩ [2, 3, 4] copies fun a => if a = 3 then 2 else 1 := by
  have hrun : Run threeChildren.node [0, 2, 3, 4, 1] :=
    ⟨by simp [Linked, Nodes.next, Nodes.prev, threeChildren], by decide⟩
  refine children_released ⟨⟨hrun, rfl, rfl⟩, ?_, rfl, rfl, by decide, by decide, by decide, ?_,
    by decide⟩ 4 (by decide)
  · simp [threeChildren]
  · simp [threeChildren]

end Pintos.Userprog.Exit
