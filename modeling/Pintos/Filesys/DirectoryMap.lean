import Pintos.Base.Reach
import Pintos.Filesys.Mounted

/-!
# A directory is a bounded finite map

A directory made by `dir_create` under any calls of the functions of directory.c, while inodes are
made for new names and those `dir_lookup` has opened are closed at any time. The abstract state is
the table of the names and sectors the entries hold.
-/

namespace Pintos.Filesys

open Pintos.Base Pintos.Kernel

/-- A directory in use: the sectors with an inode that has had no name yet, and the inodes
`dir_lookup` has opened and no one has closed. -/
structure DirSys where
  fs : Fs
  loose : List Nat
  held : List Ptr

inductive DirCall where
  /-- `free_map_allocate` and `inode_create`, as `filesys_create` makes an inode. -/
  | make (length : Int)
  | add (name : CString) (sector : Nat)
  | remove (name : CString)
  | lookup (name : CString)
  | close (inode : Ptr)
  /-- `dir_readdir` until it fails, into `name`. -/
  | readdir (name : Buffer)

structure DirOp where
  call : DirCall
  /-- What is on the stack where a function keeps its entry. -/
  stack : Buffer

inductive DirResult where
  | made (sector : Option Nat)
  | done (success : Bool)
  | found (inode : Option Ptr)
  | closed
  | names (names : Option (List CString))

def makeInode (length : Int) : M (Option Nat) := do
  match ← freeMapAllocate 1 with
  | none => pure none
  | some sector =>
    if ← inodeCreate sector length then pure (some sector)
    else do
      freeMapRelease sector 1
      pure none

/-- All names, read through a `struct dir` of its own. -/
def readdirPass (dir : Dir) (name stack : Buffer) : M (Option (List CString)) := do
  match ← dirReopen dir with
  | none => pure none
  | some d => do
    let n ← getInode d.inode
    let names ← readdirFrom d stack (entryReads n) name 0
    dirClose (some d)
    pure names

def DirOp.run (dir : Dir) (op : DirOp) (y : DirSys) : Except Panic (DirResult × DirSys) :=
  match op.call with
  | .make length => (makeInode length y.fs).map fun r =>
    (.made r.1, { y with fs := r.2, loose := r.1.toList ++ y.loose })
  | .add name sector => (dirAdd dir name sector op.stack y.fs).map fun r =>
    (.done r.1, { y with fs := r.2, loose := if r.1 then y.loose.erase sector else y.loose })
  | .remove name => (dirRemove dir name op.stack y.fs).map fun r => (.done r.1, { y with fs := r.2 })
  | .lookup name => (dirLookup dir name op.stack y.fs).map fun r =>
    (.found r.1, { y with fs := r.2, held := r.1.toList ++ y.held })
  | .close inode => (inodeClose (some inode) y.fs).map fun r =>
    (.closed, { y with fs := r.2, held := y.held.erase inode })
  | .readdir name => (readdirPass dir name op.stack y.fs).map fun r => (.names r.1, { y with fs := r.2 })

def dirStep (dir : Dir) (y : DirSys) (op : DirOp) : Option DirSys :=
  ((op.run dir y).map Prod.snd).toOption

/-- A sector is added while its inode has had no name, and an inode is closed by who has it. -/
def DirAllowed (y : DirSys) (op : DirOp) : Prop :=
  match op.call with
  | .make length => 0 ≤ length ∧ length < 2 ^ 31
  | .add _ sector => sector ∈ y.loose
  | .close inode => inode ∈ y.held
  | _ => True

/-- The references there are, besides those of `dir_lookup` the ones of `base`. -/
def DirSys.refs (base : Ptr → Nat) (y : DirSys) (p : Ptr) : Nat := base p + y.held.count p

/-- The sectors of the directory and of the inodes it names or may come to name. -/
def claims {cnt : Nat} (d : Nat) (t : Slots Name Nat cnt) (loose : List Nat) : List Nat :=
  d :: (t.values ++ loose)

/-- The directory in the sector `d`, open as `p`, holds the table. -/
structure DirInv (base : Ptr → Nat) (d : Nat) (p : Ptr) {cnt : Nat} (y : DirSys)
    (t : Slots Name Nat cnt) : Prop where
  mounted : Mounted y.fs (y.refs base) (claims d t y.loose)
  handle : MapHandle y.fs base
  node : ∃ n ∈ y.fs.openInodes, n.addr = p ∧ n.sector = d ∧ n.denyWriteCnt = 0
  based : 0 < base p
  length : (inodeAt y.fs.disk d).length = (cnt * entrySize : Nat)
  table : DirTable y.fs.disk d t
  nodup : (claims d t y.loose).Nodup

section

variable {base : Ptr → Nat} {d x : Nat} {p : Ptr} {cnt : Nat} {y : DirSys} {t : Slots Name Nat cnt}
  {s s' : Fs} {loose : List Nat} {held : List Ptr} {claimed : List Nat} {n : Inode} {mem : List Bool}

theorem refs_cons (base : Ptr → Nat) (s : Fs) (loose : List Nat) (held : List Ptr) (p : Ptr) :
    DirSys.refs base ⟨s, loose, p :: held⟩ = addRef (DirSys.refs base ⟨s', loose, held⟩) p := by
  funext q
  unfold DirSys.refs addRef
  rw [List.count_cons, Nat.add_assoc]
  by_cases h : q = p
  · rw [if_pos h, if_pos (by simpa using h.symm)]
  · rw [if_neg h, if_neg (by simpa using Ne.symm h)]

/-- The entries of a claimed directory stay. -/
theorem Kept.entries (hk : Kept claimed s s') (hd : d ∈ claimed)
    (hlen : (inodeAt s.disk d).length = (cnt * entrySize : Nat)) :
    ∀ i < cnt, ∀ j < entrySize, dirSlot s'.disk d i j = dirSlot s.disk d i j := fun i hi j hj => by
  have hpos : ((entrySize * i + j : Nat) : Int) < (inodeAt s.disk d).length := by
    rw [hlen]
    unfold entrySize at *
    omega
  have hsec := dataSector_of_lt (by rw [hlen]; exact Int.natCast_nonneg _) hpos
  unfold dirSlot fileByte
  rw [hk.inode_same hd, hk.disk d hd _ (.inr hsec)]

/-- **A step that keeps the claimed sectors** keeps the table. -/
theorem DirInv.keep (h : DirInv base d p ⟨s, loose, held⟩ t) {loose' : List Nat} {held' : List Ptr}
    (hm : Mounted s' (DirSys.refs base ⟨s', loose', held'⟩) (claims d t loose'))
    (hk : Kept (claims d t loose) s s') (hnd : (claims d t loose').Nodup) :
    DirInv base d p ⟨s', loose', held'⟩ t := by
  have hd : d ∈ claims d t loose := List.mem_cons_self
  refine ⟨hm, h.handle.kept hm.map_handle hk, ?_, h.based, ?_, ?_, hnd⟩
  · obtain ⟨n, hn, rfl, hs, hdeny⟩ := h.node
    obtain ⟨n', hn', haddr⟩ := hm.inodes.refs_open n.addr (Nat.add_pos_left h.based _)
    obtain ⟨n₀, hn₀, h1, h2, h3⟩ := hk.inode n' hn' (haddr ▸ h.mounted.inodes.fresh n hn)
    obtain rfl := h.mounted.inodes.ext hn₀ hn (h1.trans haddr)
    exact ⟨n', hn', haddr, h2.symm.trans hs, h3.symm.trans hdeny⟩
  · show (inodeAt s'.disk d).length = _
    rw [hk.inode_same hd]
    exact h.length
  · exact h.table.congr (hk.entries hd h.length)

theorem DirInv.setMem (h : DirInv base d p ⟨s, loose, held⟩ t) (hm : Granted mem) :
    DirInv base d p ⟨{ s with mem := mem }, loose, held⟩ t :=
  h.keep (h.mounted.setMem hm) (kept_setMem s mem) h.nodup

theorem DirInv.openDir (h : DirInv base d p ⟨s, loose, held⟩ t) :
    ∃ n, n.addr = p ∧ n.sector = d ∧ OpenDir s n cnt := by
  obtain ⟨n, hn, haddr, hs, hdeny⟩ := h.node
  have hdata : n.data = inodeAt s.disk d := hs ▸ h.mounted.inodes.data n hn
  refine ⟨n, haddr, hs, h.mounted.inodes.inode? hn, hdeny, hs ▸ hdata, ?_, ?_⟩
  · rw [hdata]
    exact h.length
  · rw [hdata]
    exact h.mounted.extents.onDisk (.inr (.inl List.mem_cons_self))

/-! ## The calls -/

theorem refs_perm (base : Ptr → Nat) {held' : List Ptr} (h : held.Perm held') :
    DirSys.refs base ⟨s, loose, held⟩ = DirSys.refs base ⟨s', loose, held'⟩ := by
  funext q
  unfold DirSys.refs
  rw [h.count_eq]

theorem DirInv.open_run (h : DirInv base d p ⟨s, loose, held⟩ t) (hx : x ∈ claims d t loose) :
    ∃ n s', inodeOpen x s = .ok (some n.addr, s') ∧ DirInv base d p ⟨s', loose, n.addr :: held⟩ t ∧
      n ∈ s'.openInodes ∧ n.sector = x ∧ Kept (claims d t loose) s s' := by
  obtain ⟨n, s', hrun, hm, hk, hn, hs, -⟩ := h.mounted.open_run (.inr (.inl hx))
  refine ⟨n, s', hrun, h.keep ?_ hk h.nodup, hn, hs, hk⟩
  rw [refs_cons]
  exact hm

theorem DirInv.close_run (h : DirInv base d p ⟨s, loose, held⟩ t) {q : Ptr} (hq : q ∈ held) :
    ∃ s', inodeClose (some q) s = .ok ((), s') ∧ DirInv base d p ⟨s', loose, held.erase q⟩ t ∧
      Kept (claims d t loose) s s' := by
  have hrefs : DirSys.refs base ⟨s, loose, held⟩ = addRef (DirSys.refs base ⟨s, loose, held.erase q⟩) q := by
    rw [← refs_cons base s]
    exact refs_perm base (List.perm_cons_erase hq)
  obtain ⟨n, hn, rfl⟩ := h.mounted.inodes.refs_open q
    (Nat.add_pos_right _ (List.count_pos_iff.mpr hq))
  have hm := h.mounted
  rw [hrefs] at hm
  obtain ⟨s', hrun, hm', hk⟩ := hm.close_run (h.handle.mono fun _ => Nat.le_add_right _ _) hn
  exact ⟨s', hrun, h.keep hm' hk h.nodup, hk⟩

/-- An entry is written. -/
theorem DirInv.write (h : DirInv base d p ⟨s, loose, held⟩ t) {i : Nat} (hi : i < cnt) (e : Buffer)
    (hm : Granted mem) {t' : Slots Name Nat cnt} {loose' : List Nat}
    (hsame : ∀ j, j ≠ i → t'.slot j = t.slot j)
    (he : entryBinding e = (t'.slot i).map fun b => (b.1.val, b.2))
    (hsub : ∀ x ∈ claims d t' loose', x ∈ claims d t loose) (hnd : (claims d t' loose').Nodup) :
    DirInv base d p ⟨{ s with disk := putEntry s.disk d i e, mem := mem }, loose', held⟩ t' := by
  have hd : Used s.openInodes (claims d t loose) d := .inr (.inl List.mem_cons_self)
  have hlen : entrySize ≤ ioLen (inodeAt s.disk d) entrySize (entrySize * i) := by
    obtain ⟨n, -, rfl, ho⟩ := h.openDir
    rw [← ho.data, ho.entry_len i, if_pos hi]
  have hino : ∀ x, Used s.openInodes (claims d t loose) x →
      inodeAt (putEntry s.disk d i e) x = inodeAt s.disk x := fun x hx =>
    h.mounted.extents.write_inode hd e hlen hx
  refine ⟨(h.mounted.setDisk hm hino).mono hsub, h.handle, h.node, h.based, ?_,
    h.table.update (hino d hd) hsame he, hnd⟩
  show (inodeAt (putEntry s.disk d i e) d).length = _
  rw [hino d hd]
  exact h.length

/-- An inode without a name is marked as removed. -/
theorem DirInv.setRemoved (h : DirInv base d p ⟨s, loose, held⟩ t) (hn : n ∈ s.openInodes)
    (h0 : n.sector ≠ freeMapSector) (h1 : n.sector ∉ claims d t loose) :
    DirInv base d p ⟨setRemoved s n.addr, loose, held⟩ t :=
  h.keep (h.mounted.setRemoved hn h0 h1) (kept_setRemoved n.addr) h.nodup

/-- The file `name` is in the sector `x`. -/
def Names (t : Slots Name Nat cnt) (name : CString) (x : Nat) : Prop :=
  ∃ hok : nameOk name = true, t.get ⟨name, hok⟩ = some x

/-- The entries are as they were, byte for byte. -/
def SameEntries (d cnt : Nat) (k k' : Disk) : Prop :=
  ∀ i < cnt, ∀ j < entrySize, dirSlot k' d i j = dirSlot k d i j

theorem DirInv.same_entries (h : DirInv base d p ⟨s, loose, held⟩ t)
    (hk : Kept (claims d t loose) s s') : SameEntries d cnt s.disk s'.disk :=
  hk.entries List.mem_cons_self h.length

/-- **`dir_add`** -/
theorem DirInv.add (h : DirInv base d p ⟨s, loose, held⟩ t) (name : CString) (hx : x ∈ loose)
    (stack : Buffer) :
    (¬ Addable t name ∧ ∃ s', dirAdd ⟨p⟩ name x stack s = .ok (false, s') ∧
      DirInv base d p ⟨s', loose, held⟩ t ∧ SameEntries d cnt s.disk s'.disk) ∨
    (Addable t name ∧ ∃ s', ∃ t' : Slots Name Nat cnt, dirAdd ⟨p⟩ name x stack s = .ok (true, s') ∧
      DirInv base d p ⟨s', loose.erase x, held⟩ t' ∧
        ∃ hok, t'.get = Function.update t.get ⟨name, hok⟩ (some x)) := by
  obtain ⟨n, rfl, rfl, ho⟩ := h.openDir
  obtain ⟨mem, hm, hadd⟩ := ho.add_run h.mounted.granted h.table name x stack
  rcases hadd with ⟨hno, hrun⟩ | ⟨hok, i, e, hget, hi, hs, hrun⟩
  · exact .inl ⟨hno, _, hrun, h.setMem hm, fun _ _ _ _ => rfl⟩
  have hused : Used s.openInodes (claims n.sector t loose) x :=
    .inr (.inl (List.mem_cons_of_mem _ (List.mem_append_right _ hx)))
  have hx32 : x < 2 ^ 32 := by
    have hlt : x < s.capacity := h.mounted.lt hused
    have hcap := s.lba28
    omega
  have hvals : (t.put i ⟨name, hok⟩ x hget).values.Perm (x :: t.values) :=
    (Slots.bindings_put hi hs hget).map Prod.snd
  have hperm : (claims n.sector (t.put i ⟨name, hok⟩ x hget) (loose.erase x)).Perm
      (claims n.sector t loose) := by
    refine List.Perm.cons _ ((hvals.append_right _).trans ?_)
    rw [List.cons_append]
    exact List.perm_middle.symm.trans ((List.perm_cons_erase hx).symm.append_left _)
  refine .inr ⟨⟨hok, hget, Slots.card_lt_iff.mpr ⟨i, hi, hs⟩⟩, _, t.put i ⟨name, hok⟩ x hget, hrun,
    h.write hi _ hm (fun j hj => Function.update_of_ne hj _ _) ?_ (fun _ => hperm.mem_iff.mp)
      (hperm.nodup_iff.mpr h.nodup), hok, Slots.get_put hi hs hget⟩
  have hslot : (t.put i ⟨name, hok⟩ x hget).slot i = some (⟨name, hok⟩, x) := Function.update_self ..
  rw [entryBinding_fill hok e hx32, hslot]
  rfl

/-- **`dir_lookup`** -/
theorem DirInv.lookup (h : DirInv base d p ⟨s, loose, held⟩ t) (name : CString) (stack : Buffer) :
    ∃ r s', dirLookup ⟨p⟩ name stack s = .ok (r, s') ∧
      DirInv base d p ⟨s', loose, r.toList ++ held⟩ t ∧ SameEntries d cnt s.disk s'.disk ∧
      (r = none → ∀ x, ¬ Names t name x) ∧
      ∀ q, r = some q → ∃ n ∈ s'.openInodes, n.addr = q ∧ Names t name n.sector := by
  obtain ⟨n, rfl, rfl, ho⟩ := h.openDir
  obtain ⟨r, mem, hm, hfound, hrun⟩ := ho.lookup_run h.mounted.granted h.table name stack
  have hget := hfound.get
  simp only [dirLookup, bind_run, hrun, ok_bind]
  cases hfound with
  | missing hno =>
    refine ⟨none, _, rfl, h.setMem hm, fun _ _ _ _ => rfl, fun _ x hx => ?_, fun q hq => (by cases hq)⟩
    obtain ⟨hok, hx⟩ := hx
    cases hx.symm.trans ((hget hok).mp rfl)
  | @found i a x e hi hs ha he =>
    subst ha
    obtain ⟨-, -, hsec⟩ := h.table.used hi hs he
    have hx : t.get a = some x := Slots.get_eq_some_iff.mpr ⟨i, hi, hs⟩
    have hmem : x ∈ claims n.sector t loose := List.mem_cons_of_mem _ (List.mem_append_left _
      (List.mem_map_of_mem (f := Prod.snd) (Slots.get_eq_some.mp hx)))
    obtain ⟨m, s', hopen, h', hmo, hms, hk⟩ := (h.setMem hm).open_run hmem
    refine ⟨some m.addr, s', ?_, h', h.same_entries ((kept_setMem s mem).trans hk), fun hno => (by cases hno),
      fun q hq => ?_⟩
    · rw [← hsec] at hopen
      exact hopen
    · obtain rfl := Option.some.inj hq
      exact ⟨m, hmo, rfl, a.2, hms ▸ hx⟩

/-- **`dir_remove`** -/
theorem DirInv.remove (h : DirInv base d p ⟨s, loose, held⟩ t) (name : CString) (stack : Buffer) :
    ((∀ x, ¬ Names t name x) ∧ ∃ s', dirRemove ⟨p⟩ name stack s = .ok (false, s') ∧
      DirInv base d p ⟨s', loose, held⟩ t ∧ SameEntries d cnt s.disk s'.disk) ∨
    ((∃ x, Names t name x) ∧ ∃ s', ∃ t' : Slots Name Nat cnt,
      dirRemove ⟨p⟩ name stack s = .ok (true, s') ∧ DirInv base d p ⟨s', loose, held⟩ t' ∧
        ∃ hok, t'.get = Function.update t.get ⟨name, hok⟩ none) := by
  obtain ⟨n, rfl, rfl, ho⟩ := h.openDir
  obtain ⟨r, mem, hm, hfound, hrun⟩ := ho.lookup_run h.mounted.granted h.table name stack
  have hget := hfound.get
  simp only [dirRemove, bind_run, hrun, ok_bind]
  cases hfound with
  | missing hno =>
    refine .inl ⟨fun x hx => ?_, _, rfl, h.setMem hm, fun _ _ _ _ => rfl⟩
    obtain ⟨hok, hx⟩ := hx
    cases hx.symm.trans ((hget hok).mp rfl)
  | @found i a x e hi hs ha he =>
    subst ha
    obtain ⟨-, -, hsec⟩ := h.table.used hi hs he
    have hx : t.get a = some x := Slots.get_eq_some_iff.mpr ⟨i, hi, hs⟩
    have hvals : t.values.Perm (x :: (t.erase i).values) := (Slots.bindings_erase hi hs).map Prod.snd
    have hperm : (claims n.sector t loose).Perm (x :: claims n.sector (t.erase i) loose) :=
      ((hvals.append_right loose).cons n.sector).trans (List.Perm.swap ..)
    have hnd := List.nodup_cons.mp (hperm.nodup_iff.mp h.nodup)
    have hmem : x ∈ claims n.sector t loose := hperm.mem_iff.mpr List.mem_cons_self
    obtain ⟨m, s₂, hopen, h₂, hm₂, hms, -⟩ := (h.setMem hm).open_run hmem
    obtain ⟨n₂, haddr, hsec₂, ho₂⟩ := h₂.openDir
    obtain ⟨mem₃, hm₃, hwrite⟩ := ho₂.write_run h₂.mounted.granted (setInUse e false) i
    rw [if_pos hi, haddr, ho₂.data, hsec₂] at hwrite
    have hslot : (t.erase i).slot i = none := Function.update_self ..
    have h₃ : DirInv base n.sector n.addr ⟨{ s₂ with
        disk := putEntry s₂.disk n.sector i (setInUse e false)
        mem := mem₃ }, loose, m.addr :: held⟩ (t.erase i) := h₂.write hi (setInUse e false) hm₃
      (fun j hj => Function.update_of_ne hj _ _) (by rw [entryBinding_erase, hslot]; rfl)
      (fun z hz => hperm.mem_iff.mpr (List.mem_cons_of_mem x hz)) hnd.2
    have h₄ := h₃.setRemoved hm₂ (by rw [hms]; exact fun h0 => h.mounted.not_map (h0 ▸ hmem))
      (by rw [hms]; exact hnd.1)
    obtain ⟨s₅, hclose, h₅, -⟩ := h₄.close_run List.mem_cons_self
    rw [List.erase_cons_head] at h₅
    refine .inr ⟨⟨x, a.2, hx⟩, s₅, t.erase i, ?_, h₅, a.2, Slots.get_erase hi hs⟩
    rw [← hsec] at hopen
    have hremove : inodeRemove m.addr { s₂ with
          disk := putEntry s₂.disk n.sector i (setInUse e false)
          mem := mem₃ } = .ok ((), Filesys.setRemoved { s₂ with
            disk := putEntry s₂.disk n.sector i (setInUse e false)
            mem := mem₃ } m.addr) := by
      rw [inodeRemove, bind_run, discard_run (getInode_run (h₃.mounted.inodes.inode? hm₂))]
      rfl
    have herase : eraseEntry ⟨n.addr⟩ e (entrySize * i) m.addr s₂ =
        .ok (true, Filesys.setRemoved { s₂ with
          disk := putEntry s₂.disk n.sector i (setInUse e false)
          mem := mem₃ } m.addr) := by
      rw [eraseEntry, bind_run, hwrite, ok_bind, if_pos rfl, bind_run]
      exact congrArg (Except.bind · _) hremove
    simp only [hopen, ok_bind, bind_run, herase, hclose]
    rfl

/-- `dir_reopen` takes one more reference to the directory. -/
theorem DirInv.reopen (h : DirInv base d p ⟨s, loose, held⟩ t) :
    ∃ s', dirReopen ⟨p⟩ s = .ok (some ⟨p⟩, s') ∧ DirInv base d p ⟨s', loose, p :: held⟩ t ∧
      Kept (claims d t loose) s s' := by
  obtain ⟨n, hn, rfl, -⟩ := h.node
  have hn : n ∈ s.openInodes := hn
  have hrun := h.mounted.inodes.counted.reopen_run hn
  have htail : Granted s.mem.tail := fun b hb => h.mounted.granted b (List.mem_of_mem_tail hb)
  have hmem : (incRef s n.addr).mem.headD true = true := h.mounted.granted.head
  have hm := h.mounted.incRef hn
  rw [← refs_cons base (incRef s n.addr)] at hm
  have h₁ : DirInv base d n.addr ⟨incRef s n.addr, loose, n.addr :: held⟩ t :=
    h.keep hm (kept_incRef n.addr) h.nodup
  refine ⟨_, ?_, h₁.setMem htail, (kept_incRef n.addr).trans (kept_setMem _ _)⟩
  rw [dirReopen, bind_run, hrun, ok_bind, dirOpen, bind_run, malloc_run, ok_bind, hmem]
  rfl

/-- **A pass of `dir_readdir`** -/
theorem DirInv.readdir (h : DirInv base d p ⟨s, loose, held⟩ t) (name stack : Buffer) :
    ∃ s', readdirPass ⟨p⟩ name stack s = .ok (some (t.keys.map Subtype.val), s') ∧
      DirInv base d p ⟨s', loose, held⟩ t ∧ SameEntries d cnt s.disk s'.disk := by
  obtain ⟨s₁, hreopen, h₁, hk₁⟩ := h.reopen
  obtain ⟨n, haddr, hsec, ho⟩ := h₁.openDir
  have htable : DirTable s₁.disk n.sector t := hsec ▸ h₁.table
  obtain ⟨mem, hm, hread⟩ := OpenDir.readdirFrom_run (s := s₁) htable stack (cnt + 1) 0 name s₁.mem
    (by omega) (Nat.zero_le cnt) h₁.mounted.granted ho
  rw [haddr, namesFrom_zero] at hread
  obtain ⟨s₂, hclose, h₂, hk₂⟩ := (h₁.setMem hm).close_run List.mem_cons_self
  rw [List.erase_cons_head] at h₂
  have hget := getInode_run ho.inode
  rw [haddr] at hget
  refine ⟨s₂, ?_, h₂, h.same_entries (hk₁.trans ((kept_setMem s₁ mem).trans hk₂))⟩
  have hread' : readdirFrom ⟨p⟩ stack (entryReads n) name 0 s₁ =
      .ok (some (t.keys.map Subtype.val), { s₁ with mem := mem }) := by
    rw [ho.entryReads]
    exact hread
  simp only [readdirPass, bind_run, hreopen, ok_bind, hget, hread', dirClose, hclose, pure_run]

/-- A sector just taken is no one's. -/
theorem unowned_taken (h : Mounted s base claimed)
    (hscan : bitmapScan s.freeMap 0 1 false = some x) : Unowned (takeSectors s x 1) claimed x := by
  obtain ⟨-, hle, -⟩ := bitmapScan_some hscan
  refine ⟨?_, fun z hz ht => ?_⟩
  · show bitmapTest (bitmapSetMultiple s.freeMap x 1 true) x = true
    rw [bitmapTest_setMultiple hle, if_pos ⟨Nat.le_refl x, Nat.lt_succ_self x⟩]
  · have hz' : Used s.openInodes claimed z := hz
    have hino : inodeAt (takeSectors s x 1).disk z = inodeAt s.disk z := h.mapWritten_inode _ hz'
    rw [Extent, hino] at ht
    have hmark := h.extents.owns.marked z x hz' ht
    rw [bitmapScan_test hscan (Nat.le_refl x) (Nat.lt_succ_self x)] at hmark
    cases hmark

theorem Unowned.not_mem (h : Unowned s claimed x) : x ∉ claimed := fun hx =>
  h.free x (.inr (.inl hx)) (.inl rfl)

/-- An inode is made, or there is no room for it. -/
theorem DirInv.make (h : DirInv base d p ⟨s, loose, held⟩ t) {length : Int} (h0 : 0 ≤ length)
    (h1 : length < 2 ^ 31) :
    ∃ r s', makeInode length s = .ok (r, s') ∧ DirInv base d p ⟨s', r.toList ++ loose, held⟩ t ∧
      SameEntries d cnt s.disk s'.disk := by
  rcases h.mounted.allocate 1 with ⟨-, hrun⟩ | ⟨x, hscan, hle, hrun, hm, hk⟩
  · refine ⟨none, s, ?_, h, fun _ _ _ _ => rfl⟩
    rw [makeInode, bind_run, hrun, ok_bind]
    rfl
  have hfree := unowned_taken h.mounted hscan
  have hx := hfree.not_mem
  rcases hm.create_run hfree h0 h1 with ⟨mem, hcreate, hmem⟩ | ⟨s', hcreate, hnew⟩
  · have hm' := hm.setMem hmem
    have hfree' : ∀ y u, Used (takeSectors s x 1).openInodes (claims d t loose) y →
        Extent (takeSectors s x 1).disk y u → ¬ (x ≤ u ∧ u < x + 1) := fun y u hy hu hxu => by
      obtain rfl : u = x := by omega
      exact hfree.free y hy hu
    obtain ⟨hrel, hm₂, hk₂⟩ := hm'.release hle (fun u hu1 hu2 => by
      obtain rfl : u = x := by omega
      exact hfree.marked) hfree'
    have hk' : Kept (claims d t loose) s (releaseSectors { takeSectors s x 1 with mem := mem } x 1) :=
      hk.trans ((kept_setMem _ mem).trans hk₂)
    refine ⟨none, _, ?_, h.keep hm₂ hk' h.nodup, h.same_entries hk'⟩
    simp only [makeInode, bind_run, hrun, ok_bind, hcreate, Bool.false_eq_true, if_false, hrel, pure_run]
  · have hk' := hk.trans hnew.kept
    have hperm : (claims d t (x :: loose)).Perm (x :: claims d t loose) :=
      (List.perm_middle.cons d).trans (List.Perm.swap ..)
    refine ⟨some x, s', ?_, h.keep (hnew.mounted.mono fun z => hperm.mem_iff.mp) hk' ?_, h.same_entries hk'⟩
    · simp only [makeInode, bind_run, hrun, ok_bind, hcreate, if_true, pure_run]
    · exact hperm.nodup_iff.mpr (List.nodup_cons.mpr ⟨hx, h.nodup⟩)

/-- The table is as it was, and so are the entries. -/
def TableKept (d : Nat) (t t' : Slots Name Nat cnt) (s s' : Fs) : Prop :=
  t' = t ∧ SameEntries d cnt s.disk s'.disk

/-- **A bounded finite map**: what a call returns on the table `t`, and the table after it. -/
def MapSpec (d : Nat) (t t' : Slots Name Nat cnt) (s s' : Fs) : DirCall → DirResult → Prop
  | .make _, .made _ => TableKept d t t' s s'
  | .add name sector, .done success => (success = true ↔ Addable t name) ∧
      if success then ∃ hok, t'.get = Function.update t.get ⟨name, hok⟩ (some sector)
      else TableKept d t t' s s'
  | .remove name, .done success => (success = true ↔ ∃ x, Names t name x) ∧
      if success then ∃ hok, t'.get = Function.update t.get ⟨name, hok⟩ none
      else TableKept d t t' s s'
  | .lookup name, .found inode => (inode.isSome = true ↔ ∃ x, Names t name x) ∧
      (∀ q, inode = some q → ∃ n ∈ s'.openInodes, n.addr = q ∧ Names t name n.sector) ∧
      TableKept d t t' s s'
  | .close _, .closed => TableKept d t t' s s'
  | .readdir _, .names names => (∃ l : List Name, names = some (l.map Subtype.val) ∧ l.Nodup ∧
      ∀ a, a ∈ l ↔ t.get a ≠ none) ∧ TableKept d t t' s s'
  | _, _ => False

/-- **Every call** returns what the table says. -/
theorem DirInv.call (h : DirInv base d p y t) {op : DirOp} (hok : DirAllowed y op) :
    ∃ r y', ∃ t' : Slots Name Nat cnt, op.run ⟨p⟩ y = .ok (r, y') ∧ DirInv base d p y' t' ∧
      MapSpec d t t' y.fs y'.fs op.call r := by
  obtain ⟨s, loose, held⟩ := y
  obtain ⟨call, stack⟩ := op
  cases call with
  | make length =>
    obtain ⟨r, s', hrun, h', hsame⟩ := h.make hok.1 hok.2
    exact ⟨_, _, t, congrArg (Except.map _) hrun, h', rfl, hsame⟩
  | add name sector =>
    rcases h.add name hok stack with ⟨hno, s', hrun, h', hsame⟩ | ⟨hadd, s', t', hrun, h', hget⟩
    · exact ⟨_, _, t, congrArg (Except.map _) hrun, h', iff_of_false Bool.false_ne_true hno, rfl, hsame⟩
    · exact ⟨_, _, t', congrArg (Except.map _) hrun, h', iff_of_true rfl hadd, hget⟩
  | remove name =>
    rcases h.remove name stack with ⟨hno, s', hrun, h', hsame⟩ | ⟨hyes, s', t', hrun, h', hget⟩
    · refine ⟨_, _, t, congrArg (Except.map _) hrun, h', iff_of_false Bool.false_ne_true ?_, rfl, hsame⟩
      exact fun ⟨x, hx⟩ => hno x hx
    · exact ⟨_, _, t', congrArg (Except.map _) hrun, h', iff_of_true rfl hyes, hget⟩
  | lookup name =>
    obtain ⟨r, s', hrun, h', hsame, hnone, hsome⟩ := h.lookup name stack
    refine ⟨_, _, t, congrArg (Except.map _) hrun, h', ?_, hsome, rfl, hsame⟩
    cases r with
    | none => exact iff_of_false Bool.false_ne_true fun ⟨x, hx⟩ => hnone rfl x hx
    | some q =>
      obtain ⟨n, -, -, hn⟩ := hsome q rfl
      exact iff_of_true rfl ⟨_, hn⟩
  | close inode =>
    obtain ⟨s', hrun, h', hk⟩ := h.close_run hok
    exact ⟨_, _, t, congrArg (Except.map _) hrun, h', rfl, h.same_entries hk⟩
  | readdir name =>
    obtain ⟨s', hrun, h', hsame⟩ := h.readdir name stack
    exact ⟨_, _, t, congrArg (Except.map _) hrun, h',
      ⟨t.keys, rfl, t.keys_nodup, fun _ => Slots.mem_keys⟩, rfl, hsame⟩

theorem DirInv.reach (h : DirInv base d p y t) {y' : DirSys}
    (hr : Reach (dirStep ⟨p⟩) DirAllowed y y') : ∃ t' : Slots Name Nat cnt, DirInv base d p y' t' := by
  refine hr.invariant (I := fun y => ∃ t' : Slots Name Nat cnt, DirInv base d p y t') ⟨t, h⟩ ?_
  rintro z op z' ⟨t', h'⟩ hok hstep
  obtain ⟨r, z₁, t₁, hrun, h₁, -⟩ := h'.call hok
  rw [dirStep, hrun] at hstep
  obtain rfl := Option.some.inj hstep
  exact ⟨t₁, h₁⟩

/-! ## A new directory -/

/-- The sector `d` is taken for a directory, and the sectors `loose` have inodes without a name. -/
structure Prepared (s : Fs) (base : Ptr → Nat) (d : Nat) (loose : List Nat) : Prop where
  mounted : Mounted s base loose
  nodup : loose.Nodup
  unowned : Unowned s loose d

theorem Inv.mounted {refs : Ptr → Nat} (h : Inv s refs) (hm : Granted s.mem) : Mounted s refs [] := by
  have hlive : ∀ x, Used s.openInodes [] x → Live s.disk (Opened s.openInodes) x := fun x hx => by
    rcases hx with rfl | hx | hx
    · exact live_map
    · cases hx
    · exact .inr (.inr (.inr hx))
  refine ⟨⟨h.layout.size, fun x hx => h.layout.length_nonneg x (hlive x hx),
    fun x hx => h.layout.data_le x (hlive x hx), h.layout.owns.mono hlive (fun _ _ _ => id) fun _ => id,
    fun x hx => h.layout.own_data x (hlive x hx)⟩, h.layout.map_length, hm,
    ⟨h.addrs, h.fresh, h.count, h.refs_open, h.sectors, h.data⟩,
    fun n hn hr => ⟨(h.removed n hn hr).1, List.not_mem_nil⟩, ?_, List.not_mem_nil⟩
  obtain ⟨f, hf, n, hn, hmap, haddr, hsec, hpos⟩ := h.map_ref
  exact ⟨f, n, hmap, h.file? hf, hn, haddr, hsec, h.deny n hn, haddr ▸ hpos⟩

theorem makeInode_some {length : Int} (h : makeInode length s = .ok (some x, s')) :
    ∃ s₁, freeMapAllocate 1 s = .ok (some x, s₁) ∧ inodeCreate x length s₁ = .ok (true, s') := by
  obtain ⟨r, s₁, halloc, h⟩ := ok_of_bind h
  cases r with
  | none => cases h
  | some z =>
    obtain ⟨made, s₂, hcreate, h⟩ := ok_of_bind h
    cases made with
    | true =>
      cases h
      exact ⟨s₁, halloc, hcreate⟩
    | false =>
      obtain ⟨_, s₃, -, h⟩ := ok_of_bind h
      cases h

/-- Between two calls `free_map_allocate` gives a sector for a directory. -/
theorem Ready.prepared (h : Ready s) (hm : Granted s.mem) (hrun : freeMapAllocate 1 s = .ok (some d, s')) :
    Prepared s' (fileRefs s.files) d [] := by
  have hmounted := h.inv.mounted hm
  rcases hmounted.allocate 1 with ⟨-, hno⟩ | ⟨x, hscan, -, hyes, h', -⟩
  · cases hrun.symm.trans hno
  · cases hrun.symm.trans hyes
    exact ⟨h', List.nodup_nil, unowned_taken hmounted hscan⟩

/-- A file of zeros is a directory without names. -/
theorem dirTable_zeros {k : Disk} (hzero : ∀ pos : Nat, (pos : Int) < (cnt * entrySize : Nat) →
    fileByte k (inodeAt k d).start pos = 0) : DirTable k d (Slots.empty : Slots Name Nat cnt) :=
  fun i hi => if_neg (by
    have hbyte : dirSlot k d i 19 = 0 := hzero _ (by unfold entrySize; omega)
    simp [entryInUse, hbyte])

theorem claims_empty (d : Nat) (loose : List Nat) :
    claims d (Slots.empty : Slots Name Nat cnt) loose = d :: loose := by
  unfold claims Slots.values
  rw [Slots.bindings_empty]
  rfl

/-- **`dir_create`, `inode_open` and `dir_open`** -/
theorem Prepared.start {s₁ : Fs} (h : Prepared s base d loose) (hsize : cnt * entrySize < 2 ^ 31)
    (hcreate : dirCreate d cnt s = .ok (true, s₁)) :
    ∃ p base' s₂, (inodeOpen d >>= dirOpen) s₁ = .ok (some ⟨p⟩, s₂) ∧
      DirInv base' d p ⟨s₂, loose, []⟩ (Slots.empty : Slots Name Nat cnt) := by
  have hnew : NewInode s s₁ base loose d (cnt * entrySize : Nat) := by
    rcases h.mounted.create_run h.unowned (Int.natCast_nonneg (cnt * entrySize)) (by omega) with
      ⟨mem, hrun, -⟩ | ⟨s', hrun, hnew⟩
    · cases hcreate.symm.trans hrun
    · cases hcreate.symm.trans hrun
      exact hnew
  have hclosed : ¬ Opened s₁.openInodes d := by
    rintro ⟨n', hn', rfl⟩
    obtain ⟨m, hm, haddr⟩ := h.mounted.inodes.refs_open n'.addr (hnew.mounted.inodes.count n' hn').2
    obtain ⟨n, hn, -, hsec, -⟩ := hnew.kept.inode n' hn' (haddr ▸ h.mounted.inodes.fresh m hm)
    exact h.unowned.free n'.sector (.inr (.inr ⟨n, hn, hsec⟩)) (.inl rfl)
  obtain ⟨n, s₂, hopen, hm, hk, hn, hs, hdeny⟩ := hnew.mounted.open_run (.inr (.inl List.mem_cons_self))
  have hdisk : ∀ t, Extent s₁.disk d t → s₂.disk t = s₁.disk t := hk.disk d List.mem_cons_self
  have hino : inodeAt s₂.disk d = inodeAt s₁.disk d := hk.inode_same List.mem_cons_self
  have htail : Granted s₂.mem.tail := fun b hb => hm.granted b (List.mem_of_mem_tail hb)
  have hmem : s₂.mem.headD true = true := hm.granted.head
  have hstart : DirInv (addRef base n.addr) d n.addr ⟨s₂, loose, []⟩
      (Slots.empty : Slots Name Nat cnt) := by
    refine ⟨?_, hm.map_handle, ⟨n, hn, rfl, hs, hdeny hclosed⟩, ?_, ?_,
      dirTable_zeros fun pos hpos => ?_, ?_⟩
    · rw [claims_empty]
      exact hm
    · rw [addRef_self]
      exact Nat.succ_pos _
    · show (inodeAt s₂.disk d).length = _
      rw [hino, hnew.len]
    · have hsec := dataSector_of_lt (k := s₁.disk) (x := d) (by rw [hnew.len]; omega) (by rwa [hnew.len])
      rw [hino, fileByte, hdisk _ (.inr hsec)]
      exact hnew.zero pos hpos
    · rw [claims_empty]
      exact List.nodup_cons.mpr ⟨h.unowned.not_mem, h.nodup⟩
  refine ⟨n.addr, _, _, ?_, hstart.setMem htail⟩
  rw [bind_run, hopen, ok_bind, dirOpen, bind_run, malloc_run, ok_bind, hmem]
  rfl

/-- The names of the entries in use. -/
def NamesDiffer (k : Disk) (d cnt : Nat) : Prop :=
  ∀ i j, i < cnt → j < cnt → entryInUse (dirSlot k d i) = true → entryInUse (dirSlot k d j) = true →
    nameOf (dirSlot k d i) = nameOf (dirSlot k d j) → i = j

theorem DirTable.names_differ {k : Disk} (h : DirTable k d t) : NamesDiffer k d cnt := by
  have hslot : ∀ i < cnt, entryInUse (dirSlot k d i) = true →
      ∃ a x, t.slot i = some (a, x) ∧ a.val = nameOf (dirSlot k d i) := fun i hi hu => by
    have hb := h i hi
    rw [entryBinding, if_pos hu] at hb
    obtain ⟨⟨a, x⟩, hs, ha⟩ := Option.map_eq_some_iff.mp hb.symm
    exact ⟨a, x, hs, congrArg Prod.fst ha⟩
  intro i j hi hj hui huj heq
  obtain ⟨a, x, hsi, ha⟩ := hslot i hi hui
  obtain ⟨b, z, hsj, hb⟩ := hslot j hj huj
  obtain rfl : a = b := Subtype.ext (ha.trans (heq.trans hb.symm))
  exact t.distinct i j a x z hi hj hsi hsj

end

/-- **A directory is a bounded finite map**: a directory made by `dir_create` with any number of
entries and opened starts without names, and after any calls its entries are a table of names, no
two of them the same, on which every call gives what the map says. -/
theorem directory_refines_map {s s₁ : Fs} {base : Ptr → Nat} {d : Nat} {loose : List Nat}
    (h : Prepared s base d loose) {cnt : Nat} (hsize : cnt * entrySize < 2 ^ 31)
    (hcreate : dirCreate d cnt s = .ok (true, s₁)) :
    ∃ dir s₂, (inodeOpen d >>= dirOpen) s₁ = .ok (some dir, s₂) ∧
      DirTable s₂.disk d (Slots.empty : Slots Name Nat cnt) ∧
      ∀ y, Reach (dirStep dir) DirAllowed ⟨s₂, loose, []⟩ y →
        NamesDiffer y.fs.disk d cnt ∧ ∃ t : Slots Name Nat cnt, DirTable y.fs.disk d t ∧
          ∀ op, DirAllowed y op → ∃ r y', ∃ t' : Slots Name Nat cnt, op.run dir y = .ok (r, y') ∧
            DirTable y'.fs.disk d t' ∧ MapSpec d t t' y.fs y'.fs op.call r := by
  obtain ⟨p, base', s₂, hopen, hstart⟩ := h.start hsize hcreate
  refine ⟨⟨p⟩, s₂, hopen, hstart.table, fun y hy => ?_⟩
  obtain ⟨t, hinv⟩ := hstart.reach hy
  refine ⟨hinv.table.names_differ, t, hinv.table, fun op hok => ?_⟩
  obtain ⟨r, y', t', hrun, h', hspec⟩ := hinv.call hok
  exact ⟨r, y', t', hrun, h'.table, hspec⟩

/-- A directory of two entries on the small disk. -/
theorem small_directory : ∃ s s₁ dir s₂, freeMapAllocate 1 { smallDisk with mem := [] } = .ok (some 4, s) ∧
    dirCreate 4 2 s = .ok (true, s₁) ∧ (inodeOpen 4 >>= dirOpen) s₁ = .ok (some dir, s₂) ∧
      ∀ y, Reach (dirStep dir) DirAllowed ⟨s₂, [], []⟩ y → NamesDiffer y.fs.disk 4 2 := by
  have hmade : (makeInode 40 { smallDisk with mem := [] }).toOption.map Prod.fst = some (some 4) := by
    decide +kernel
  have hready := (filesysInit_ready smallDisk_init).setMem []
  obtain ⟨s₁, hrun⟩ : ∃ s₁, makeInode 40 { smallDisk with mem := [] } = .ok (some 4, s₁) := by
    cases hr : makeInode 40 { smallDisk with mem := [] } with
    | error e =>
      rw [hr] at hmade
      cases hmade
    | ok r =>
      obtain ⟨made, s₁⟩ := r
      rw [hr] at hmade
      obtain rfl : made = some 4 := Option.some.inj hmade
      exact ⟨s₁, rfl⟩
  obtain ⟨s, halloc, hcreate⟩ := makeInode_some hrun
  obtain ⟨dir, s₂, hopen, -, hall⟩ := directory_refines_map (hready.prepared (List.forall_mem_nil _) halloc)
    (show 2 * entrySize < 2 ^ 31 by decide) hcreate
  exact ⟨s, s₁, dir, s₂, halloc, hcreate, hopen, fun y hy => (hall y hy).1⟩

end Pintos.Filesys
