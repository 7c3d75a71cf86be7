import Mathlib.Data.List.TakeWhile
import Pintos.Base.Slots
import Pintos.Filesys.CreateFresh

/-!
# The entries of a directory

A directory of any size as a table of names and sectors. An entry may lie across two sectors; what
it says is told by its twenty bytes, and the name by those up to the first NUL.
-/

namespace Pintos.Filesys

open Pintos.Base Pintos.Kernel

/-- The string at the start of a buffer of `n` bytes. -/
def stringIn (b : Buffer) (n : Nat) : CString where
  chars := ((List.range n).map b).takeWhile (· != 0)
  no_nul h := by
    have := List.mem_takeWhile_imp h
    simp at this

def nameOf (e : Buffer) : CString := stringIn (entryName e) (nameMax + 1)

/-- A string of 1 to `NAME_MAX` characters. -/
abbrev Name := { name : CString // nameOk name = true }

/-- What an entry in use binds. -/
def entryBinding (e : Buffer) : Option (CString × Nat) :=
  if entryInUse e then some (nameOf e, entrySector e) else none

/-- The entry `i` of the directory with its inode in `d`. -/
def dirSlot (k : Disk) (d i : Nat) : Buffer := fun j =>
  fileByte k (inodeAt k d).start (entrySize * i + j)

/-- The directory holds the table. -/
def DirTable (k : Disk) (d : Nat) {cnt : Nat} (t : Slots Name Nat cnt) : Prop :=
  ∀ i < cnt, entryBinding (dirSlot k d i) = (t.slot i).map fun b => (b.1.val, b.2)

section

variable {b e e' : Buffer} {n z : Nat} {name : CString}

theorem CString.ext {s s' : CString} (h : s.chars = s'.chars) : s = s' := by
  cases s
  cases s'
  cases h
  rfl

/-- The string in a buffer is what stands before the first NUL, if there is one. -/
theorem stringIn_spec (b : Buffer) (n : Nat) :
    strlen (stringIn b n) ≤ n ∧ (∀ i < strlen (stringIn b n), b i = (stringIn b n).chars.getD i 0) ∧
      (strlen (stringIn b n) < n → b (strlen (stringIn b n)) = 0) := by
  have hp : (stringIn b n).chars <+: (List.range n).map b := List.takeWhile_prefix _
  have hle : strlen (stringIn b n) ≤ n := by
    have := hp.length_le
    rwa [List.length_map, List.length_range] at this
  refine ⟨hle, fun i hi => ?_, fun hlt => ?_⟩
  · have hget := hp.getElem hi
    rw [List.getElem_map, List.getElem_range] at hget
    rw [List.getD_eq_getElem _ _ hi, hget]
  · have happ : (List.range n).map b = (stringIn b n).chars ++ ((List.range n).map b).dropWhile (· != 0) :=
      List.takeWhile_append_dropWhile.symm
    have hne : ((List.range n).map b).dropWhile (· != 0) ≠ [] := fun hnil => by
      rw [hnil, List.append_nil] at happ
      have := congrArg List.length happ
      rw [List.length_map, List.length_range] at this
      exact absurd this (Nat.ne_of_gt hlt)
    have hhead := List.head_dropWhile_not (· != 0) hne
    have hb : b (strlen (stringIn b n)) = (((List.range n).map b).dropWhile (· != 0)).head hne := by
      have hat := congrArg (fun l => l[(stringIn b n).chars.length]?) happ
      have hlt : (stringIn b n).chars.length < n := hlt
      rw [List.getElem?_append_right (Nat.le_refl _), Nat.sub_self, ← List.head?_eq_getElem?,
        List.head?_eq_some_head hne, List.getElem?_map, List.getElem?_range hlt] at hat
      exact Option.some.inj hat
    rw [hb]
    simpa using hhead

theorem char_ne_zero (s : CString) {i : Nat} (hi : i < strlen s) : s.chars.getD i 0 ≠ 0 := fun h => by
  rw [List.getD_eq_getElem _ _ hi] at h
  exact s.no_nul (h ▸ List.getElem_mem hi)

theorem strEq_iff : strEq name b = true ↔
    (∀ i < strlen name, b i = name.chars.getD i 0) ∧ b (strlen name) = 0 := by
  unfold strEq
  rw [Bool.and_eq_true, List.all_eq_true, beq_iff_eq]
  refine and_congr_left fun _ => forall_congr' fun i => ?_
  rw [List.mem_range, beq_iff_eq]

/-- A string that ends in the buffer is the one there. -/
theorem stringIn_eq (hlen : strlen name < n) (h : strEq name b = true) : stringIn b n = name := by
  obtain ⟨hchars, hend⟩ := strEq_iff.mp h
  obtain ⟨hle, hget, hnul⟩ := stringIn_spec b n
  have hsame : strlen (stringIn b n) = strlen name := by
    rcases Nat.lt_trichotomy (strlen (stringIn b n)) (strlen name) with hlt | heq | hlt
    · have h0 := hnul (hlt.trans hlen)
      rw [hchars _ hlt] at h0
      exact absurd h0 (char_ne_zero name hlt)
    · exact heq
    · rw [hget _ hlt] at hend
      exact absurd hend (char_ne_zero _ hlt)
  refine CString.ext (List.ext_getElem hsame fun i h1 h2 => ?_)
  have h1' := hget i h1
  have h2' := hchars i h2
  rw [List.getD_eq_getElem _ _ h1] at h1'
  rw [List.getD_eq_getElem _ _ h2] at h2'
  exact h1'.symm.trans h2'

/-- A buffer that holds the end of its string holds the string. -/
theorem strEq_stringIn (h : strlen (stringIn b n) < n) : strEq (stringIn b n) b = true := by
  obtain ⟨-, hget, hnul⟩ := stringIn_spec b n
  exact strEq_iff.mpr ⟨hget, hnul h⟩

/-- A longer string fills the buffer. -/
theorem strlen_stringIn (hlen : n ≤ strlen name) (h : strEq name b = true) :
    strlen (stringIn b n) = n := by
  obtain ⟨hchars, -⟩ := strEq_iff.mp h
  obtain ⟨hle, -, hnul⟩ := stringIn_spec b n
  refine Nat.le_antisymm hle (Nat.le_of_not_lt fun hlt => ?_)
  have h0 := hnul hlt
  rw [hchars _ (hlt.trans_le hlen)] at h0
  exact char_ne_zero name (hlt.trans_le hlen) h0

/-- **`strcmp`** on the name of an entry that holds a valid one. -/
theorem strEq_entry (hok : nameOk (nameOf e) = true) :
    strEq name (entryName e) = true ↔ nameOf e = name := by
  have hlen : strlen (nameOf e) < nameMax + 1 := Nat.lt_succ_of_le (strlen_le hok)
  constructor
  · intro h
    refine stringIn_eq (Nat.lt_of_not_le fun hle => ?_) h
    exact Nat.ne_of_lt hlen (strlen_stringIn hle h)
  · rintro rfl
    exact strEq_stringIn hlen

theorem stringIn_congr (h : ∀ j < n, b j = e j) : stringIn b n = stringIn e n := by
  refine CString.ext (congrArg (List.takeWhile _) (List.map_congr_left fun j hj => ?_))
  exact h j (List.mem_range.mp hj)

theorem nameOf_congr (h : ∀ j < entrySize, e j = e' j) : nameOf e = nameOf e' := by
  refine stringIn_congr fun j hj => h (4 + j) ?_
  unfold nameMax at hj
  unfold entrySize
  omega

theorem entryBinding_congr (h : ∀ j < entrySize, e j = e' j) : entryBinding e = entryBinding e' := by
  unfold entryBinding
  rw [entryInUse_congr h, nameOf_congr h, entrySector_congr h]

/-- The entry `dir_add` writes. -/
theorem entryBinding_fill (hok : nameOk name = true) (e : Buffer) (hz : z < 2 ^ 32) :
    entryBinding (fillEntry e name z) = some (name, z) := by
  have hname : nameOf (fillEntry e name z) = name :=
    stringIn_eq (Nat.lt_succ_of_le (strlen_le hok)) (fillEntry_name hok e z)
  rw [entryBinding, if_pos (fillEntry_inUse e name z), hname, fillEntry_sector e name hz]

theorem entryBinding_erase (e : Buffer) : entryBinding (setInUse e false) = none := if_neg (by simp [entryInUse, setInUse])

end

/-! ## Reading the directory -/

/-- `dir_readdir` up to the entry it finds, from the position `pos` on, and the position after it. -/
def readdirLoop (p : Ptr) : (fuel : Nat) → Buffer → (pos : Nat) → M (Option Buffer × Nat)
  | 0, _, pos => pure (none, pos)
  | fuel + 1, e, pos => do
    let r ← inodeReadAt p e entrySize pos
    if r.1 = entrySize then
      if entryInUse r.2 then pure (some r.2, pos + entrySize)
      else readdirLoop p fuel r.2 (pos + entrySize)
    else pure (none, pos)

/-- `dir_readdir` of the directory at `pos`: whether it succeeds, `name`, and the position. -/
def dirReaddir (dir : Dir) (pos : Nat) (name stack : Buffer) : M ((Bool × Buffer) × Nat) := do
  let n ← getInode dir.inode
  let r ← readdirLoop dir.inode (entryReads n) stack pos
  match r.1 with
  | some e => pure ((true, strlcpy name 0 (nameOf e) (nameMax + 1)), r.2)
  | none => pure ((false, name), r.2)

/-- `dir_readdir` until it fails: the names, unless there are `fuel` or more. -/
def readdirFrom (dir : Dir) (stack : Buffer) :
    (fuel : Nat) → (name : Buffer) → (pos : Nat) → M (Option (List CString))
  | 0, _, _ => pure none
  | fuel + 1, name, pos => do
    let r ← dirReaddir dir pos name stack
    if r.1.1 then
      let rest ← readdirFrom dir stack fuel r.1.2 r.2
      pure (rest.map (stringIn r.1.2 (nameMax + 1) :: ·))
    else pure (some [])

/-- All requests for memory succeed. -/
def Granted (mem : List Bool) : Prop := ∀ b ∈ mem, b = true

/-- The inode of a directory with `cnt` entries is open. -/
structure OpenDir (s : Fs) (n : Inode) (cnt : Nat) : Prop where
  inode : s.inode? n.addr = some n
  deny : n.denyWriteCnt = 0
  data : n.data = inodeAt s.disk n.sector
  length : n.data.length = (cnt * entrySize : Nat)
  onDisk : OnDisk s.capacity n.data

/-- The entry `i` is in `e`. -/
def EntryIn (k : Disk) (d i : Nat) (e : Buffer) : Prop := ∀ j < entrySize, e j = dirSlot k d i j

section

variable {s : Fs} {n : Inode} {cnt : Nat} {mem : List Bool} {k : Disk} {d i : Nat} {e : Buffer}
  {t : Slots Name Nat cnt} {name : CString} {a : Name} {x : Nat}

theorem granted_transfer (h : Granted mem) (d : DiskInode) (size offset : Nat) (bounce : Bool) :
    Granted (transfer d size offset bounce mem).2 := by
  by_cases hb : NoBounce (ioLen d size offset) offset bounce
  · rw [transfer_noBounce hb]
    exact h
  · rw [transfer_needs hb]
    exact fun b hm => h b (List.mem_of_mem_tail hm)

theorem OpenDir.setMem (h : OpenDir s n cnt) (mem : List Bool) : OpenDir { s with mem := mem } n cnt :=
  ⟨h.inode, h.deny, h.data, h.length, h.onDisk⟩

theorem OpenDir.entry_len (h : OpenDir s n cnt) (i : Nat) :
    ioLen n.data entrySize (entrySize * i) = if i < cnt then entrySize else 0 := by
  unfold ioLen
  rw [h.length]
  unfold entrySize
  split <;> omega

theorem OpenDir.entryReads (h : OpenDir s n cnt) : entryReads n = cnt + 1 := by
  rw [Filesys.entryReads, h.length]
  unfold entrySize
  omega

/-- **A read** of one entry. -/
theorem OpenDir.read_run (h : OpenDir s n cnt) (hm : Granted s.mem) (e : Buffer) (i : Nat) :
    ∃ mem, Granted mem ∧
      (i < cnt → ∃ e', EntryIn s.disk n.sector i e' ∧
        inodeReadAt n.addr e entrySize (entrySize * i) s =
          .ok ((entrySize, e'), { s with mem := mem })) ∧
      (cnt ≤ i → inodeReadAt n.addr e entrySize (entrySize * i) s =
        .ok ((0, e), { s with mem := mem })) := by
  have hrun : inodeReadAt n.addr e entrySize (entrySize * i) s = _ := readAt_run h.inode h.onDisk e
  rw [Int.toNat_natCast, transfer_of_granted hm, h.entry_len i] at hrun
  refine ⟨_, granted_transfer hm n.data entrySize (entrySize * i) false, fun hi => ?_, fun hi => ?_⟩
  · rw [if_pos hi] at hrun
    refine ⟨_, fun j hj => ?_, hrun⟩
    rw [memcpy_in (Nat.zero_le j) (by omega), h.data]
    rfl
  · rw [if_neg (Nat.not_lt.mpr hi), memcpy_zero] at hrun
    exact hrun

theorem OpenDir.write_run (h : OpenDir s n cnt) (hm : Granted s.mem) (e : Buffer) (i : Nat) :
    ∃ mem, Granted mem ∧
      inodeWriteAt n.addr e entrySize (entrySize * i) s = .ok (if i < cnt then entrySize else 0,
        { s with
          disk := splice s.disk n.data.start (entrySize * i) (if i < cnt then entrySize else 0) e
          mem := mem }) := by
  have hrun : inodeWriteAt n.addr e entrySize (entrySize * i) s = _ :=
    writeAt_run h.inode h.deny h.onDisk e
  rw [Int.toNat_natCast, transfer_of_granted hm, h.entry_len i] at hrun
  exact ⟨_, granted_transfer hm n.data entrySize (entrySize * i) false, hrun⟩

/-! ## The table -/

theorem DirTable.congr {k' : Disk} (h : DirTable k d t)
    (hk : ∀ i < cnt, ∀ j < entrySize, dirSlot k' d i j = dirSlot k d i j) : DirTable k' d t :=
  fun i hi => (entryBinding_congr (hk i hi)).trans (h i hi)

/-- A slot in use. -/
theorem DirTable.used (h : DirTable k d t) (hi : i < cnt) (hs : t.slot i = some (a, x))
    (he : EntryIn k d i e) : entryInUse e = true ∧ nameOf e = a.val ∧ entrySector e = x := by
  have hb := h i hi
  rw [← entryBinding_congr he, hs, entryBinding] at hb
  split at hb
  · next hu =>
    obtain ⟨h1, h2⟩ := Prod.mk.inj (Option.some.inj hb)
    exact ⟨hu, h1, h2⟩
  · cases hb

theorem DirTable.unused (h : DirTable k d t) (hi : i < cnt) (hs : t.slot i = none)
    (he : EntryIn k d i e) : entryInUse e = false := by
  have hb := h i hi
  rw [← entryBinding_congr he, hs, entryBinding] at hb
  split at hb
  · cases hb
  · next hu => simpa using hu

/-- What the search for a name finds. -/
inductive Search (k : Disk) (d : Nat) (t : Slots Name Nat cnt) (name : CString) :
    Option (Buffer × Nat) → Prop where
  | found {i : Nat} {a : Name} {x : Nat} {e : Buffer} (hi : i < cnt) (hs : t.slot i = some (a, x))
      (ha : a.val = name) (he : EntryIn k d i e) : Search k d t name (some (e, entrySize * i))
  | missing (h : ∀ i < cnt, ∀ a x, t.slot i = some (a, x) → a.val ≠ name) : Search k d t name none

theorem OpenDir.lookupLoop_run (ht : DirTable s.disk n.sector t) (name : CString) :
    ∀ (fuel i : Nat) (e : Buffer) (mem : List Bool), cnt < i + fuel → i ≤ cnt → Granted mem →
      OpenDir { s with mem := mem } n cnt →
      (∀ j < i, ∀ a x, t.slot j = some (a, x) → a.val ≠ name) →
      ∃ r mem', Granted mem' ∧ Search s.disk n.sector t name r ∧
        lookupLoop n.addr name fuel e (entrySize * i) { s with mem := mem } =
          .ok (r, { s with mem := mem' }) := by
  intro fuel
  induction fuel with
  | zero =>
    intro i e mem hfuel hi
    exact absurd hi (Nat.not_le.mpr hfuel)
  | succ fuel ih =>
    intro i e mem hfuel hi hm h hpast
    obtain ⟨mem', hm', hin, hout⟩ := h.read_run hm e i
    rcases Nat.lt_or_ge i cnt with hlt | hge
    · obtain ⟨e', he', hrun⟩ := hin hlt
      rw [lookupLoop, bind_run, hrun, ok_bind, if_pos rfl]
      cases hs : t.slot i with
      | none =>
        rw [ht.unused hlt hs he', Bool.false_and, if_neg Bool.false_ne_true]
        refine ih (i + 1) e' mem' (by omega) hlt hm' (h.setMem mem') fun j hj a x hj' => ?_
        rcases Nat.lt_succ_iff_lt_or_eq.mp hj with hj | rfl
        · exact hpast j hj a x hj'
        · cases hs.symm.trans hj'
      | some b =>
        obtain ⟨a, x⟩ := b
        obtain ⟨hu, hname, -⟩ := ht.used hlt hs he'
        have hiff : strEq name (entryName e') = true ↔ nameOf e' = name := strEq_entry (hname ▸ a.2)
        by_cases ha : a.val = name
        · rw [hu, hiff.mpr (hname.trans ha), Bool.true_and, if_pos rfl]
          exact ⟨_, mem', hm', .found hlt hs ha he', rfl⟩
        · have hne : strEq name (entryName e') = false := by
            rw [Bool.eq_false_iff]
            exact fun he => ha (hname.symm.trans (hiff.mp he))
          rw [hne, Bool.and_false, if_neg Bool.false_ne_true]
          refine ih (i + 1) e' mem' (by omega) hlt hm' (h.setMem mem') fun j hj a' x' hj' => ?_
          rcases Nat.lt_succ_iff_lt_or_eq.mp hj with hj | rfl
          · exact hpast j hj a' x' hj'
          · cases hs.symm.trans hj'
            exact ha
    · rw [lookupLoop, bind_run, hout hge, ok_bind, if_neg (show ¬ 0 = entrySize by decide)]
      refine ⟨none, mem', hm', .missing fun j hj => ?_, rfl⟩
      exact hpast j (Nat.lt_of_lt_of_le hj hge)

/-- **`lookup`** -/
theorem OpenDir.lookup_run (h : OpenDir s n cnt) (hm : Granted s.mem)
    (ht : DirTable s.disk n.sector t) (name : CString) (stack : Buffer) :
    ∃ r mem, Granted mem ∧ Search s.disk n.sector t name r ∧
      lookup ⟨n.addr⟩ name stack s = .ok (r, { s with mem := mem }) := by
  rw [lookup, bind_run, getInode_run h.inode, ok_bind, h.entryReads]
  exact lookupLoop_run ht name (cnt + 1) 0 stack s.mem (by omega) (Nat.zero_le cnt) hm h
    fun j hj => absurd hj (Nat.not_lt_zero j)

theorem OpenDir.freeSlotLoop_run (ht : DirTable s.disk n.sector t) :
    ∀ (fuel i : Nat) (e : Buffer) (mem : List Bool), cnt < i + fuel → i ≤ cnt → Granted mem →
      OpenDir { s with mem := mem } n cnt → (∀ j < i, t.slot j ≠ none) →
      ∃ e' j mem', Granted mem' ∧ (j < cnt ∧ t.slot j = none ∨ j = cnt ∧ ∀ l < cnt, t.slot l ≠ none) ∧
        freeSlotLoop n.addr fuel e (entrySize * i) { s with mem := mem } =
          .ok ((e', entrySize * j), { s with mem := mem' }) := by
  intro fuel
  induction fuel with
  | zero =>
    intro i e mem hfuel hi
    exact absurd hi (Nat.not_le.mpr hfuel)
  | succ fuel ih =>
    intro i e mem hfuel hi hm h hpast
    obtain ⟨mem', hm', hin, hout⟩ := h.read_run hm e i
    rcases Nat.lt_or_eq_of_le hi with hlt | rfl
    · obtain ⟨e', he', hrun⟩ := hin hlt
      rw [freeSlotLoop, bind_run, hrun, ok_bind, if_pos rfl]
      cases hs : t.slot i with
      | none =>
        rw [ht.unused hlt hs he', if_neg Bool.false_ne_true]
        exact ⟨e', i, mem', hm', .inl ⟨hlt, hs⟩, rfl⟩
      | some b =>
        rw [(ht.used hlt hs he').1, if_pos rfl]
        refine ih (i + 1) e' mem' (by omega) hlt hm' (h.setMem mem') fun j hj => ?_
        rcases Nat.lt_succ_iff_lt_or_eq.mp hj with hj | rfl
        · exact hpast j hj
        · rw [hs]
          exact Option.some_ne_none b
    · rw [freeSlotLoop, bind_run, hout (Nat.le_refl i), ok_bind,
        if_neg (show ¬ 0 = entrySize by decide)]
      exact ⟨e, i, mem', hm', .inr ⟨rfl, hpast⟩, rfl⟩

/-- The disk with the entry `e` in the slot `i`. -/
def putEntry (k : Disk) (d i : Nat) (e : Buffer) : Disk :=
  splice k (inodeAt k d).start (entrySize * i) entrySize e

theorem dirSlot_putEntry (hd : inodeAt (putEntry k d i e) d = inodeAt k d) {i' j : Nat}
    (hj : j < entrySize) : dirSlot (putEntry k d i e) d i' j = if i' = i then e j else dirSlot k d i' j := by
  unfold dirSlot
  rw [hd, putEntry, fileByte_spliced]
  unfold entrySize at *
  by_cases hi : i' = i
  · subst hi
    rw [if_pos (by omega), if_pos rfl]
    congr 1
    omega
  · rw [if_neg (by omega), if_neg hi]

/-- One slot is written. -/
theorem DirTable.update {t' : Slots Name Nat cnt} (h : DirTable k d t)
    (hd : inodeAt (putEntry k d i e) d = inodeAt k d) (hsame : ∀ j, j ≠ i → t'.slot j = t.slot j)
    (he : entryBinding e = (t'.slot i).map fun b => (b.1.val, b.2)) :
    DirTable (putEntry k d i e) d t' := fun j hj => by
  by_cases hi : j = i
  · subst hi
    rw [← he]
    exact entryBinding_congr fun l hl => (dirSlot_putEntry hd hl).trans (if_pos rfl)
  · rw [hsame j hi, ← h j hj]
    exact entryBinding_congr fun l hl => (dirSlot_putEntry hd hl).trans (if_neg hi)

/-- The name can be added. -/
def Addable (t : Slots Name Nat cnt) (name : CString) : Prop :=
  ∃ hok : nameOk name = true, t.get ⟨name, hok⟩ = none ∧ t.card < cnt

theorem Search.get {r : Option (Buffer × Nat)} (h : Search k d t name r) (hok : nameOk name = true) :
    r = none ↔ t.get ⟨name, hok⟩ = none := by
  rw [Slots.get_eq_none]
  cases h with
  | found hi hs ha he =>
    subst ha
    exact iff_of_false (Option.some_ne_none _) fun hno => hno _ hi _ hs
  | missing h =>
    exact iff_of_true rfl fun i hi v hs => h i hi _ v hs rfl

/-- **`dir_add`** -/
theorem OpenDir.add_run (h : OpenDir s n cnt) (hm : Granted s.mem) (ht : DirTable s.disk n.sector t)
    (name : CString) (z : Nat) (stack : Buffer) :
    ∃ mem, Granted mem ∧
      ((¬ Addable t name ∧ dirAdd ⟨n.addr⟩ name z stack s = .ok (false, { s with mem := mem })) ∨
        ∃ hok i e, t.get ⟨name, hok⟩ = none ∧ i < cnt ∧ t.slot i = none ∧
          dirAdd ⟨n.addr⟩ name z stack s = .ok (true,
            { s with disk := putEntry s.disk n.sector i (fillEntry e name z), mem := mem })) := by
  by_cases hok : nameOk name = true
  · obtain ⟨r, mem₁, hm₁, hfound, hlook⟩ := h.lookup_run hm ht name stack
    have hget := hfound.get hok
    simp only [dirAdd, if_pos hok, bind_run, hlook, ok_bind]
    cases r with
    | some r =>
      refine ⟨mem₁, hm₁, .inl ⟨fun hadd => ?_, rfl⟩⟩
      obtain ⟨_, hno, _⟩ := hadd
      cases hget.mpr hno
    | none =>
      have h₁ := h.setMem mem₁
      obtain ⟨e, i, mem₂, hm₂, hi, hfree⟩ := OpenDir.freeSlotLoop_run (s := s) ht (cnt + 1) 0 stack mem₁
        (by omega) (Nat.zero_le cnt) hm₁ h₁ fun j hj => absurd hj (Nat.not_lt_zero j)
      obtain ⟨mem₃, hm₃, hwrite⟩ := (h.setMem mem₂).write_run hm₂ (fillEntry e name z) i
      have hfree' : freeSlotLoop n.addr (Filesys.entryReads n) stack 0 { s with mem := mem₁ } =
          .ok ((e, entrySize * i), { s with mem := mem₂ }) := by
        rw [h.entryReads]
        exact hfree
      simp only [bind_run, getInode_run h₁.inode, ok_bind, hfree', hwrite]
      refine ⟨mem₃, hm₃, ?_⟩
      rcases hi with ⟨hi, hs⟩ | ⟨rfl, hfull⟩
      · refine .inr ⟨hok, i, e, hget.mp rfl, hi, hs, ?_⟩
        rw [if_pos hi, h.data]
        rfl
      · refine .inl ⟨fun hadd => ?_, ?_⟩
        · obtain ⟨_, _, hroom⟩ := hadd
          obtain ⟨j, hj, hs⟩ := Slots.card_lt_iff.mp hroom
          exact hfull j hj hs
        · rw [if_neg (Nat.lt_irrefl i), splice_zero]
          rfl
  · refine ⟨s.mem, hm, .inl ⟨fun hadd => hok hadd.1, ?_⟩⟩
    simp only [dirAdd, if_neg hok]
    rfl

/-! ## The names in their order -/

/-- The names in the slots from `i` on. -/
def namesFrom (t : Slots Name Nat cnt) (i : Nat) : List CString :=
  ((List.range' i (cnt - i)).filterMap t.slot).map fun b => b.1.val

theorem namesFrom_end (t : Slots Name Nat cnt) : namesFrom t cnt = [] := by
  rw [namesFrom, Nat.sub_self]
  rfl

theorem namesFrom_slot (t : Slots Name Nat cnt) (hi : i < cnt) :
    namesFrom t i = ((t.slot i).map fun b => b.1.val).toList ++ namesFrom t (i + 1) := by
  rw [namesFrom, show cnt - i = cnt - (i + 1) + 1 by omega, List.range'_succ, List.filterMap_cons]
  cases t.slot i <;> rfl

theorem namesFrom_zero (t : Slots Name Nat cnt) : namesFrom t 0 = t.keys.map Subtype.val := by
  rw [namesFrom, Nat.sub_zero, ← List.range_eq_range', Slots.keys, List.map_map]
  rfl

/-- What `dir_readdir` gets to from the slot `i`: an entry and the slot after it, or the end. -/
inductive Next (t : Slots Name Nat cnt) (i : Nat) : Option Buffer → Nat → Prop where
  | entry {e : Buffer} {a : Name} {j : Nat} (he : nameOf e = a.val) (hj : j ≤ cnt) (hij : i < j)
      (h : namesFrom t i = a.val :: namesFrom t j) : Next t i (some e) j
  | done (h : namesFrom t i = []) : Next t i none cnt

theorem OpenDir.readdirLoop_run (ht : DirTable s.disk n.sector t) :
    ∀ (fuel i : Nat) (e : Buffer) (mem : List Bool), cnt < i + fuel → i ≤ cnt → Granted mem →
      OpenDir { s with mem := mem } n cnt →
      ∃ r j mem', Granted mem' ∧ Next t i r j ∧
        readdirLoop n.addr fuel e (entrySize * i) { s with mem := mem } =
          .ok ((r, entrySize * j), { s with mem := mem' }) := by
  intro fuel
  induction fuel with
  | zero =>
    intro i e mem hfuel hi
    exact absurd hi (Nat.not_le.mpr hfuel)
  | succ fuel ih =>
    intro i e mem hfuel hi hm h
    obtain ⟨mem', hm', hin, hout⟩ := h.read_run hm e i
    rcases Nat.lt_or_eq_of_le hi with hlt | rfl
    · obtain ⟨e', he', hrun⟩ := hin hlt
      have hnames := namesFrom_slot t hlt
      rw [readdirLoop, bind_run, hrun, ok_bind, if_pos rfl]
      cases hs : t.slot i with
      | none =>
        rw [hs] at hnames
        rw [ht.unused hlt hs he', if_neg Bool.false_ne_true]
        obtain ⟨r, j, mem₂, hm₂, hnext, hrest⟩ := ih (i + 1) e' mem' (by omega) hlt hm' (h.setMem mem')
        refine ⟨r, j, mem₂, hm₂, ?_, hrest⟩
        cases hnext with
        | entry he hj hij h => exact .entry he hj (Nat.lt_of_succ_lt hij) (hnames.trans h)
        | done h => exact .done (hnames.trans h)
      | some b =>
        obtain ⟨a, x⟩ := b
        obtain ⟨hu, hname, -⟩ := ht.used hlt hs he'
        rw [hs] at hnames
        rw [hu, if_pos rfl]
        exact ⟨some e', i + 1, mem', hm', .entry hname hlt (Nat.lt_succ_self i) hnames, rfl⟩
    · rw [readdirLoop, bind_run, hout (Nat.le_refl i), ok_bind,
        if_neg (show ¬ 0 = entrySize by decide)]
      exact ⟨none, i, mem', hm', .done (namesFrom_end t), rfl⟩

/-- **`dir_readdir`** -/
theorem OpenDir.readdir_run (h : OpenDir s n cnt) (hm : Granted s.mem) (ht : DirTable s.disk n.sector t)
    (hi : i ≤ cnt) (name stack : Buffer) :
    ∃ r j mem, Granted mem ∧ Next t i r j ∧
      dirReaddir ⟨n.addr⟩ (entrySize * i) name stack s = .ok ((match r with
        | some e => (true, strlcpy name 0 (nameOf e) (nameMax + 1))
        | none => (false, name), entrySize * j), { s with mem := mem }) := by
  obtain ⟨r, j, mem, hm', hnext, hrun⟩ := OpenDir.readdirLoop_run (s := s) ht (cnt + 1) i stack s.mem
    (by omega) hi hm h
  refine ⟨r, j, mem, hm', hnext, ?_⟩
  have hrun' : readdirLoop n.addr (Filesys.entryReads n) stack (entrySize * i) s =
      .ok ((r, entrySize * j), { s with mem := mem }) := by
    rw [h.entryReads]
    exact hrun
  simp only [dirReaddir, bind_run, getInode_run h.inode, ok_bind, hrun']
  cases r <;> rfl

/-- The string copied is the one in the buffer. -/
theorem stringIn_strlcpy (b : Buffer) (hlen : strlen name ≤ nameMax) :
    stringIn (strlcpy b 0 name (nameMax + 1)) (nameMax + 1) = name := by
  have hmin : min (strlen name) (nameMax + 1 - 1) = strlen name := Nat.min_eq_left hlen
  refine stringIn_eq (Nat.lt_succ_of_le hlen) (strEq_iff.mpr ⟨fun i hi => ?_, ?_⟩)
  · unfold strlcpy
    rw [hmin, memcpy_out (by omega), memcpy_in (Nat.zero_le i) (by omega), Nat.zero_add, Nat.sub_zero]
  · unfold strlcpy
    rw [hmin, memcpy_in (by omega) (by omega)]
    rfl

/-- **All names** that `dir_readdir` gives from the slot `i` on. -/
theorem OpenDir.readdirFrom_run (ht : DirTable s.disk n.sector t) (stack : Buffer) :
    ∀ (fuel i : Nat) (name : Buffer) (mem : List Bool), cnt < i + fuel → i ≤ cnt → Granted mem →
      OpenDir { s with mem := mem } n cnt →
      ∃ mem', Granted mem' ∧ readdirFrom ⟨n.addr⟩ stack fuel name (entrySize * i) { s with mem := mem } =
        .ok (some (namesFrom t i), { s with mem := mem' }) := by
  intro fuel
  induction fuel with
  | zero =>
    intro i name mem hfuel hi
    exact absurd hi (Nat.not_le.mpr hfuel)
  | succ fuel ih =>
    intro i name mem hfuel hi hm h
    obtain ⟨r, j, mem', hm', hnext, hrun⟩ := h.readdir_run hm ht hi name stack
    rw [readdirFrom, bind_run, hrun, ok_bind]
    cases hnext with
    | @entry e a j he hj hij hnames =>
      have hcopy : stringIn (strlcpy name 0 (nameOf e) (nameMax + 1)) (nameMax + 1) = a.val := by
        rw [he]
        exact stringIn_strlcpy name (strlen_le a.2)
      obtain ⟨mem₂, hm₂, hrest⟩ := ih j (strlcpy name 0 (nameOf e) (nameMax + 1)) mem' (by omega) hj hm'
        (h.setMem mem')
      refine ⟨mem₂, hm₂, ?_⟩
      simp only [if_true, bind_run, hrest, ok_bind, pure_run, Option.map_some, hcopy, hnames]
    | done hnames =>
      rw [hnames]
      exact ⟨mem', hm', rfl⟩

end

end Pintos.Filesys
