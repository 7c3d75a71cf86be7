import Mathlib.Data.List.GetD
import Mathlib.Data.Nat.Find
import Pintos.Filesys.ChunkedIo
import Pintos.Filesys.CreateSize

/-!
# A new file is fresh

The file `filesys_create` makes is one of zeros, and the other files stay as they are. `dir_add`
takes a short read for the end of the directory, which its comment excludes. Without memory for
the bounce buffer of a read it is not: the call can then miss the entry another file has under
the same name, or write over the entry of another file.
-/

namespace Pintos.Filesys

open Pintos.Base Pintos.Kernel

/-! ## Where a search ends -/

theorem headD_eq_getD (mem : List Bool) : mem.headD true = mem.getD 0 true := by
  cases mem <;> rfl

theorem getD_tail (mem : List Bool) (j : Nat) : mem.tail.getD j true = mem.getD (j + 1) true := by
  cases mem <;> rfl

theorem mem_of_getD_false {mem : List Bool} {j : Nat} (h : mem.getD j true = false) :
    false ∈ mem := by
  by_cases hj : j < mem.length
  · rw [List.getD_eq_getElem _ _ hj] at h
    exact h ▸ List.getElem_mem hj
  · rw [List.getD_eq_default _ _ (Nat.le_of_not_lt hj)] at h
    cases h

/-- A search from the slot `i` that ends at `e`: it gets the memory to read the slots before,
which do not fit, and gives up at a slot only for want of memory. -/
structure SearchEnd (fits : Nat → Bool) (i : Nat) (mem : List Bool) (found : Bool) (e : Nat) :
    Prop where
  le : i ≤ e
  passed : ∀ j, i ≤ j → j < e → fits j = false ∧ mem.getD (j - i) true = true
  short : found = false → e < rootEntries → mem.getD (e - i) true = false

theorem scanSlots_end {fits : Nat → Bool} : ∀ {fuel i : Nat} {mem : List Bool},
    rootEntries < i + fuel → SearchEnd fits i mem (scanSlots fits fuel i mem).1.1
      (scanSlots fits fuel i mem).1.2 := by
  intro fuel
  induction fuel with
  | zero =>
    intro i mem hfuel
    refine ⟨Nat.le_refl i, fun j h1 h2 => ?_, fun _ h => ?_⟩
    · exact absurd h2 (Nat.not_lt.mpr h1)
    · simp only [scanSlots] at h
      omega
  | succ fuel ih =>
    intro i mem hfuel
    have hstop : ∀ found, (found = false → i < rootEntries → mem.headD true = false) →
        SearchEnd fits i mem found i := fun found hm => by
      refine ⟨Nat.le_refl i, fun j h1 h2 => absurd h2 (Nat.not_lt.mpr h1), fun hf hi => ?_⟩
      rw [Nat.sub_self, ← headD_eq_getD]
      exact hm hf hi
    unfold scanSlots
    by_cases hi : i < rootEntries
    · rw [if_pos hi]
      by_cases hm : mem.headD true = true
      · rw [if_pos hm]
        by_cases hf : fits i = true
        · rw [if_pos hf]
          exact hstop true fun h => by cases h
        · rw [if_neg hf]
          have hrest := @ih (i + 1) mem.tail (by omega)
          refine ⟨Nat.le_of_succ_le hrest.le, fun j h1 h2 => ?_, fun h1 h2 => ?_⟩
          · rcases Nat.eq_or_lt_of_le h1 with rfl | hlt
            · rw [Nat.sub_self, ← headD_eq_getD]
              exact ⟨by simpa using hf, hm⟩
            · obtain ⟨h3, h4⟩ := hrest.passed j hlt h2
              rw [getD_tail, show j - (i + 1) + 1 = j - i by omega] at h4
              exact ⟨h3, h4⟩
          · have h3 := hrest.short h1 h2
            have hle := hrest.le
            rwa [getD_tail, Nat.sub_succ', Nat.sub_add_cancel (Nat.sub_pos_of_lt hle)] at h3
      · rw [if_neg hm]
        exact hstop false fun _ _ => by simpa using hm
    · rw [if_neg hi]
      exact hstop false fun _ h => absurd h hi

/-! ## Names -/

/-- The slot `i` is in use under `name`. -/
def slotNamed (k : Disk) (name : CString) (i : Nat) : Bool :=
  entryInUse (slot k i) && strEq name (entryName (slot k i))

theorem strEq_congr {name : CString} {b b' : Buffer} (h : ∀ j ≤ strlen name, b j = b' j) :
    strEq name b = strEq name b' := by
  unfold strEq
  rw [h _ (Nat.le_refl _)]
  congr 1
  rw [Bool.eq_iff_iff, List.all_eq_true, List.all_eq_true]
  refine forall₂_congr fun j hj => ?_
  rw [h j (Nat.le_of_lt (List.mem_range.mp hj))]

theorem strlen_le {name : CString} (hok : nameOk name = true) : strlen name ≤ 14 := by
  simp only [nameOk, Bool.and_eq_true, decide_eq_true_eq] at hok
  exact hok.2

/-- The comparison with a valid name reads the bytes of the entry only. -/
theorem named_congr {name : CString} (hok : nameOk name = true) {e e' : Buffer}
    (h : ∀ j < entrySize, e' j = e j) :
    (entryInUse e' && strEq name (entryName e')) = (entryInUse e && strEq name (entryName e)) := by
  have hname : ∀ j ≤ strlen name, entryName e' j = entryName e j := fun j hj => by
    have hlen := strlen_le hok
    exact h (4 + j) (by unfold entrySize; omega)
  rw [entryInUse_congr h, strEq_congr hname]

theorem holdsName_eq {name : CString} (hok : nameOk name = true) (k : Disk) (stack : Buffer)
    (i : Nat) : holdsName k stack name i = slotNamed k name i :=
  named_congr hok fun _ hj => entryBuf_slot hj

/-- The entry `dir_add` writes carries the name. -/
theorem fillEntry_name {name : CString} (hok : nameOk name = true) (e : Buffer) (z : Nat) :
    strEq name (entryName (fillEntry e name z)) = true := by
  have hlen := strlen_le hok
  have hmin : min (strlen name) (nameMax + 1 - 1) = strlen name := Nat.min_eq_left hlen
  have hnul : name.chars.getD (strlen name) 0 = 0 := List.getD_eq_default _ _ (Nat.le_refl _)
  have hbyte : ∀ j ≤ strlen name, entryName (fillEntry e name z) j = name.chars.getD j 0 := by
    intro j hj
    unfold entryName bufferAt fillEntry store32 strlcpy
    rw [memcpy_out (by omega), hmin]
    rcases Nat.eq_or_lt_of_le hj with rfl | hlt
    · rw [memcpy_in (Nat.le_refl _) (Nat.lt_succ_self _), hnul]
      rfl
    · rw [memcpy_out (by omega), memcpy_in (Nat.le_add_right 4 j) (by omega), Nat.zero_add,
        Nat.add_sub_cancel_left]
  unfold strEq
  rw [Bool.and_eq_true, List.all_eq_true, hbyte _ (Nat.le_refl _),
    hnul]
  refine ⟨fun j hj => ?_, rfl⟩
  rw [hbyte j (Nat.le_of_lt (List.mem_range.mp hj))]
  exact beq_self_eq_true _

/-- The slot `i` is the first in use under the name. -/
structure FirstNamed (k : Disk) (name : CString) (i : Nat) : Prop where
  lt : i < rootEntries
  named : slotNamed k name i = true
  first : ∀ j < i, slotNamed k name j = false

theorem exists_firstNamed {k : Disk} {name : CString} {l : Nat} (hl : l < rootEntries)
    (h : slotNamed k name l = true) : ∃ i ≤ l, FirstNamed k name i := by
  have hex : ∃ j, slotNamed k name j = true := ⟨l, h⟩
  have hle : Nat.find hex ≤ l := Nat.find_min' hex h
  refine ⟨Nat.find hex, hle, Nat.lt_of_le_of_lt hle hl, Nat.find_spec hex, fun j hj => ?_⟩
  simpa using Nat.find_min hex hj

/-- `lookup` finds it unless it runs out of memory. -/
theorem FirstNamed.find {k : Disk} {name : CString} {i : Nat} (h : FirstNamed k name i)
    (hok : nameOk name = true) (stack : Buffer) (mem : List Bool) :
    ((findSlot k stack name mem).1.1 = true ∧ (findSlot k stack name mem).1.2 = i) ∨
      ((findSlot k stack name mem).1.1 = false ∧ false ∈ mem) := by
  have hend : SearchEnd (holdsName k stack name) 0 mem (findSlot k stack name mem).1.1
      (findSlot k stack name mem).1.2 := scanSlots_end (Nat.lt_succ_self _)
  have hle : (findSlot k stack name mem).1.2 ≤ i := by
    by_contra hlt
    have := (hend.passed i (Nat.zero_le i) (Nat.lt_of_not_le hlt)).1
    rw [holdsName_eq hok, h.named] at this
    cases this
  cases hf : (findSlot k stack name mem).1.1 with
  | true =>
    refine .inl ⟨rfl, Nat.le_antisymm hle (Nat.le_of_not_lt fun hlt => ?_)⟩
    have hfit : holdsName k stack name (findSlot k stack name mem).1.2 = true :=
      (scanSlots_found hf).2
    rw [holdsName_eq hok, h.first _ hlt] at hfit
    cases hfit
  | false => exact .inr ⟨rfl, mem_of_getD_false (hend.short hf (Nat.lt_of_le_of_lt hle h.lt))⟩

section

variable {s s' : Fs} {refs : Ptr → Nat} {name : CString} {stack : Buffer} {size : Int}
  {x y i : Nat} {e : Buffer} {mem : List Bool}

/-- `f` is open on the inode in the sector `x`. -/
def FileOn (s : Fs) (f : Ptr) (x : Nat) : Prop :=
  ∃ file ∈ s.files, file.addr = f ∧ ∃ n ∈ s.openInodes, n.addr = file.inode ∧ n.sector = x

/-- **`filesys_open`** opens the first file under the name unless it runs out of memory. -/
theorem Ready.open_first (h : Ready s) (hok : nameOk name = true) (hi : FirstNamed s.disk name i)
    (stack : Buffer) :
    ∃ r s', filesysOpen name stack s = .ok (r, s') ∧ Ready s' ∧ s'.disk = s.disk ∧
      (r = none → false ∈ s.mem) ∧ ∀ f, r = some f → FileOn s' f (entrySector (slot s.disk i)) := by
  obtain ⟨r, s', hrun, heff, -⟩ := h.open_run name stack
  refine ⟨r, s', hrun, heff.ready, ?_⟩
  simp only [filesysOpen, bind_run] at hrun
  rcases h.openRoot with ⟨-, hopen⟩ | ⟨hg, next, -, hopen⟩
  · obtain ⟨o, s1, s2, hlook, hclose, hout⟩ := h.lookup_run name stack
    rw [hopen, ok_bind] at hrun
    simp only [bind_run, hlook, ok_bind, hclose, fileOpen, malloc_run] at hrun
    have htail : s.mem.tail.tail <:+ s.mem := (List.tail_suffix _).trans (List.tail_suffix _)
    cases o with
    | none =>
      obtain ⟨mem, rfl, hfound⟩ := hout
      cases hrun
      refine ⟨rfl, fun _ => ?_, fun f hf => by cases hf⟩
      rcases hi.find hok stack s.mem.tail.tail with hf | ⟨-, hno⟩
      · exact hfound hf.1
      · exact htail.mem hno
    | some p =>
      obtain ⟨x, m, rfl, hx, ho, hfound, hsec, hmem⟩ := hout
      obtain ⟨-, rfl⟩ := (hi.find hok stack s.mem.tail.tail).resolve_right fun hno => by
        cases hno.1.symm.trans hfound
      cases hm : s2.mem.headD true with
      | false =>
        obtain ⟨s3, hclose, -, -, hdisk, -⟩ := ho.close h.inv (.inr (.inr hx)) s2.mem.tail
        rw [hm] at hrun
        simp only [bind_run, hclose, ok_bind] at hrun
        cases hrun
        exact ⟨hdisk, fun _ => hmem.mem (mem_of_headD hm), fun f hf => by cases hf⟩
      | true =>
        rw [hm] at hrun
        cases hrun
        refine ⟨ho.disk, fun hno => (by cases hno), fun f hf => ?_⟩
        obtain rfl := Option.some.inj hf
        exact ⟨_, List.mem_cons_self, rfl, m, ho.mem, rfl, ho.sector.trans hsec⟩
  · rw [hopen] at hrun
    cases hrun
    refine ⟨rfl, fun _ => ?_, fun f hf => by cases hf⟩
    rcases Bool.and_eq_false_iff.mp hg with hm | hm
    · exact mem_of_headD hm
    · exact (List.tail_suffix s.mem).mem (mem_of_headD hm)

/-! ## The file made -/

theorem CreateDone.slot_eq (hd : CreateDone s s' name size stack x y i e mem) (h : Ready s)
    {i' j : Nat} (hi' : i' < rootEntries) (hj : j < entrySize) :
    Filesys.slot s'.disk i' j =
      if i' = i then fillEntry e name x j else Filesys.slot s.disk i' j := by
  have hmeta := h.withRoot.inv.fixed_meta hd.made.pending.fixed
  have hslot := hd.made.pending.inv.layout.writeSlot_slot (e := fillEntry e name x)
    (addSlot_lt hd.slot) hi' hj
  rw [hmeta.slots i' hi' j hj] at hslot
  rw [hd.state]
  exact hslot

theorem CreateDone.inode (hd : CreateDone s s' name size stack x y i e mem) :
    inodeAt s'.disk x = { start := y, length := size, magic := inodeMagic } := by
  rw [hd.state, ← hd.made.inode, inodeAt, inodeAt]
  show decodeInode (writeSlot _ i _ x) = _
  rw [writeSlot_of_ne (addSlot_lt hd.slot) hd.made.pending.ne_root]

theorem CreateDone.not_live (hd : CreateDone s s' name size stack x y i e mem) (h : Ready s) :
    ¬ Live s.disk (Opened s.openInodes) x := fun hx => by
  have hmark := h.inv.layout.owns.marked x x hx (.inl rfl)
  cases hmark.symm.trans hd.made.pending.free

/-- The sector of the root directory is the only one the entry is written to. -/
theorem CreateDone.disk_eq (hd : CreateDone s s' name size stack x y i e mem) (h : Ready s)
    {t : Nat} (ht : t ≠ (inodeAt s.disk rootDirSector).start) :
    s'.disk t = (madeState (Filesys.withRoot s) x y size).disk t := by
  have hroot := (h.withRoot.inv.fixed_meta hd.made.pending.fixed).inode _ live_root
  rw [hd.state]
  apply writeSlot_of_ne (addSlot_lt hd.slot)
  rw [hroot]
  exact ht

theorem CreateDone.kept (hd : CreateDone s s' name size stack x y i e mem) (h : Ready s)
    {z : Nat} (hz : Live s.disk (Opened s.openInodes) z)
    (hmap : z ≠ freeMapSector) (hroot : z ≠ rootDirSector) :
    inodeAt s'.disk z = inodeAt s.disk z ∧ ∀ pos : Nat, (pos : Int) < (inodeAt s.disk z).length →
      fileByte s'.disk (inodeAt s.disk z).start pos = fileByte s.disk (inodeAt s.disk z).start pos := by
  have hfixed : Fixed s (madeState (Filesys.withRoot s) x y size) := hd.made.pending.fixed
  obtain ⟨hino, hbytes⟩ := h.fixed_files hfixed hz hmap
  refine ⟨?_, fun pos hpos => ?_⟩
  · have hne : z ≠ (inodeAt s.disk rootDirSector).start := fun he =>
      h.inv.layout.not_data hz live_root (he ▸ h.inv.layout.rootData)
    rw [← hino, inodeAt, hd.disk_eq h hne]
    rfl
  · have hdata := h.inv.layout.dataSector hz hpos
    have hne : (inodeAt s.disk z).start + pos / 512 ≠ (inodeAt s.disk rootDirSector).start :=
      fun he => hroot (h.inv.layout.owns.disjoint z _ _ hz live_root (.inr hdata)
        (.inr (he ▸ h.inv.layout.rootData)))
    rw [← hbytes pos hpos, fileByte, hd.disk_eq h hne]
    rfl

/-- Every byte of the file is zero, whatever was in the sector. -/
theorem CreateDone.zero (hd : CreateDone s s' name size stack x y i e mem) (h : Ready s)
    (h0 : 0 ≤ size) (h1 : size < 2 ^ 31) {pos : Nat} (hpos : (pos : Int) < size) :
    fileByte s'.disk y pos = 0 := by
  have hlen := le_bytesToSectors h0 h1
  unfold sectorSize at hlen
  have hin : y ≤ y + pos / 512 ∧ y + pos / 512 < y + bytesToSectors size := by omega
  have hfree := hd.made.data_free _ hin.1 hin.2
  have hne : y + pos / 512 ≠ (inodeAt s.disk rootDirSector).start := fun he => by
    have hmark := h.inv.layout.owns.marked _ _ live_root (.inr h.inv.layout.rootData)
    rw [← he] at hmark
    cases hmark.symm.trans hfree
  rw [fileByte, hd.disk_eq h hne]
  have hi : pos % 512 < sectorSize := Nat.mod_lt pos (by decide)
  exact if_pos ⟨hin.1, hin.2, hi⟩

end

/-! ## The claim -/

/-- `f` is a handle on a file that was not there in `s`, of `size` bytes that read as zeros. -/
def OpensFresh (s s' : Fs) (f : Ptr) (size : Int) : Prop :=
  ∃ x, FileOn s' f x ∧ ¬ Live s.disk (Opened s.openInodes) x ∧ ∀ n ∈ s'.openInodes, n.sector = x →
    n.data.length = size ∧ ∀ (buffer : Buffer) (len : Int) (ofs : Nat) (mem : List Bool),
      (∀ b ∈ mem, b = true) → ∃ (cnt : Nat) (out : Buffer) (s'' : Fs),
        inodeReadAt n.addr buffer len ofs { s' with mem := mem } = .ok ((cnt, out), s'') ∧
        (cnt : Int) = max 0 (min len (size - ofs)) ∧ ∀ j < cnt, out j = 0

/-- The entries of the root directory, the files and the handles of `s` are as they were, and
what is new in the directory is for a file that was not there. -/
structure OthersKept (s s' : Fs) : Prop where
  entries : ∀ i < rootEntries, entryInUse (slot s.disk i) = true → ∀ j < entrySize,
    slot s'.disk i j = slot s.disk i j
  added : ∀ i < rootEntries, entryInUse (slot s'.disk i) = true →
    (∀ j < entrySize, slot s'.disk i j = slot s.disk i j) ∨
      ¬ Live s.disk (Opened s.openInodes) (entrySector (slot s'.disk i))
  files : ∀ z, Live s.disk (Opened s.openInodes) z → z ≠ freeMapSector → z ≠ rootDirSector →
    inodeAt s'.disk z = inodeAt s.disk z ∧ ∀ pos : Nat, (pos : Int) < (inodeAt s.disk z).length →
      fileByte s'.disk (inodeAt s.disk z).start pos = fileByte s.disk (inodeAt s.disk z).start pos
  openInodes : s'.openInodes = s.openInodes
  handles : s'.files = s.files

/-- The state `s'` after a file was made under the name: with memory for it, a call that opens
the name gets a file that is fresh. -/
structure FreshFile (s s' : Fs) (name : CString) (size : Int) : Prop where
  opens : ∀ (mem : List Bool) (stack : Buffer), ∃ r s'',
    filesysOpen name stack { s' with mem := mem } = .ok (r, s'') ∧ s''.disk = s'.disk ∧
      (r = none → false ∈ mem) ∧ ∀ f, r = some f → OpensFresh s s'' f size
  others : OthersKept s s'

/-- The slot `i` is one of those in use that the root directory begins with. -/
def Leading (k : Disk) (i : Nat) : Prop :=
  i < rootEntries ∧ ∀ j ≤ i, entryInUse (slot k j) = true

/-- No entry before the first free slot has the name, and the search of `dir_add` for that slot
gets the memory to read them. -/
def FindsSlot (s : Fs) (mem : List Bool) (name : CString) (stack : Buffer) : Prop :=
  ∀ i, Leading s.disk i → slotNamed s.disk name i = false ∧
    (findSlot s.disk stack name (mem.drop (requests s.capacity))).2.getD i true = true

section

variable {s s' : Fs} {name : CString} {stack : Buffer} {size : Int} {x y i : Nat} {e : Buffer}
  {mem : List Bool}

/-- The answers `dir_add` starts with. -/
theorem CreateDone.made_mem (hd : CreateDone s s' name size stack x y i e mem) (h : Ready s) :
    (madeState (Filesys.withRoot s) x y size).mem = s.mem.drop (requests s.capacity) :=
  (h.withRoot.inv.made_mem hd.taken y).trans (granted_requests s.capacity s.mem).2.symm

/-- The search of `dir_add` for a slot, by the state before the call. -/
theorem CreateDone.search (hd : CreateDone s s' name size stack x y i e mem) (h : Ready s) :
    nameOk name = true ∧ i < rootEntries ∧ ∃ found,
      SearchEnd (fun i => !entryInUse (Filesys.slot s.disk i)) 0
        (findSlot s.disk stack name (s.mem.drop (requests s.capacity))).2 found i ∧
      (found = true → entryInUse (Filesys.slot s.disk i) = false) := by
  have hslot := hd.slot
  rw [hd.made_mem h] at hslot
  obtain ⟨hok, -, hi, hfree⟩ := addSlot_eq_some hslot
  have hfits : (fun i => !entryInUse (entryBuf s.disk stack i)) =
      fun i => !entryInUse (Filesys.slot s.disk i) :=
    funext fun i => congrArg _ (entryInUse_congr fun j hj => entryBuf_slot hj)
  rw [findFree, hfits] at hfree
  refine ⟨hok, hi, _, hfree ▸ scanSlots_end (Nat.lt_succ_self _), fun hf => ?_⟩
  have := (scanSlots_found hf).2
  rw [hfree] at this
  simpa using this

theorem CreateDone.named (hd : CreateDone s s' name size stack x y i e mem) (h : Ready s) :
    slotNamed s'.disk name i = true ∧ entrySector (Filesys.slot s'.disk i) = x := by
  obtain ⟨hok, hi, -⟩ := hd.search h
  have hs : ∀ j < entrySize, Filesys.slot s'.disk i j = fillEntry e name x j := fun j hj => by
    rw [hd.slot_eq h hi hj, if_pos rfl]
  refine ⟨?_, (entrySector_congr hs).trans (fillEntry_sector e name hd.made.lt)⟩
  rw [slotNamed, named_congr hok hs, fillEntry_inUse, fillEntry_name hok]
  rfl

theorem CreateDone.old (hd : CreateDone s s' name size stack x y i e mem) (h : Ready s) {j : Nat}
    (hj : j < rootEntries) (hne : j ≠ i) :
    ∀ b < entrySize, Filesys.slot s'.disk j b = Filesys.slot s.disk j b := fun b hb => by
  rw [hd.slot_eq h hj hb, if_neg hne]

/-- The slot written was free exactly if no entry of another file is lost. -/
theorem CreateDone.others_iff (hd : CreateDone s s' name size stack x y i e mem) (h : Ready s) :
    OthersKept s s' ↔ entryInUse (Filesys.slot s.disk i) = false := by
  obtain ⟨hok, hi, -⟩ := hd.search h
  constructor
  · intro hkept
    by_contra hu
    have hu : entryInUse (Filesys.slot s.disk i) = true := by simpa using hu
    have hsec := entrySector_congr (hkept.entries i hi hu)
    rw [(hd.named h).2] at hsec
    exact hd.not_live h (.inr (.inr (.inl ⟨i, hi, hu, hsec.symm⟩)))
  · intro hfree
    refine ⟨fun j hj hu => hd.old h hj fun he => ?_, fun j hj _ => ?_, fun z => hd.kept h,
      by rw [hd.state]; rfl, by rw [hd.state]; rfl⟩
    · rw [he, hfree] at hu
      cases hu
    · by_cases he : j = i
      · rw [he, (hd.named h).2]
        exact .inr (hd.not_live h)
      · exact .inl (hd.old h hj he)

theorem FileOn.unique (h : Ready s) {f : Ptr} {x y : Nat} (hx : FileOn s f x) (hy : FileOn s f y) :
    x = y := by
  obtain ⟨g, hg, rfl, n, hn, hgn, rfl⟩ := hx
  obtain ⟨g', hg', he, n', hn', hgn', rfl⟩ := hy
  obtain rfl : g = g' := by
    have h1 := h.inv.file? hg
    rw [← he, h.inv.file? hg'] at h1
    exact (Option.some.inj h1).symm
  rw [h.inv.inode_ext hn hn' (hgn.trans hgn'.symm)]

/-- A handle on the file that was made. -/
theorem CreateDone.opensFresh (hd : CreateDone s s' name size stack x y i e mem) (h : Ready s)
    (h0 : 0 ≤ size) (h1 : size < 2 ^ 31) {s'' : Fs} (h'' : Ready s'') (hdisk : s''.disk = s'.disk)
    {f : Ptr} (hf : FileOn s'' f x) : OpensFresh s s'' f size := by
  refine ⟨x, hf, hd.not_live h, fun n hn hx => ?_⟩
  have hdata : n.data = { start := y, length := size, magic := inodeMagic } := by
    rw [h''.inv.data n hn, hx, hdisk, hd.inode]
  refine ⟨by rw [hdata], fun buffer len ofs mem hmem => ?_⟩
  have hinv := h''.inv.setMem mem
  refine ⟨_, _, _, readAt_run (hinv.inode? hn) (hinv.onDisk hn) buffer, ?_, fun j hj => ?_⟩
  · rw [transfer_of_granted hmem, ioLen_eq, hdata]
  · rw [transfer_of_granted hmem] at hj
    have hlt : ((ofs + j : Nat) : Int) < size := by
      have hlen := @ioLen_eq n.data len ofs
      rw [show n.data.length = size by rw [hdata]] at hlen
      omega
    rw [transfer_of_granted hmem, memcpy_in (Nat.zero_le j) (by omega), hdata, hdisk, Nat.sub_zero]
    exact hd.zero h h0 h1 hlt

theorem CreateDone.fresh_iff (hd : CreateDone s s' name size stack x y i e mem) (h : Ready s)
    (h0 : 0 ≤ size) (h1 : size < 2 ^ 31) (h' : Ready s') :
    FreshFile s s' name size ↔ FindsSlot s s.mem name stack := by
  obtain ⟨hok, hi, found, hend, hfound⟩ := hd.search h
  obtain ⟨hnamed, hsec⟩ := hd.named h
  have hpassed : ∀ j < i, entryInUse (Filesys.slot s.disk j) = true := fun j hj => by
    simpa using (hend.passed j (Nat.zero_le j) hj).1
  have hold : ∀ j < rootEntries, j ≠ i → slotNamed s'.disk name j = slotNamed s.disk name j :=
    fun j hj hne => named_congr hok (hd.old h hj hne)
  constructor
  · intro hfresh l hl
    have hfree := (hd.others_iff h).mp hfresh.others
    have hlt : l < i := by
      by_contra hle
      rw [hl.2 i (Nat.le_of_not_lt hle)] at hfree
      cases hfree
    refine ⟨?_, (hend.passed l (Nat.zero_le l) hlt).2⟩
    by_contra hln
    have hln' : slotNamed s'.disk name l = true := by
      rw [hold l hl.1 (Nat.ne_of_lt hlt)]
      simpa using hln
    obtain ⟨m, hle, hfirst⟩ := exists_firstNamed hl.1 hln'
    have hm : m < i := Nat.lt_of_le_of_lt hle hlt
    -- With memory the call opens the older file.
    obtain ⟨r, s'', hrun, h'', hdisk, hnone, hsome⟩ :=
      (h'.setMem []).open_first hok (by exact hfirst) stack
    obtain ⟨r', s3, hrun', -, -, hopens⟩ := hfresh.opens [] stack
    cases hrun.symm.trans hrun'
    cases r with
    | none => cases hnone rfl
    | some f =>
      obtain ⟨z, hz, hnew, -⟩ := hopens f rfl
      have hbytes := hd.old h hfirst.lt (Nat.ne_of_lt hm)
      have hzs := FileOn.unique h'' hz (hsome f rfl)
      have hsector := (entrySector_congr hbytes).symm.trans hzs.symm
      exact hnew (.inr (.inr (.inl ⟨m, hfirst.lt, hpassed m hm, hsector⟩)))
  · intro hcond
    have hfree : entryInUse (Filesys.slot s.disk i) = false := by
      cases hf : found with
      | true => exact hfound hf
      | false =>
        by_contra hu
        have hlead : Leading s.disk i := ⟨hi, fun j hj => by
          rcases Nat.eq_or_lt_of_le hj with rfl | hlt
          · simpa using hu
          · exact hpassed j hlt⟩
        cases (hcond i hlead).2.symm.trans (hend.short hf hi)
    have hfirst : FirstNamed s'.disk name i := ⟨hi, hnamed, fun j hj => by
      have hlt := Nat.lt_trans hj hi
      rw [hold j hlt (Nat.ne_of_lt hj)]
      exact (hcond j ⟨hlt, fun b hb => hpassed b (Nat.lt_of_le_of_lt hb hj)⟩).1⟩
    refine ⟨fun mem stack => ?_, (hd.others_iff h).mpr hfree⟩
    obtain ⟨r, s'', hrun, h'', hdisk, hnone, hsome⟩ :=
      (h'.setMem mem).open_first hok (by exact hfirst) stack
    refine ⟨r, s'', hrun, hdisk, hnone, fun f hf => hd.opensFresh h h0 h1 h'' hdisk ?_⟩
    rw [← hsec]
    exact hsome f hf

theorem Ready.create_nonneg (h : Ready s)
    (hcreate : filesysCreate name size stack s = .ok (true, s')) : 0 ≤ size := by
  by_contra hneg
  rcases h.create_negative (Int.not_le.mp hneg) name stack with ⟨-, hrun⟩ | ⟨-, s1, hrun, -⟩
  · cases hcreate.symm.trans hrun
  · cases hcreate.symm.trans hrun

theorem freshFile_setMem :
    FreshFile { s with mem := mem } s' name size ↔ FreshFile s s' name size :=
  ⟨fun h => ⟨h.opens, ⟨h.others.entries, h.others.added, h.others.files, h.others.openInodes,
      h.others.handles⟩⟩,
    fun h => ⟨h.opens, ⟨h.others.entries, h.others.added, h.others.files, h.others.openInodes,
      h.others.handles⟩⟩⟩

/-- A call that returns true makes a fresh file exactly if `dir_add` comes to the free slot. -/
theorem Ready.fresh_iff (hs : Ready s) (h1 : size < 2 ^ 31)
    (hcreate : filesysCreate name size stack { s with mem := mem } = .ok (true, s')) :
    FreshFile s s' name size ↔ FindsSlot s mem name stack := by
  have h := hs.setMem mem
  have h0 := h.create_nonneg hcreate
  obtain ⟨ok, s1, hrun, heff, -⟩ := h.create_run h0 h1 name stack
  cases hcreate.symm.trans hrun
  obtain ⟨x, y, i, e, mem', hd⟩ := h.create_true h0 h1 hcreate
  exact freshFile_setMem.symm.trans (hd.fresh_iff h h0 h1 heff.ready)

/-- With memory for every request the call comes to the free slot. -/
theorem Ready.created_fresh (hs : Ready s) (h1 : size < 2 ^ 31) (hmem : ∀ b ∈ mem, b = true)
    (hcreate : filesysCreate name size stack { s with mem := mem } = .ok (true, s')) :
    FreshFile s s' name size := by
  refine (hs.fresh_iff h1 hcreate).mpr fun i hi => ?_
  have h := hs.setMem mem
  obtain ⟨x, y, l, e, mem', hd⟩ := h.create_true (h.create_nonneg hcreate) h1 hcreate
  have hadd := hd.slot
  rw [hd.made_mem h] at hadd
  obtain ⟨hok, hno, -⟩ := addSlot_eq_some hadd
  have hall : ∀ b ∈ mem.drop (requests s.capacity), b = true := fun b hb =>
    hmem b (List.mem_of_mem_drop hb)
  have hend := @scanSlots_end (holdsName s.disk stack name) (rootEntries + 1) 0
    (mem.drop (requests s.capacity)) (Nat.lt_succ_self _)
  constructor
  · rw [← holdsName_eq hok s.disk stack]
    have hle : rootEntries ≤ (findSlot s.disk stack name (mem.drop (requests s.capacity))).1.2 := by
      by_contra hlt
      cases hall _ (mem_of_getD_false (hend.short hno (Nat.lt_of_not_le hlt)))
    exact (hend.passed i (Nat.zero_le i) (Nat.lt_of_lt_of_le hi.1 hle)).1
  · by_contra hf
    have hleft : false ∈ (findSlot s.disk stack name (mem.drop (requests s.capacity))).2 :=
      mem_of_getD_false (by simpa using hf)
    cases hall _ (scanSlots_suffix.mem hleft)

end

/-- **A new file is fresh**: in every reachable state, for every name and size and whatever the
answers of the allocator, when `filesys_create` returns true the file opened under the name is new,
of that size and reads as zeros, and all others are as they were, exactly if `dir_add` gets the
memory to come to the first free slot and no entry before it has the name. -/
theorem created_file_fresh_iff {capacity : Nat} {lba28 : capacity ≤ 2 ^ 28} {disk : Disk}
    {mem₀ : List Bool} {s₀ s s' : Fs}
    (hinit : filesysInit (bootState capacity lba28 disk mem₀) = .ok ((), s₀))
    (hrun : Reach fsStep Allowed s₀ s) (name : CString) {size : Int} (h1 : size < 2 ^ 31)
    (mem : List Bool) (stack : Buffer)
    (hcreate : filesysCreate name size stack { s with mem := mem } = .ok (true, s')) :
    FreshFile s s' name size ↔ FindsSlot s mem name stack :=
  ((filesysInit_ready hinit).reach hrun).fresh_iff h1 hcreate

/-- A file of two sectors on the small disk. -/
theorem fresh_two_sectors :
    ∃ s', filesysCreate shortName 600 zeros { smallDisk with mem := [] } = .ok (true, s') ∧
      FreshFile smallDisk s' shortName 600 := by
  have hempty : entryInUse (slot smallDisk.disk 0) = false := by decide +kernel
  have hrun : created? shortName 600 { smallDisk with mem := [] } =
      some (true, ⟨[true, true, true, true, true, true, true, false]⟩) := by decide +kernel
  obtain ⟨s', hs', -⟩ := created?_eq_some hrun
  refine ⟨s', hs', (created_file_fresh_iff smallDisk_init .refl shortName (by decide) [] zeros
    hs').mpr fun i hi => ?_⟩
  cases hempty.symm.trans (hi.2 0 (Nat.zero_le i))

/-- The small disk with a file of one byte. -/
def oneFile : Fs :=
  match fsStep smallDisk ⟨.create shortName 1, [], zeros⟩ with
  | some s => s
  | none => smallDisk

theorem oneFile_reach : Reach fsStep Allowed smallDisk oneFile := by
  have hsome : (fsStep smallDisk ⟨.create shortName 1, [], zeros⟩).isSome = true := by
    decide +kernel
  have hok : Allowed smallDisk ⟨.create shortName 1, [], zeros⟩ := ⟨by decide, by decide⟩
  refine .next .refl hok ?_
  unfold oneFile
  cases hs : fsStep smallDisk ⟨.create shortName 1, [], zeros⟩ with
  | none =>
    rw [hs] at hsome
    cases hsome
  | some s => rfl

/-- There is no memory for the first read of `lookup`: the call makes a second file under the
name, and the one that is opened under it is the older. -/
theorem short_lookup_not_fresh :
    ∃ s', filesysCreate shortName 0 zeros { oneFile with mem := [true, true, true, true, true, false] } =
        .ok (true, s') ∧ Reach fsStep Allowed smallDisk oneFile ∧ ¬ FreshFile oneFile s' shortName 0 := by
  have hnamed : slotNamed oneFile.disk shortName 0 = true := by decide +kernel
  have hrun : (created? shortName 0 { oneFile with mem := [true, true, true, true, true, false] }).map
      Prod.fst = some true := by decide +kernel
  obtain ⟨⟨ok, map⟩, hmade, rfl⟩ := Option.map_eq_some_iff.mp hrun
  obtain ⟨s', hs', -⟩ := created?_eq_some hmade
  refine ⟨s', hs', oneFile_reach, ?_⟩
  have h := (filesysInit_ready smallDisk_init).reach oneFile_reach
  clear hrun hmade
  generalize oneFile = s at *
  have hu : entryInUse (slot s.disk 0) = true := (Bool.and_eq_true_iff.mp hnamed).1
  have hlead : Leading s.disk 0 := ⟨by decide, fun j hj => Nat.le_zero.mp hj ▸ hu⟩
  exact fun hfresh => by cases hnamed.symm.trans ((h.fresh_iff (by decide) hs').mp hfresh 0 hlead).1

end Pintos.Filesys
