import Pintos.Filesys.InodeSpec

/-!
# What the directory functions do

A search of the root directory looks at its slots in order until one fits or a
read fails, which it does past the last slot and when there is no memory for the
bounce buffer. `scanSlots` is that search on the slots as the disk holds them.
-/

namespace Pintos.Filesys

open Pintos.Base Pintos.Kernel

/-- The search from slot `i`: whether a slot fits, the slot where it ends, and the
answers of the allocator left. -/
def scanSlots (fits : Nat → Bool) : (fuel i : Nat) → List Bool → (Bool × Nat) × List Bool
  | 0, i, mem => ((false, i), mem)
  | fuel + 1, i, mem =>
    if i < rootEntries then
      if mem.headD true then
        if fits i then ((true, i), mem.tail) else scanSlots fits fuel (i + 1) mem.tail
      else ((false, i), mem.tail)
    else ((false, i), mem)

/-- The entry in slot `i` read over the bytes of `stack`. -/
def entryBuf (k : Disk) (stack : Buffer) (i : Nat) : Buffer := fun j =>
  if j < entrySize then slot k i j else stack j

/-- The slot `i` is in use under `name`. -/
def holdsName (k : Disk) (stack : Buffer) (name : CString) (i : Nat) : Bool :=
  entryInUse (entryBuf k stack i) && strEq name (entryName (entryBuf k stack i))

/-- The search of `lookup`. -/
def findSlot (k : Disk) (stack : Buffer) (name : CString) (mem : List Bool) :
    (Bool × Nat) × List Bool := scanSlots (holdsName k stack name) (rootEntries + 1) 0 mem

/-- The search of `dir_add` for a slot. -/
def findFree (k : Disk) (stack : Buffer) (mem : List Bool) : (Bool × Nat) × List Bool :=
  scanSlots (fun i => !entryInUse (entryBuf k stack i)) (rootEntries + 1) 0 mem

/-- The slot `dir_add` writes, if it does, and the answers of the allocator left. -/
def addSlot (k : Disk) (stack : Buffer) (name : CString) (mem : List Bool) : Option Nat × List Bool :=
  if nameOk name then
    if (findSlot k stack name mem).1.1 then (none, (findSlot k stack name mem).2)
    else
      let r := findFree k stack (findSlot k stack name mem).2
      if r.1.2 < rootEntries then (if r.2.headD true then some r.1.2 else none, r.2.tail)
      else (none, r.2)
  else (none, mem)

theorem scanSlots_found {fits : Nat → Bool} : ∀ {fuel i : Nat} {mem : List Bool},
    (scanSlots fits fuel i mem).1.1 = true →
      (scanSlots fits fuel i mem).1.2 < rootEntries ∧ fits (scanSlots fits fuel i mem).1.2 = true := by
  intro fuel
  induction fuel with
  | zero =>
    intro i mem h
    cases h
  | succ fuel ih =>
    intro i mem h
    by_cases hi : i < rootEntries
    · by_cases hm : mem.headD true = true
      · by_cases hf : fits i = true
        · rw [scanSlots, if_pos hi, if_pos hm, if_pos hf]
          exact ⟨hi, hf⟩
        · rw [scanSlots, if_pos hi, if_pos hm, if_neg hf] at h ⊢
          exact ih h
      · rw [scanSlots, if_pos hi, if_neg hm] at h
        cases h
    · rw [scanSlots, if_neg hi] at h
      cases h

theorem scanSlots_suffix {fits : Nat → Bool} : ∀ {fuel i : Nat} {mem : List Bool},
    (scanSlots fits fuel i mem).2 <:+ mem := by
  intro fuel
  induction fuel with
  | zero => exact List.suffix_rfl
  | succ fuel ih =>
    intro i mem
    unfold scanSlots
    by_cases hi : i < rootEntries
    · rw [if_pos hi]
      by_cases hm : mem.headD true = true
      · rw [if_pos hm]
        by_cases hf : fits i = true
        · rw [if_pos hf]
          exact List.tail_suffix mem
        · rw [if_neg hf]
          exact ih.trans (List.tail_suffix mem)
      · rw [if_neg hm]
        exact List.tail_suffix mem
    · simp only [if_neg hi, List.suffix_rfl]

theorem scanSlots_congr {fits fits' : Nat → Bool} (h : ∀ i < rootEntries, fits i = fits' i) :
    ∀ {fuel i : Nat} {mem : List Bool}, scanSlots fits fuel i mem = scanSlots fits' fuel i mem := by
  intro fuel
  induction fuel with
  | zero =>
    intro i mem
    rfl
  | succ fuel ih =>
    intro i mem
    unfold scanSlots
    by_cases hi : i < rootEntries
    · rw [if_pos hi, if_pos hi, h i hi, ih]
    · rw [if_neg hi, if_neg hi]

/-- The search of `dir_add` depends on the slots only. -/
theorem addSlot_congr {k k' : Disk} (h : ∀ i < rootEntries, ∀ j < entrySize, slot k' i j = slot k i j)
    {stack : Buffer} {name : CString} {mem : List Bool} :
    addSlot k' stack name mem = addSlot k stack name mem := by
  have hbuf : ∀ i < rootEntries, entryBuf k' stack i = entryBuf k stack i := by
    intro i hi
    funext j
    unfold entryBuf
    by_cases hj : j < entrySize
    · rw [if_pos hj, if_pos hj, h i hi j hj]
    · rw [if_neg hj, if_neg hj]
  have hfind : ∀ mem, findSlot k' stack name mem = findSlot k stack name mem := fun mem =>
    scanSlots_congr fun i hi => by rw [holdsName, hbuf i hi]; rfl
  have hfree : ∀ mem, findFree k' stack mem = findFree k stack mem := fun mem =>
    scanSlots_congr fun i hi => by rw [hbuf i hi]
  simp only [addSlot, hfind, hfree]

theorem entryBuf_slot {k : Disk} {stack : Buffer} {i j : Nat} (hj : j < entrySize) :
    entryBuf k stack i j = slot k i j := if_pos hj

section

variable {s : Fs} {refs : Ptr → Nat} {n : Inode} {i : Nat}

theorem Inv.root_data (h : Inv s refs) (hn : n ∈ s.openInodes) (hr : n.sector = rootDirSector) :
    n.data = inodeAt s.disk rootDirSector := by
  rw [h.data n hn, hr]

/-- One entry is moved whole or not at all. -/
theorem Layout.entry_transfer {capacity : Nat} {k : Disk} {map : Bitmap} {opened : Nat → Prop}
    (h : Layout capacity k map opened) (hi : i < rootEntries) (mem : List Bool) :
    transfer (inodeAt k rootDirSector) entrySize (entrySize * i) false mem =
      (if mem.headD true then entrySize else 0, mem.tail) := by
  have hlen : ioLen (inodeAt k rootDirSector) entrySize (entrySize * i) = entrySize := by
    unfold ioLen
    rw [h.root_length]
    unfold rootEntries entrySize at *
    omega
  have hneeds : ¬ NoBounce entrySize (entrySize * i) false := by
    unfold NoBounce entrySize
    simp
  have hzero : wholePart entrySize (entrySize * i) = 0 := by
    unfold wholePart entrySize
    split <;> rfl
  rw [transfer_needs (by rw [hlen]; exact hneeds), hlen, hzero]

theorem Layout.end_transfer {capacity : Nat} {k : Disk} {map : Bitmap} {opened : Nat → Prop}
    (h : Layout capacity k map opened) (hi : rootEntries ≤ i) (mem : List Bool) :
    transfer (inodeAt k rootDirSector) entrySize (entrySize * i) false mem = (0, mem) := by
  have hlen : ioLen (inodeAt k rootDirSector) entrySize (entrySize * i) = 0 := by
    unfold ioLen
    rw [h.root_length]
    unfold rootEntries entrySize at *
    omega
  rw [transfer_noBounce (.inl hlen), hlen]

/-- A buffer that agrees with `stack` past the entry. -/
def OnStack (stack e : Buffer) : Prop := ∀ j, entrySize ≤ j → e j = stack j

theorem readEntry_run (h : Inv s refs) (hn : n ∈ s.openInodes) (hr : n.sector = rootDirSector)
    {stack e : Buffer} (he : OnStack stack e) :
    inodeReadAt n.addr e entrySize (entrySize * i) s = .ok (
      if i < rootEntries then
        if s.mem.headD true then ((entrySize, entryBuf s.disk stack i), { s with mem := s.mem.tail })
        else ((0, e), { s with mem := s.mem.tail })
      else ((0, e), s)) := by
  refine (readAt_run (h.inode? hn) (h.onDisk hn) e).trans ?_
  rw [h.root_data hn hr, Int.toNat_natCast]
  by_cases hi : i < rootEntries
  · rw [h.layout.entry_transfer hi, if_pos hi]
    cases s.mem.headD true
    · rw [if_neg Bool.false_ne_true, memcpy_zero]
      rfl
    · rw [if_pos rfl, if_pos rfl]
      congr 3
      funext j
      unfold entryBuf
      by_cases hj : j < entrySize
      · rw [if_pos hj, memcpy_in (Nat.zero_le _) (by omega), Nat.sub_zero]
        rfl
      · rw [if_neg hj, memcpy_out (by omega), he j (by omega)]
  · rw [h.layout.end_transfer (by omega), if_neg hi, memcpy_zero]

theorem onStack_entryBuf (k : Disk) (stack : Buffer) (i : Nat) :
    OnStack stack (entryBuf k stack i) := fun _ hj => if_neg (by omega)

theorem entryReads_eq (h : Inv s refs) (hn : n ∈ s.openInodes) (hr : n.sector = rootDirSector) :
    entryReads n = rootEntries + 1 := by
  rw [entryReads, h.root_data hn hr, h.layout.root_length]
  rfl

theorem lookupLoop_run (hn : n ∈ s.openInodes) (hr : n.sector = rootDirSector) (name : CString)
    (stack : Buffer) : ∀ (fuel i : Nat) (e : Buffer) (mem : List Bool), OnStack stack e →
      Inv { s with mem := mem } refs →
      lookupLoop n.addr name fuel e (entrySize * i) { s with mem := mem } =
        .ok (if (scanSlots (holdsName s.disk stack name) fuel i mem).1.1 then
            some (entryBuf s.disk stack (scanSlots (holdsName s.disk stack name) fuel i mem).1.2,
              entrySize * (scanSlots (holdsName s.disk stack name) fuel i mem).1.2)
          else none,
          { s with mem := (scanSlots (holdsName s.disk stack name) fuel i mem).2 }) := by
  intro fuel
  induction fuel with
  | zero =>
    intro i e mem _ _
    rfl
  | succ fuel ih =>
    intro i e mem he h
    rw [lookupLoop, bind_run, readEntry_run h hn hr he, ok_bind]
    by_cases hi : i < rootEntries
    · rw [scanSlots, if_pos hi, if_pos hi]
      by_cases hm : mem.headD true = true
      · rw [if_pos hm, if_pos hm, if_pos rfl]
        by_cases hf : holdsName s.disk stack name i = true
        · rw [if_pos hf]
          exact congrFun (if_pos hf) _
        · rw [if_neg hf]
          apply (congrFun (if_neg hf) _).trans
          exact ih (i + 1) (entryBuf s.disk stack i) mem.tail (onStack_entryBuf s.disk stack i)
            (h.setMem mem.tail)
      · rw [if_neg hm, if_neg hm]
        rfl
    · rw [scanSlots, if_neg hi, if_neg hi]
      rfl

/-- **`lookup`** on the root directory. -/
theorem Inv.lookup_run (h : Inv s refs) (hn : n ∈ s.openInodes) (hr : n.sector = rootDirSector)
    (name : CString) (stack : Buffer) :
    lookup ⟨n.addr⟩ name stack s =
      .ok (if (findSlot s.disk stack name s.mem).1.1 then
          some (entryBuf s.disk stack (findSlot s.disk stack name s.mem).1.2,
            entrySize * (findSlot s.disk stack name s.mem).1.2)
        else none,
        { s with mem := (findSlot s.disk stack name s.mem).2 }) := by
  rw [lookup, bind_run, getInode_run (h.inode? hn), ok_bind]
  dsimp only
  rw [entryReads_eq h hn hr]
  exact lookupLoop_run hn hr name stack _ 0 stack s.mem (fun _ _ => rfl) h

theorem freeSlotLoop_run (hn : n ∈ s.openInodes) (hr : n.sector = rootDirSector)
    (stack : Buffer) : ∀ (fuel i : Nat) (e : Buffer) (mem : List Bool), OnStack stack e →
      Inv { s with mem := mem } refs →
      ∃ e', OnStack stack e' ∧ freeSlotLoop n.addr fuel e (entrySize * i) { s with mem := mem } =
        .ok ((e', entrySize *
            (scanSlots (fun i => !entryInUse (entryBuf s.disk stack i)) fuel i mem).1.2),
          { s with mem :=
            (scanSlots (fun i => !entryInUse (entryBuf s.disk stack i)) fuel i mem).2 }) := by
  intro fuel
  induction fuel with
  | zero =>
    intro i e mem he _
    exact ⟨e, he, rfl⟩
  | succ fuel ih =>
    intro i e mem he h
    rw [freeSlotLoop, bind_run, readEntry_run h hn hr he, ok_bind]
    by_cases hi : i < rootEntries
    · rw [scanSlots, if_pos hi, if_pos hi]
      by_cases hm : mem.headD true = true
      · rw [if_pos hm, if_pos hm, if_pos rfl]
        by_cases hu : entryInUse (entryBuf s.disk stack i) = true
        · obtain ⟨e', he', hrun⟩ := ih (i + 1) (entryBuf s.disk stack i) mem.tail
            (onStack_entryBuf s.disk stack i) (h.setMem mem.tail)
          have hfit : ¬ (!entryInUse (entryBuf s.disk stack i)) = true := by simp [hu]
          rw [if_neg hfit]
          exact ⟨e', he', (congrFun (if_pos hu) _).trans hrun⟩
        · have hfit : (!entryInUse (entryBuf s.disk stack i)) = true := by simpa using hu
          rw [if_pos hfit]
          exact ⟨_, onStack_entryBuf s.disk stack i, congrFun (if_neg hu) _⟩
      · rw [if_neg hm, if_neg hm]
        exact ⟨e, he, rfl⟩
    · rw [scanSlots, if_neg hi, if_neg hi]
      exact ⟨e, he, rfl⟩

/-! ## Writing an entry -/

theorem Inv.writeEntry_run (h : Inv s refs) (hn : n ∈ s.openInodes) (hr : n.sector = rootDirSector)
    (i : Nat) (e : Buffer) :
    inodeWriteAt n.addr e entrySize (entrySize * i) s = .ok (
      if i < rootEntries then
        if s.mem.headD true then
          (entrySize, { s with disk := writeSlot s.disk i e, mem := s.mem.tail })
        else (0, { s with mem := s.mem.tail })
      else (0, s)) := by
  refine (writeAt_run (h.inode? hn) (h.deny n hn) (h.onDisk hn) e).trans ?_
  rw [h.root_data hn hr, Int.toNat_natCast]
  by_cases hi : i < rootEntries
  · rw [h.layout.entry_transfer hi, if_pos hi]
    cases s.mem.headD true
    · rw [if_neg Bool.false_ne_true, splice_zero]
      rfl
    · rfl
  · rw [h.layout.end_transfer (by omega), if_neg hi, splice_zero]

theorem Inv.freeSlot_run (h : Inv s refs) (hn : n ∈ s.openInodes) (hr : n.sector = rootDirSector)
    (stack : Buffer) :
    ∃ e, freeSlotLoop n.addr (entryReads n) stack 0 s =
      .ok ((e, entrySize * (findFree s.disk stack s.mem).1.2),
        { s with mem := (findFree s.disk stack s.mem).2 }) := by
  obtain ⟨e, -, hrun⟩ := freeSlotLoop_run hn hr stack (rootEntries + 1) 0 stack s.mem
    (fun _ _ => rfl) h
  rw [entryReads_eq h hn hr]
  exact ⟨e, hrun⟩

/-- **`dir_add`** -/
theorem Inv.add_run (h : Inv s refs) (hn : n ∈ s.openInodes) (hr : n.sector = rootDirSector)
    (name : CString) (z : Nat) (stack : Buffer) :
    ∃ e, dirAdd ⟨n.addr⟩ name z stack s = .ok (
      match addSlot s.disk stack name s.mem with
      | (some i, mem) =>
        (true, { s with disk := writeSlot s.disk i (fillEntry e name z), mem := mem })
      | (none, mem) => (false, { s with mem := mem })) := by
  by_cases hok : nameOk name = true
  · simp only [dirAdd, addSlot, if_pos hok, bind_run, h.lookup_run hn hr name stack, ok_bind]
    by_cases hf : (findSlot s.disk stack name s.mem).1.1 = true
    · rw [if_pos hf, if_pos hf]
      exact ⟨stack, rfl⟩
    · rw [if_neg hf, if_neg hf]
      have h1 := h.setMem (findSlot s.disk stack name s.mem).2
      obtain ⟨e, hfree⟩ := h1.freeSlot_run hn hr stack
      have hw := (h1.setMem (findFree s.disk stack (findSlot s.disk stack name s.mem).2).2
        ).writeEntry_run hn hr (findFree s.disk stack (findSlot s.disk stack name s.mem).2).1.2
          (fillEntry e name z)
      refine ⟨e, ?_⟩
      simp only [bind_run, getInode_run (h1.inode? hn), ok_bind, hfree, hw]
      by_cases hi : (findFree s.disk stack (findSlot s.disk stack name s.mem).2).1.2 < rootEntries
      · rw [if_pos hi, if_pos hi]
        cases (findFree s.disk stack (findSlot s.disk stack name s.mem).2).2.headD true <;> rfl
      · rw [if_neg hi, if_neg hi]
        rfl
  · simp only [dirAdd, addSlot, if_neg hok]
    exact ⟨stack, rfl⟩

/-- The slot is the one where the second search ends. -/
theorem addSlot_eq_some {k : Disk} {stack : Buffer} {name : CString} {mem mem' : List Bool}
    (h : addSlot k stack name mem = (some i, mem')) :
    nameOk name = true ∧ (findSlot k stack name mem).1.1 = false ∧ i < rootEntries ∧
      (findFree k stack (findSlot k stack name mem).2).1.2 = i := by
  unfold addSlot at h
  by_cases hok : nameOk name = true
  · rw [if_pos hok] at h
    by_cases hf : (findSlot k stack name mem).1.1 = true
    · rw [if_pos hf] at h
      cases h
    · rw [if_neg hf] at h
      dsimp only at h
      split at h
      · next hi =>
        rw [Prod.mk.injEq] at h
        split at h
        · obtain rfl := Option.some.inj h.1
          exact ⟨hok, by simpa using hf, hi, rfl⟩
        · cases h.1
      · cases h
  · rw [if_neg hok] at h
    cases h

theorem addSlot_lt {k : Disk} {stack : Buffer} {name : CString} {mem mem' : List Bool}
    (h : addSlot k stack name mem = (some i, mem')) : i < rootEntries := (addSlot_eq_some h).2.2.1

/-- The entry `dir_add` writes is in use. -/
theorem fillEntry_inUse (e : Buffer) (name : CString) (z : Nat) :
    entryInUse (fillEntry e name z) = true := by
  have h : fillEntry e name z 19 = 1 := by
    unfold fillEntry store32 strlcpy nameMax
    rw [memcpy_out (by omega), memcpy_out (by omega), memcpy_out (by omega)]
    rfl
  rw [entryInUse, h]
  rfl

theorem fillEntry_sector (e : Buffer) (name : CString) {z : Nat} (hz : z < 2 ^ 32) :
    entrySector (fillEntry e name z) = z := load32_store32 _ 0 hz

/-- A slot is written, with an entry for a file without a name or one not in use. -/
theorem Inv.putSlot (h : Inv s refs) {e : Buffer} (hi : i < rootEntries)
    (hz : entryInUse e = true →
      Unnamed s.capacity s.disk s.freeMap (Opened s.openInodes) (entrySector e))
    (mem : List Bool) : Inv { s with disk := writeSlot s.disk i e, mem := mem } refs :=
  { h with
    layout := h.layout.putSlot hi hz
    data := fun n hn => (h.data n hn).trans (h.layout.writeSlot_inode hi (h.live hn)).symm
    removed := fun n hn hr => by
      obtain ⟨h0, h1, h2⟩ := h.removed n hn hr
      refine ⟨h0, h1, fun hname => ?_⟩
      rcases h.layout.writeSlot_named hi hname with hname | ⟨hu, he⟩
      · exact h2 hname
      · exact (hz hu).disjoint _ _ (h.live hn) (.inl rfl) (.inl he)
    map_ref := h.map_ref }

/-! ## Removing -/

/-- The inode at `p` is marked as removed. -/
def setRemoved (s : Fs) (p : Ptr) : Fs :=
  { s with openInodes := s.openInodes.map fun n =>
      if n.addr = p then { n with removed := true } else n }

theorem Counted.setRemoved (h : Counted s.next s.openInodes refs) (p : Ptr) :
    Counted s.next (setRemoved s p).openInodes refs := by
  refine h.map (fun m => ?_) (fun m hm => ?_) h.refs_open
  · split <;> exact ⟨rfl, rfl⟩
  · split <;> exact h.count m hm

theorem Inv.setRemoved (h : Inv s refs) (h0 : n.sector ≠ freeMapSector)
    (h1 : n.sector ≠ rootDirSector) (h2 : ¬ Named s.disk n.sector) (hn : n ∈ s.openInodes) :
    Inv (setRemoved s n.addr) refs := by
  refine h.mapInodes (fun m => ?_) (fun m hm hr => ?_) (h.counted.setRemoved n.addr) h.map_ref
  · split <;> exact ⟨rfl, rfl, rfl, rfl⟩
  · by_cases he : m.addr = n.addr
    · obtain rfl := h.inode_ext hm hn he
      exact ⟨h0, h1, h2⟩
    · rw [if_neg he] at hr
      exact h.removed m hm hr

/-- The slot `i` is erased and the inode at `p` marked as removed. -/
def erased (s : Fs) (i : Nat) (e : Buffer) (p : Ptr) : Fs :=
  Filesys.setRemoved
    { s with disk := writeSlot s.disk i (setInUse e false), mem := s.mem.tail } p

theorem quiet_erased (s : Fs) (i : Nat) (e : Buffer) (p : Ptr) : Quiet s (erased s i e p) := by
  refine ⟨rfl, rfl, Nat.le_refl _, fun n' hn' _ => ?_⟩
  obtain ⟨n, hn, rfl⟩ := List.mem_map.mp hn'
  refine ⟨n, hn, ?_⟩
  split
  · exact ⟨rfl, rfl, rfl, fun _ => rfl⟩
  · exact ⟨rfl, rfl, rfl, id⟩

theorem Inv.erase_run (h : Inv s refs) (hn : n ∈ s.openInodes) (hr : n.sector = rootDirSector)
    (hi : i < rootEntries) (e : Buffer) {m : Inode} (hm : m ∈ s.openInodes) :
    eraseEntry ⟨n.addr⟩ e (entrySize * i) m.addr s = .ok (
      if s.mem.headD true then
        (true, erased s i e m.addr)
      else (false, { s with mem := s.mem.tail })) := by
  have h1 := h.putSlot (e := setInUse e false) hi (fun hu => by cases hu) s.mem.tail
  rw [eraseEntry, bind_run, h.writeEntry_run hn hr i (setInUse e false), if_pos hi]
  cases s.mem.headD true
  · rfl
  · rw [if_pos rfl, if_pos rfl, ok_bind, if_pos rfl]
    simp only [inodeRemove, bind_run, discard_run (getInode_run (h1.inode? hm)), ok_bind]
    rfl

/-- A file without open handles gives up its sectors when it is removed; one with a
handle keeps them. -/
structure Removed (s s' : Fs) (x : Nat) : Prop where
  named : Named s.disk x
  unnamed : ¬ Named s'.disk x
  opened : Opened s.openInodes x →
    s'.released = s.released ∧ ∃ n ∈ s'.openInodes, n.sector = x ∧ n.removed = true
  closed : ¬ Opened s.openInodes x →
    s'.released =
        s.released ++ [(x, 1), ((inodeAt s.disk x).start, bytesToSectors (inodeAt s.disk x).length)] ∧
      ∀ t, Extent s.disk x t → bitmapTest s'.freeMap t = false

/-- The entry found under a name, in the slot where it was found. -/
theorem findSlot_found {k : Disk} {stack : Buffer} {name : CString} {mem : List Bool}
    (h : (findSlot k stack name mem).1.1 = true) :
    (findSlot k stack name mem).1.2 < rootEntries ∧
      entryInUse (slot k (findSlot k stack name mem).1.2) = true ∧
      entrySector (entryBuf k stack (findSlot k stack name mem).1.2) =
        entrySector (slot k (findSlot k stack name mem).1.2) := by
  obtain ⟨hi, hf⟩ := scanSlots_found h
  have hs : ∀ j < entrySize, entryBuf k stack (findSlot k stack name mem).1.2 j = slot k _ j :=
    fun j hj => entryBuf_slot hj
  rw [holdsName, Bool.and_eq_true] at hf
  exact ⟨hi, (entryInUse_congr hs).symm.trans hf.1, entrySector_congr hs⟩

theorem Inv.erased {s1 : Fs} {m : Inode} (h : Inv s refs) (hi : i < rootEntries)
    (hu : entryInUse (slot s.disk i) = true)
    (ho : OpenedAs s s1 refs (entrySector (slot s.disk i)) m) (e : Buffer) :
    Inv (erased s1 i e m.addr) (addRef refs m.addr) := by
  obtain ⟨h0, h1⟩ := h.layout.slot_ne i hi hu
  have hput := ho.inv.putSlot (e := setInUse e false) hi (fun hu => by cases hu) s1.mem.tail
  refine hput.setRemoved (ho.sector ▸ h0) (ho.sector ▸ h1) ?_ ho.mem
  rw [ho.sector]
  show ¬ Named (writeSlot s1.disk i (setInUse e false)) _
  rw [ho.disk]
  exact h.layout.erase_unnamed hi hu rfl

/-- What `dir_remove` does once the inode is open as `m` and the entry is erased. -/
theorem Inv.erased_close {s1 : Fs} {m : Inode} (h : Inv s refs) (hi : i < rootEntries)
    (hu : entryInUse (slot s.disk i) = true)
    (ho : OpenedAs s s1 refs (entrySector (slot s.disk i)) m) (e : Buffer) :
    ∃ s', inodeClose (some m.addr) (Filesys.erased s1 i e m.addr) = .ok ((), s') ∧
      Inv s' refs ∧ Frees s s' ∧ Quiet s s' ∧ Removed s s' (entrySector (slot s.disk i)) ∧
      ∀ x, Named s'.disk x → Named s.disk x := by
  have hset := h.erased hi hu ho e
  have hquiet := ho.quiet.trans (quiet_erased s1 i e m.addr)
  have hm : { m with removed := true } ∈ (Filesys.erased s1 i e m.addr).openInodes :=
    List.mem_map.mpr ⟨m, ho.mem, if_pos rfl⟩
  have hcount : m.openCnt - 1 = (refs m.addr : Int) := by
    have := (ho.inv.count m ho.mem).1
    rw [addRef_self] at this
    omega
  have hdata : m.data = inodeAt s.disk (entrySector (slot s.disk i)) := by
    rw [ho.inv.data m ho.mem, ho.sector, ho.disk]
  obtain ⟨hrun, hinv, hfrees, hnamed⟩ := hset.close_run (n := { m with removed := true })
    (h.mapRef hset hquiet) hm
  have hnames : ∀ x, Named (afterClose (Filesys.erased s1 i e m.addr) { m with removed := true }).disk x →
      Named s.disk x := by
    intro x hx
    have hx : Named (writeSlot s1.disk i (setInUse e false)) x := (hnamed x).mp hx
    rw [ho.disk] at hx
    exact (h.layout.writeSlot_named hi hx).resolve_right fun hx => by cases hx.1
  have hsame : Frees s (Filesys.erased s1 i e m.addr) := .of_eq ho.freeMap ho.released
  have hfrees' := hsame.trans hfrees
  refine ⟨_, hrun, hinv, hfrees', hquiet.trans (quiet_afterClose _ _),
    ⟨⟨i, hi, hu, rfl⟩, fun hx => ?_, fun hop => ?_, fun hno => ?_⟩, hnames⟩
  · have hx : Named (writeSlot s1.disk i (setInUse e false)) _ := (hnamed _).mp hx
    rw [ho.disk] at hx
    exact h.layout.erase_unnamed hi hu rfl hx
  · have hne : m.openCnt - 1 ≠ 0 := by
      have := mt ho.first.mp (not_not.mpr hop)
      omega
    rw [(afterClose_kept (n := { m with removed := true }) (.inr hne)).2.2.1, afterClose, if_neg hne]
    refine ⟨ho.released, _, List.mem_map.mpr ⟨_, hm, if_pos rfl⟩, ho.sector, rfl⟩
  · have hlast : m.openCnt - 1 = 0 := by
      have := ho.first.mpr hno
      omega
    have hrel : (afterClose (Filesys.erased s1 i e m.addr) { m with removed := true }).released =
        s.released ++ [(entrySector (slot s.disk i), 1),
          ((inodeAt s.disk (entrySector (slot s.disk i))).start,
            bytesToSectors (inodeAt s.disk (entrySector (slot s.disk i))).length)] := by
      rw [← hdata, ← ho.sector, ← show (Filesys.erased s1 i e m.addr).released = s.released from
        ho.released]
      exact afterClose_last rfl hlast
    refine ⟨hrel, fun t ht => ?_⟩
    rcases ht with rfl | ht
    · exact hfrees'.clear hrel List.mem_cons_self (Nat.le_refl _) (Nat.lt_succ_self _)
    · exact hfrees'.clear hrel (List.mem_cons_of_mem _ List.mem_cons_self) ht.1 ht.2

/-- **`dir_remove`** -/
theorem Inv.remove_run (h : Inv s refs) (hn : n ∈ s.openInodes) (hr : n.sector = rootDirSector)
    (name : CString) (stack : Buffer) :
    ∃ ok s', dirRemove ⟨n.addr⟩ name stack s = .ok (ok, s') ∧ Inv s' refs ∧ Frees s s' ∧
      Quiet s s' ∧ (∀ x, Named s'.disk x → Named s.disk x) ∧
      if ok then ∃ x, Removed s s' x else s'.released = s.released := by
  simp only [dirRemove, bind_run, h.lookup_run hn hr name stack, ok_bind]
  by_cases hf : (findSlot s.disk stack name s.mem).1.1 = true
  · rw [if_pos hf]
    obtain ⟨hi, hu, hsec⟩ := findSlot_found hf
    have h1 := h.setMem (findSlot s.disk stack name s.mem).2
    have hq : Quiet s { s with mem := (findSlot s.disk stack name s.mem).2 } :=
      ⟨rfl, rfl, .of_eq rfl (Nat.le_refl _)⟩
    simp only [hsec, bind_run]
    rcases h1.open_cases (.inr (.inr (.inl ⟨_, hi, hu, rfl⟩))) with ⟨-, hopen⟩ | ⟨m, s1, hopen, ho, -⟩
    · rw [hopen]
      exact ⟨false, _, rfl, h.setMem _, .of_eq rfl rfl, ⟨rfl, rfl, .of_eq rfl (Nat.le_refl _)⟩,
        fun _ => id, rfl⟩
    · obtain ⟨n1, hn1, haddr, hsec1, -⟩ := h1.still_open ho.inv ho.quiet.evolves hn
        (Nat.lt_of_lt_of_le (h1.count n hn).2 (le_addRef ..))
      rw [hopen, ok_bind]
      simp only [bind_run]
      rw [← haddr, ho.inv.erase_run hn1 (hsec1.trans hr) hi _ ho.mem]
      cases s1.mem.headD true
      · obtain ⟨s', hrun, hinv, hquiet, hdisk, hmap, hlog⟩ :=
          ho.close h1 (.inr (.inr ⟨_, hi, hu, rfl⟩)) s1.mem.tail
        rw [if_neg Bool.false_ne_true, ok_bind, hrun]
        exact ⟨false, s', rfl, hinv, .of_eq hmap hlog, hq.trans hquiet,
          fun x hx => hdisk ▸ hx, hlog⟩
      · obtain ⟨s', hrun, hinv, hfrees, hquiet, hrem, hnames⟩ := h1.erased_close hi hu ho
          (entryBuf s.disk stack (findSlot s.disk stack name s.mem).1.2)
        rw [if_pos rfl, ok_bind, hrun]
        exact ⟨true, s', rfl, hinv, ⟨hfrees.marked, hfrees.log⟩, hq.trans hquiet, hnames, _,
          ⟨hrem.named, hrem.unnamed, hrem.opened, hrem.closed⟩⟩
  · rw [if_neg hf]
    exact ⟨false, _, rfl, h.setMem _, .of_eq rfl rfl, ⟨rfl, rfl, .of_eq rfl (Nat.le_refl _)⟩,
      fun _ => id, rfl⟩

end

end Pintos.Filesys
