import Pintos.Filesys.DirectorySpec

/-!
# What `filesys_create` does

The chain of `filesys_create` from a state in which the root directory is open. The
clean-up that follows a failure releases the inode sector only, so a failure of
`dir_add` leaves the data sectors of the new file marked.
-/

namespace Pintos.Filesys

open Pintos.Base Pintos.Kernel

/-- The taken sectors are as they were, except for the data of the free map file. -/
def Fixed (s s' : Fs) : Prop := ∀ t, bitmapTest s.freeMap t = true →
  ¬ DataSector (inodeAt s.disk freeMapSector) t → s'.disk t = s.disk t

/-- Only the data of the free map file and the answers of the allocator change. -/
def Idle (s s' : Fs) : Prop := ∃ k mem, s' = { s with disk := k, mem := mem } ∧
  ∀ t, ¬ DataSector (inodeAt s.disk freeMapSector) t → k t = s.disk t

section

variable {s s' s'' : Fs} {refs : Ptr → Nat} {x cnt : Nat}

theorem Inv.fixed_meta (h : Inv s refs) (hf : Fixed s s') :
    SameMeta s.disk s'.disk (Opened s.openInodes) := by
  refine .of_sectors (fun x hx i _ => ?_) fun i _ => ?_
  · rw [hf x (h.layout.owns.marked x x hx (.inl rfl)) (h.layout.not_data hx live_map)]
  · rw [hf _ (h.layout.owns.marked _ _ live_root (.inr h.layout.rootData)) fun hd => ?_]
    have := h.layout.owns.disjoint _ _ _ live_map live_root (.inr hd) (.inr h.layout.rootData)
    cases this

theorem Inv.fixed_map (h : Inv s refs) (hf : Fixed s s') :
    inodeAt s'.disk freeMapSector = inodeAt s.disk freeMapSector :=
  (h.fixed_meta hf).inode _ live_map

theorem Idle.fixed (h : Idle s s') : Fixed s s' := by
  obtain ⟨k, mem, rfl, hoff⟩ := h
  exact fun t _ => hoff t

theorem Inv.idle (h : Inv s refs) (hi : Idle s s') : Inv s' refs := by
  have hmeta := h.fixed_meta hi.fixed
  obtain ⟨k, mem, rfl, -⟩ := hi
  exact h.frame hmeta mem

theorem idle_setMem (s : Fs) (mem : List Bool) : Idle s { s with mem := mem } :=
  ⟨s.disk, mem, rfl, fun _ _ => rfl⟩

theorem Inv.mapWritten_of_not_data (h : Inv s refs) (map : Bitmap) {t : Nat}
    (ht : ¬ DataSector (inodeAt s.disk freeMapSector) t) :
    (Filesys.mapWritten s map).disk t = s.disk t :=
  Filesys.mapWritten_of_not_data (h.layout.length_nonneg _ live_map) map ht

theorem Inv.idle_mapWritten (h : Inv s refs) (map : Bitmap) : Idle s (Filesys.mapWritten s map) :=
  ⟨_, _, rfl, fun _ => h.mapWritten_of_not_data map⟩

theorem Inv.idle_trans (h : Inv s refs) (h1 : Idle s s') (h2 : Idle s' s'') : Idle s s'' := by
  have hmap := h.fixed_map h1.fixed
  obtain ⟨k, mem, rfl, hoff⟩ := h1
  obtain ⟨k', mem', rfl, hoff'⟩ := h2
  refine ⟨k', mem', rfl, fun t ht => ?_⟩
  exact (hoff' t (hmap.symm ▸ ht)).trans (hoff t ht)

theorem Inv.fixed_trans (h : Inv s refs) (h1 : Fixed s s') (h2 : Idle s' s'') : Fixed s s'' := by
  have hmap := h.fixed_map h1
  obtain ⟨k, mem, rfl, hoff⟩ := h2
  exact fun t hm ht => (hoff t (hmap.symm ▸ ht)).trans (h1 t hm ht)

/-! ## Taking sectors -/

/-- `free_map_allocate` finds `cnt` sectors at `x` and writes the map. -/
def Taken (s : Fs) (cnt x : Nat) : Prop :=
  bitmapScan s.freeMap 0 cnt false = some x ∧ mapWriteOk s = true

theorem Inv.allocate_cases (h : Inv s refs) (cnt : Nat) :
    (∃ x, Taken s cnt x ∧ freeMapAllocate cnt s = .ok (some x, takeSectors s x cnt)) ∨
    ((∀ x, ¬ Taken s cnt x) ∧ ∃ s', freeMapAllocate cnt s = .ok (none, s') ∧ Idle s s') := by
  rcases h.allocate_run cnt with ⟨hscan, hrun⟩ | ⟨x, hscan, hrun⟩
  · refine .inr ⟨fun x hx => ?_, s, hrun, idle_setMem s s.mem⟩
    cases hscan.symm.trans hx.1
  · cases hok : mapWriteOk s
    · rw [hok, if_neg Bool.false_ne_true] at hrun
      refine .inr ⟨fun x hx => ?_, _, hrun, h.idle_mapWritten _⟩
      rw [Taken, hok] at hx
      cases hx.2
    · rw [hok, if_pos rfl] at hrun
      exact .inl ⟨x, ⟨hscan, hok⟩, hrun⟩

theorem Taken.free (ht : Taken s cnt x) {t : Nat} (h1 : x ≤ t) (h2 : t < x + cnt) :
    bitmapTest s.freeMap t = false := bitmapScan_test ht.1 h1 h2

theorem Inv.taken_le (h : Inv s refs) (ht : Taken s cnt x) : x + cnt ≤ s.capacity := by
  rw [← h.layout.size]
  exact (bitmapScan_some ht.1).2.1

theorem Inv.fixed_takeSectors (h : Inv s refs) (x cnt : Nat) : Fixed s (takeSectors s x cnt) :=
  fun _ _ ht => h.mapWritten_of_not_data _ ht

/-- `filesys_create` has taken the sector `x` for an inode and no live file has it. -/
structure Pending (refs : Ptr → Nat) (s s' : Fs) (x : Nat) : Prop where
  inv : Inv s' refs
  free : bitmapTest s.freeMap x = false
  marks : ∀ t, bitmapTest s.freeMap t = true → bitmapTest s'.freeMap t = true
  spare : Spare s' x
  fixed : Fixed s s'
  openInodes : s'.openInodes = s.openInodes
  files : s'.files = s.files
  mapFile : s'.freeMapFile = s.freeMapFile
  next : s'.next = s.next
  released : s'.released = s.released

theorem Inv.takeSectors_marks (h : Inv s refs) (ht : Taken s cnt x) {t : Nat}
    (hm : bitmapTest s.freeMap t = true) : bitmapTest (takeSectors s x cnt).freeMap t = true := by
  show bitmapTest (bitmapSetMultiple s.freeMap x cnt true) t = true
  rw [bitmapTest_setMultiple (by rw [h.layout.size]; exact h.taken_le ht)]
  split
  · rfl
  · exact hm

theorem Inv.pending (h : Inv s refs) (ht : Taken s 1 x) : Pending refs s (takeSectors s x 1) x where
  inv := h.mark (h.taken_le ht)
  free := ht.free (Nat.le_refl x) (Nat.lt_succ_self x)
  marks _ := h.takeSectors_marks ht
  spare := by
    have hmeta := h.fixed_meta (h.fixed_takeSectors x 1)
    refine ⟨?_, fun z hz he => ?_⟩
    · show bitmapTest (bitmapSetMultiple s.freeMap x 1 true) x = true
      rw [bitmapTest_setMultiple (by rw [h.layout.size]; exact h.taken_le ht), if_pos (by omega)]
    · have hz : Live s.disk (Opened s.openInodes) z := hmeta.live.mp hz
      rw [Extent, hmeta.inode z hz] at he
      have := ht.free (Nat.le_refl x) (Nat.lt_succ_self x)
      rw [h.layout.owns.marked z x hz he] at this
      cases this
  fixed := h.fixed_takeSectors x 1
  openInodes := rfl
  files := rfl
  mapFile := rfl
  next := rfl
  released := rfl

theorem Pending.idle (hp : Pending refs s s' x) (h : Inv s refs) (hi : Idle s' s'') :
    Pending refs s s'' x := by
  have hinv := hp.inv.idle hi
  have hmeta := hp.inv.fixed_meta hi.fixed
  have hfixed := h.fixed_trans hp.fixed hi
  obtain ⟨k, mem, rfl, -⟩ := hi
  refine { hp with inv := hinv, spare := ⟨hp.spare.marked, fun z hz he => ?_⟩, fixed := hfixed }
  have hz := hmeta.live.mp hz
  rw [Extent, hmeta.inode z hz] at he
  exact hp.spare.free z hz he

/-! ## The new inode -/

variable {y : Nat} {size : Int}

/-- The inode written for a file that has no name yet. -/
structure Made (refs : Ptr → Nat) (s s' : Fs) (x y : Nat) (size : Int) : Prop where
  pending : Pending refs s s' x
  unnamed : Unnamed s'.capacity s'.disk s'.freeMap (Opened s'.openInodes) x
  inode : inodeAt s'.disk x = { start := y, length := size, magic := inodeMagic }
  data_free : ∀ t, y ≤ t → t < y + bytesToSectors size → bitmapTest s.freeMap t = false

theorem Pending.made (hp : Pending refs s s' x) (h : Inv s refs) (h0 : 0 ≤ size)
    (h1 : size < 2 ^ 31) (ht : Taken s' (bytesToSectors size) y) :
    Made refs s (created s' x y size) x y size := by
  have hfree : ∀ t, y ≤ t → t < y + bytesToSectors size → bitmapTest s.freeMap t = false := by
    intro t ht1 ht2
    by_contra hm
    have := ht.free ht1 ht2
    rw [hp.marks t (by simpa using hm)] at this
    cases this
  have hmap := h.fixed_map hp.fixed
  have hout : ¬ (y ≤ x ∧ x < y + bytesToSectors size) := by
    rintro ⟨hx1, hx2⟩
    have := ht.free hx1 hx2
    rw [hp.spare.marked] at this
    cases this
  have hle := hp.inv.taken_le ht
  have hcap := s'.lba28
  obtain ⟨hinv, hun⟩ := hp.inv.created hp.spare h0 h1 ht.1
  refine ⟨⟨hinv, hp.free, fun t hm => hp.inv.takeSectors_marks ht (hp.marks t hm), ?_, ?_,
    hp.openInodes, hp.files, hp.mapFile, hp.next, hp.released⟩, hun, ?_, hfree⟩
  · exact ⟨hun.marked x (.inl rfl), fun z hz he => hun.disjoint z x hz he (.inl rfl)⟩
  · intro t hm hd
    have hx : t ≠ x := by
      rintro rfl
      rw [hp.free] at hm
      cases hm
    have hy : ¬ (y ≤ t ∧ t < y + bytesToSectors size) := by
      rintro ⟨ht1, ht2⟩
      rw [hfree t ht1 ht2] at hm
      cases hm
    rw [← hp.fixed t hm hd, ← hp.inv.mapWritten_of_not_data
      (bitmapSetMultiple s'.freeMap y (bytesToSectors size) true) (hmap.symm ▸ hd)]
    exact newFile_of_ne hx hy
  · exact newFile_inode hout h0 h1 (by omega)

/-- The state in which `inode_create` looks for data sectors. -/
def dataState (s : Fs) (x : Nat) : Fs :=
  { takeSectors s x 1 with mem := (takeSectors s x 1).mem.tail }

/-- The state after `inode_create` has made the inode in `x`. -/
def madeState (s : Fs) (x y : Nat) (size : Int) : Fs := created (dataState s x) x y size

/-- `inode_create` succeeds for the sector `x`, with the data from `y` on. -/
def Makes (s : Fs) (x : Nat) (size : Int) (y : Nat) : Prop :=
  (takeSectors s x 1).mem.headD true = true ∧ Taken (dataState s x) (bytesToSectors size) y

theorem Inv.inodeCreate_cases (h : Inv s refs) (hx : Taken s 1 x) (h0 : 0 ≤ size)
    (h1 : size < 2 ^ 31) :
    (∃ y, Makes s x size y ∧
      inodeCreate x size (takeSectors s x 1) = .ok (true, madeState s x y size) ∧
      Made refs s (madeState s x y size) x y size) ∨
    ((∀ y, ¬ Makes s x size y) ∧ ∃ s', inodeCreate x size (takeSectors s x 1) = .ok (false, s') ∧
      Idle (takeSectors s x 1) s') := by
  have hp := h.pending hx
  have hi := idle_setMem (takeSectors s x 1) (takeSectors s x 1).mem.tail
  have hlt : x < (takeSectors s x 1).capacity := h.taken_le hx
  rcases hp.inv.create_run h0 hlt with ⟨hm, hrun⟩ | ⟨-, hscan, hrun⟩ | ⟨hm, y, hscan, hrun⟩
  · refine .inr ⟨fun y hy => ?_, _, hrun, hi⟩
    cases hm.symm.trans hy.1
  · refine .inr ⟨fun y hy => ?_, _, hrun, hi⟩
    cases hscan.symm.trans hy.2.1
  · cases hok : mapWriteOk (dataState s x)
    · refine .inr ⟨fun y hy => ?_, _, hrun.trans (congrArg _ (if_neg ?_)), ?_⟩
      · cases hok.symm.trans hy.2.2
      · exact (Bool.eq_false_iff.mp hok)
      · exact hp.inv.idle_trans hi ((hp.inv.idle hi).idle_mapWritten _)
    · refine .inl ⟨y, ⟨hm, hscan, hok⟩, hrun.trans (congrArg _ (if_pos hok)), ?_⟩
      exact (hp.idle h hi).made h h0 h1 ⟨hscan, hok⟩

variable {n : Inode} {name : CString} {stack : Buffer}

/-- **The chain of `filesys_create`**, by the operation that fails. -/
theorem Inv.chain_cases (h : Inv s refs) (hn : n ∈ s.openInodes) (hr : n.sector = rootDirSector)
    (h0 : 0 ≤ size) (h1 : size < 2 ^ 31) (name : CString) (stack : Buffer) :
    ((∀ x, ¬ Taken s 1 x) ∧ ∃ s', createChain ⟨n.addr⟩ name size stack s = .ok ((false, 0), s') ∧
      Idle s s') ∨
    ∃ x, Taken s 1 x ∧
      (((∀ y, ¬ Makes s x size y) ∧ ∃ s',
          createChain ⟨n.addr⟩ name size stack s = .ok ((false, x), s') ∧
          Pending refs s s' x ∧ s'.freeMap = (takeSectors s x 1).freeMap) ∨
        ∃ y e, Makes s x size y ∧ Made refs s (madeState s x y size) x y size ∧
          createChain ⟨n.addr⟩ name size stack s = .ok (
            match addSlot s.disk stack name (madeState s x y size).mem with
            | (some i, mem) =>
              ((true, x), { madeState s x y size with
                disk := writeSlot (madeState s x y size).disk i (fillEntry e name x)
                mem := mem })
            | (none, mem) => ((false, x), { madeState s x y size with mem := mem }))) := by
  simp only [createChain, bind_run]
  rcases h.allocate_cases 1 with ⟨x, hx, hrun⟩ | ⟨hno, s', hrun, hi⟩
  · refine .inr ⟨x, hx, ?_⟩
    simp only [hrun, ok_bind, bind_run]
    rcases h.inodeCreate_cases hx h0 h1 with ⟨y, hy, hmk, hmade⟩ | ⟨hno, s', hmk, hi⟩
    · have hmeta := h.fixed_meta hmade.pending.fixed
      obtain ⟨e, hadd⟩ := hmade.pending.inv.add_run (hmade.pending.openInodes.symm ▸ hn) hr name x stack
      rw [addSlot_congr hmeta.slots] at hadd
      refine .inr ⟨y, e, hy, hmade, ?_⟩
      rw [hmk, ok_bind, if_pos rfl]
      simp only [bind_run, hadd, ok_bind]
      rcases addSlot s.disk stack name (madeState s x y size).mem with ⟨_ | i, mem⟩ <;> rfl
    · refine .inl ⟨hno, s', ?_, (h.pending hx).idle h hi, ?_⟩
      · rw [hmk]
        rfl
      · obtain ⟨k, mem, rfl, -⟩ := hi
        rfl
  · refine .inl ⟨hno, s', ?_, hi⟩
    rw [hrun]
    rfl

/-- A negative size stops the kernel once a sector has been taken. -/
theorem Inv.chain_negative (h : Inv s refs) (hneg : size < 0) (dir : Dir) (name : CString)
    (stack : Buffer) :
    ((∃ x, Taken s 1 x) ∧ createChain dir name size stack s = .error .length) ∨
      ((∀ x, ¬ Taken s 1 x) ∧ ∃ s', createChain dir name size stack s = .ok ((false, 0), s') ∧
        Idle s s') := by
  simp only [createChain, bind_run]
  rcases h.allocate_cases 1 with ⟨x, hx, hrun⟩ | ⟨hno, s', hrun, hi⟩
  · have hassert : decide (0 ≤ size) = false := by simpa using hneg
    refine .inl ⟨⟨x, hx⟩, ?_⟩
    simp only [hrun, ok_bind, bind_run, inodeCreate, assert, hassert]
    rfl
  · refine .inr ⟨hno, s', ?_, hi⟩
    rw [hrun]
    rfl

/-! ## The clean-up -/

/-- What the chain and the clean-up leave in place. -/
structure Attempt (refs : Ptr → Nat) (s s' : Fs) : Prop where
  inv : Inv s' refs
  openInodes : s'.openInodes = s.openInodes
  files : s'.files = s.files
  mapFile : s'.freeMapFile = s.freeMapFile
  next : s'.next = s.next
  log : ∃ l, s'.released = s.released ++ l ∧
    ∀ r ∈ l, ∀ t, r.1 ≤ t → t < r.1 + r.2 → bitmapTest s'.freeMap t = false

/-- The sectors of a file that gets a name were free. -/
def Fresh (s s' : Fs) : Prop := ∀ z, Named s'.disk z → ¬ Named s.disk z →
  ∀ t, Extent s'.disk z t → bitmapTest s.freeMap t = false

/-- `inode_create` succeeds with data sectors and `dir_add` fails after it. -/
def Leaks (s : Fs) (name : CString) (size : Int) (stack : Buffer) : Prop :=
  0 < bytesToSectors size ∧ ∃ x y, Taken s 1 x ∧ Makes s x size y ∧
    (addSlot s.disk stack name (madeState s x y size).mem).1 = none

theorem Inv.idle_attempt (h : Inv s refs) (hi : Idle s s') : Attempt refs s s' := by
  have hinv := h.idle hi
  obtain ⟨k, mem, rfl, -⟩ := hi
  exact ⟨hinv, rfl, rfl, rfl, rfl, [], (List.append_nil _).symm, fun r hr => by cases hr⟩

theorem Inv.taken_ne_zero (h : Inv s refs) (hx : Taken s 1 x) : (x != 0) = true := by
  have hfree := hx.free (Nat.le_refl x) (Nat.lt_succ_self x)
  have hmap : bitmapTest s.freeMap 0 = true := h.layout.owns.marked _ _ live_map (.inl rfl)
  refine bne_iff_ne.mpr fun h0 => ?_
  rw [h0, hmap] at hfree
  cases hfree

/-- The inode sector is given back. -/
theorem Pending.release (hp : Pending refs s s' x) (h : Inv s refs) :
    freeMapRelease x 1 s' = .ok ((), releaseSectors s' x 1) ∧
      Attempt refs s (releaseSectors s' x 1) ∧ Fixed s (releaseSectors s' x 1) := by
  have hlt : x + 1 ≤ s'.capacity := by
    have := bitmapTest_lt hp.spare.marked
    rwa [hp.inv.layout.size] at this
  have hinv : Inv (releaseSectors s' x 1) refs := hp.inv.release hlt fun z t hz ht hx => by
    obtain rfl : t = x := by omega
    exact hp.spare.free z hz ht
  have hfrees : Frees s' (releaseSectors s' x 1) :=
    frees_releaseSectors (by rw [hp.inv.layout.size]; exact hlt)
  refine ⟨hp.inv.release_run (fun t h1 h2 => ?_) hlt,
    ⟨hinv, hp.openInodes, hp.files, hp.mapFile, hp.next, ?_⟩, ?_⟩
  · obtain rfl : t = x := by omega
    exact hp.spare.marked
  · rw [← hp.released]
    exact hfrees.log
  · have hfix := h.fixed_trans hp.fixed
      (hp.inv.idle_mapWritten (bitmapSetMultiple s'.freeMap x 1 false))
    exact fun t => hfix t

theorem Pending.ne_root (hp : Pending refs s s' x) : x ≠ (inodeAt s'.disk rootDirSector).start :=
  fun hr => hp.spare.free _ live_root (.inr (hr ▸ hp.inv.layout.rootData))

theorem Made.fresh (hm : Made refs s s' x y size) (h : Inv s refs) {i : Nat} (hi : i < rootEntries)
    {e : Buffer} (he : entrySector e = x) {mem : List Bool} :
    Fresh s { s' with disk := writeSlot s'.disk i e, mem := mem } := by
  have hp := hm.pending
  have hmeta := h.fixed_meta hp.fixed
  intro z hz hno t ht
  rcases hp.inv.layout.writeSlot_named hi hz with hz | ⟨-, hz⟩
  · exact absurd (hmeta.named.mp hz) hno
  · obtain rfl : z = x := hz.trans he
    have hne := hp.ne_root
    have hino : inodeAt (writeSlot s'.disk i e) z = inodeAt s'.disk z := by
      rw [inodeAt, writeSlot_of_ne hi hne]
      rfl
    rw [Extent, show inodeAt _ z = _ from hino, hm.inode] at ht
    rcases ht with rfl | ht
    · exact hp.free
    · exact hm.data_free t ht.1 ht.2

/-- The data sectors of a file that gets no name stay marked. -/
theorem leaks_map (hx : Taken s 1 x) (hy : Makes s x size y) :
    bitmapSetMultiple (madeState s x y size).freeMap x 1 false = s.freeMap ↔
      bytesToSectors size = 0 := by
  show bitmapSetMultiple (bitmapSetMultiple (bitmapSetMultiple s.freeMap x 1 true) y
    (bytesToSectors size) true) x 1 false = s.freeMap ↔ _
  constructor
  · intro heq
    by_contra hpos
    have hle1 : x + 1 ≤ bitmapSize s.freeMap := (bitmapScan_some hx.1).2.1
    have hle2 : y + bytesToSectors size ≤ bitmapSize (bitmapSetMultiple s.freeMap x 1 true) :=
      (bitmapScan_some hy.2.1).2.1
    have hfree : bitmapTest (bitmapSetMultiple s.freeMap x 1 true) y = false :=
      hy.2.free (Nat.le_refl y) (by omega)
    have hne : ¬ (x ≤ y ∧ y < x + 1) := by
      intro hxy
      rw [bitmapTest_setMultiple hle1, if_pos hxy] at hfree
      cases hfree
    rw [bitmapTest_setMultiple hle1, if_neg hne, ← heq,
      bitmapTest_setMultiple (by simpa using hle1), if_neg hne, bitmapTest_setMultiple hle2,
      if_pos (by omega)] at hfree
    cases hfree
  · intro hz
    rw [hz]
    exact bitmapSetMultiple_undo hx.1

theorem Made.lt (hm : Made refs s s' x y size) : x < 2 ^ 32 := by
  have h1 := bitmapTest_lt hm.pending.spare.marked
  rw [hm.pending.inv.layout.size] at h1
  have h2 := s'.lba28
  omega

theorem Made.named (hm : Made refs s s' x y size) {i : Nat} (hi : i < rootEntries) (e : Buffer)
    (name : CString) (mem : List Bool) :
    Attempt refs s { s' with disk := writeSlot s'.disk i (fillEntry e name x), mem := mem } := by
  have hp := hm.pending
  refine ⟨hp.inv.putSlot hi (fun _ => ?_) mem, hp.openInodes, hp.files, hp.mapFile, hp.next, [], ?_,
    fun r hr => by cases hr⟩
  · rw [fillEntry_sector e name hm.lt]
    exact hm.unnamed
  · rw [List.append_nil]
    exact hp.released

/-- **`filesys_create` without the directory**: what it leaves, and when a failure
changes the free map. -/
theorem Inv.attempt (h : Inv s refs) (hn : n ∈ s.openInodes) (hr : n.sector = rootDirSector)
    (h0 : 0 ≤ size) (h1 : size < 2 ^ 31) (name : CString) (stack : Buffer) :
    ∃ ok x s1 s', createChain ⟨n.addr⟩ name size stack s = .ok ((ok, x), s1) ∧
      cleanUp ok x s1 = .ok ((), s') ∧
      Attempt refs s s' ∧ (Leaks s name size stack → ok = false) ∧
      if ok then Fresh s s'
      else Fixed s s' ∧ (s'.freeMap = s.freeMap ↔ ¬ Leaks s name size stack) := by
  rcases h.chain_cases hn hr h0 h1 name stack with ⟨hno, s', hrun, hi⟩ | ⟨x, hx, hcase⟩
  · refine ⟨false, 0, s', s', hrun, rfl, h.idle_attempt hi, fun _ => rfl, hi.fixed, ?_⟩
    have hleak : ¬ Leaks s name size stack := fun ⟨_, x, _, hx, _⟩ => hno x hx
    obtain ⟨k, mem, rfl, -⟩ := hi
    exact ⟨fun _ => hleak, fun _ => rfl⟩
  · have hx0 := h.taken_ne_zero hx
    have huniq : ∀ z, Taken s 1 z → z = x := fun z hz => Option.some.inj (hz.1.symm.trans hx.1)
    rcases hcase with ⟨hno, s1, hrun, hp, hmap⟩ | ⟨y, e, hy, hmade, hrun⟩
    · obtain ⟨hrel, hatt, hfix⟩ := hp.release h
      have hleak : ¬ Leaks s name size stack := by
        rintro ⟨-, z, y, hz, hy, -⟩
        exact hno y (huniq z hz ▸ hy)
      refine ⟨false, x, s1, _, hrun, ?_, hatt, fun _ => rfl, hfix, fun _ => hleak, fun _ => ?_⟩
      · simpa [cleanUp, hx0] using hrel
      · show bitmapSetMultiple s1.freeMap x 1 false = s.freeMap
        rw [hmap]
        exact bitmapSetMultiple_undo hx.1
    · have huniq' : ∀ z, Makes s x size z → z = y := fun z hz =>
        Option.some.inj (hz.2.1.symm.trans hy.2.1)
      cases hadd : addSlot s.disk stack name (madeState s x y size).mem with
      | mk o mem =>
        rw [hadd] at hrun
        cases o with
        | some i =>
          have hi := addSlot_lt hadd
          have hleak : ¬ Leaks s name size stack := by
            rintro ⟨-, z, y', hz, hy', hnone⟩
            obtain rfl := huniq z hz
            obtain rfl := huniq' y' hy'
            rw [hadd] at hnone
            cases hnone
          refine ⟨true, x, _, _, hrun, rfl, hmade.named hi e name mem, fun hl => absurd hl hleak, ?_⟩
          exact hmade.fresh h hi (fillEntry_sector e name hmade.lt)
        | none =>
          have hp := hmade.pending.idle h (idle_setMem _ mem)
          obtain ⟨hrel, hatt, hfix⟩ := hp.release h
          refine ⟨false, x, _, _, hrun, ?_, hatt, fun _ => rfl, hfix, ?_⟩
          · simpa [cleanUp, hx0] using hrel
          · refine (leaks_map hx hy).trans ⟨fun hz hl => ?_, fun hl => ?_⟩
            · exact Nat.lt_irrefl _ (hz ▸ hl.1)
            · by_contra hpos
              exact hl ⟨by omega, x, y, hx, hy, by rw [hadd]⟩

end

end Pintos.Filesys
