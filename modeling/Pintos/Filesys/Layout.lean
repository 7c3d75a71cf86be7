import Pintos.Base.Owns
import Pintos.Filesys.Filesys

/-!
# Who owns which sector

The inodes and directory entries read off the disk, and the invariant that ties
them to the free map: the inode sector and the data sectors of the free map file,
of the root directory, of every file with a name and of every open file are marked
and belong to one of them each.
-/

namespace Pintos.Filesys

open Pintos.Base Pintos.Kernel

/-- The inode in a sector. -/
def inodeAt (k : Disk) (x : Nat) : DiskInode := decodeInode (k x)

/-- The data sectors of the inode. -/
def DataSector (d : DiskInode) (t : Nat) : Prop :=
  d.start ≤ t ∧ t < d.start + bytesToSectors d.length

/-- The sectors of the file whose inode is in `x`. -/
def Extent (k : Disk) (x t : Nat) : Prop := t = x ∨ DataSector (inodeAt k x) t

/-- The slot `i` of the root directory. -/
def slot (k : Disk) (i : Nat) : Buffer :=
  fun j => fileByte k (inodeAt k rootDirSector).start (entrySize * i + j)

/-- The root directory has an entry for the inode in `x`. -/
def Named (k : Disk) (x : Nat) : Prop :=
  ∃ i < rootEntries, entryInUse (slot k i) = true ∧ entrySector (slot k i) = x

/-- The inode in `x` belongs to the file system, a named file or an open one. -/
def Live (k : Disk) (opened : Nat → Prop) (x : Nat) : Prop :=
  x = freeMapSector ∨ x = rootDirSector ∨ Named k x ∨ opened x

structure Layout (capacity : Nat) (k : Disk) (map : Bitmap) (opened : Nat → Prop) : Prop where
  size : bitmapSize map = capacity
  map_length : (inodeAt k freeMapSector).length = (byteCnt capacity : Nat)
  root_length : (inodeAt k rootDirSector).length = (rootEntries * entrySize : Nat)
  length_nonneg : ∀ x, Live k opened x → 0 ≤ (inodeAt k x).length
  data_le : ∀ x, Live k opened x →
    (inodeAt k x).start + bytesToSectors (inodeAt k x).length ≤ capacity
  owns : Owns (Live k opened) (Extent k) fun t => bitmapTest map t = true
  own_data : ∀ x, Live k opened x → ¬ DataSector (inodeAt k x) x
  slot_inj : ∀ i j, i < rootEntries → j < rootEntries → entryInUse (slot k i) = true →
    entryInUse (slot k j) = true → entrySector (slot k i) = entrySector (slot k j) → i = j
  slot_ne : ∀ i, i < rootEntries → entryInUse (slot k i) = true →
    entrySector (slot k i) ≠ freeMapSector ∧ entrySector (slot k i) ≠ rootDirSector

theorem entrySector_congr {e e' : Buffer} (h : ∀ j < entrySize, e j = e' j) :
    entrySector e = entrySector e' := by
  unfold entrySize at h
  exact load32_congr fun k hk => h _ (by omega)

theorem entryInUse_congr {e e' : Buffer} (h : ∀ j < entrySize, e j = e' j) :
    entryInUse e = entryInUse e' := by
  unfold entryInUse
  rw [h 19 (by decide)]

theorem inodeAt_length_lt (k : Disk) (x : Nat) : (inodeAt k x).length < 2 ^ 31 := by
  have := load32_lt (k x) 4
  simp only [inodeAt, decodeInode, asInt32]
  split <;> omega

section

variable {capacity : Nat} {k k' : Disk} {map map' : Bitmap} {opened opened' : Nat → Prop} {x y t : Nat}

theorem live_map : Live k opened freeMapSector := .inl rfl

theorem live_root : Live k opened rootDirSector := .inr (.inl rfl)

/-- A byte of the file lies in one of its data sectors. -/
theorem dataSector_of_lt (h0 : 0 ≤ (inodeAt k x).length) {pos : Nat}
    (hpos : (pos : Int) < (inodeAt k x).length) :
    DataSector (inodeAt k x) ((inodeAt k x).start + pos / 512) := by
  have := le_bytesToSectors h0 (inodeAt_length_lt k x)
  unfold sectorSize at this
  exact ⟨by omega, by omega⟩

theorem Layout.dataSector (h : Layout capacity k map opened) (hx : Live k opened x) {pos : Nat}
    (hpos : (pos : Int) < (inodeAt k x).length) :
    DataSector (inodeAt k x) ((inodeAt k x).start + pos / 512) :=
  dataSector_of_lt (h.length_nonneg x hx) hpos

theorem Layout.onDisk (h : Layout capacity k map opened) (hx : Live k opened x) :
    OnDisk capacity (inodeAt k x) := fun pos hpos => by
  have := bitmapTest_lt (h.owns.marked x _ hx (.inr (h.dataSector hx hpos)))
  rwa [h.size] at this

theorem Layout.lt (h : Layout capacity k map opened) (hx : Live k opened x) : x < capacity := by
  have := bitmapTest_lt (h.owns.marked x x hx (.inl rfl))
  rwa [h.size] at this

/-- No inode lies in the data of a file. -/
theorem Layout.not_data (h : Layout capacity k map opened) (hx : Live k opened x)
    (hy : Live k opened y) : ¬ DataSector (inodeAt k y) x := by
  intro hd
  obtain rfl := h.owns.disjoint x y x hx hy (.inl rfl) (.inr hd)
  exact h.own_data x hx hd

/-- The slots lie in the first data sector of the root directory. -/
theorem slot_eq {i j : Nat} (hi : i < rootEntries) (hj : j < entrySize) :
    slot k i j = k (inodeAt k rootDirSector).start (entrySize * i + j) := by
  unfold rootEntries entrySize at *
  unfold slot fileByte entrySize
  rw [show (20 * i + j) / 512 = 0 by omega, show (20 * i + j) % 512 = 20 * i + j by omega,
    Nat.add_zero]

/-! ## Changes of the disk -/

/-- The inodes of the live files and the root directory are as they were. -/
structure SameMeta (k k' : Disk) (opened : Nat → Prop) : Prop where
  inode : ∀ x, Live k opened x → inodeAt k' x = inodeAt k x
  slots : ∀ i < rootEntries, ∀ j < entrySize, slot k' i j = slot k i j

theorem SameMeta.named (h : SameMeta k k' opened) : Named k' x ↔ Named k x := by
  refine exists_congr fun i => and_congr_right fun hi => ?_
  rw [entryInUse_congr (h.slots i hi), entrySector_congr (h.slots i hi)]

theorem SameMeta.live (h : SameMeta k k' opened) : Live k' opened' x ↔ Live k opened' x := by
  unfold Live
  rw [h.named]

/-- **Frame**: the layout depends on the inodes and the slots only. -/
theorem Layout.frame (h : Layout capacity k map opened) (hs : SameMeta k k' opened) :
    Layout capacity k' map opened where
  size := h.size
  map_length := by
    rw [hs.inode _ live_map]
    exact h.map_length
  root_length := by
    rw [hs.inode _ live_root]
    exact h.root_length
  length_nonneg x hx := by
    rw [hs.live] at hx
    rw [hs.inode x hx]
    exact h.length_nonneg x hx
  data_le x hx := by
    rw [hs.live] at hx
    rw [hs.inode x hx]
    exact h.data_le x hx
  owns := by
    refine h.owns.mono (fun x => hs.live.mp) (fun x t hx ht => ?_) fun _ => id
    rwa [Extent, hs.inode x (hs.live.mp hx)] at ht
  own_data x hx := by
    rw [hs.live] at hx
    rw [hs.inode x hx]
    exact h.own_data x hx
  slot_inj i j hi hj := by
    rw [entryInUse_congr (hs.slots i hi), entryInUse_congr (hs.slots j hj),
      entrySector_congr (hs.slots i hi), entrySector_congr (hs.slots j hj)]
    exact h.slot_inj i j hi hj
  slot_ne i hi := by
    rw [entryInUse_congr (hs.slots i hi), entrySector_congr (hs.slots i hi)]
    exact h.slot_ne i hi

/-- Sectors outside the inodes of live files and outside the directory can change. -/
theorem SameMeta.of_sectors (hi : ∀ x, Live k opened x → ∀ i < 512, k' x i = k x i)
    (hr : ∀ i < 512, k' (inodeAt k rootDirSector).start i = k (inodeAt k rootDirSector).start i) :
    SameMeta k k' opened := by
  have hino : ∀ x, Live k opened x → inodeAt k' x = inodeAt k x := fun x hx =>
    decodeInode_congr (hi x hx)
  refine ⟨hino, fun i hi j hj => ?_⟩
  rw [slot_eq hi hj, slot_eq hi hj, hino _ live_root]
  apply hr _
  unfold rootEntries entrySize at *
  omega

theorem Layout.rootData (h : Layout capacity k map opened) :
    DataSector (inodeAt k rootDirSector) (inodeAt k rootDirSector).start :=
  have hpos : ((0 : Nat) : Int) < (inodeAt k rootDirSector).length := by
    rw [h.root_length]
    decide
  h.dataSector live_root hpos

/-- A write into the data of a file other than the root directory. -/
theorem Layout.write (h : Layout capacity k map opened) (hy : Live k opened y)
    (hne : y ≠ rootDirSector) {size offset n : Nat} (b : Buffer)
    (hn : n ≤ ioLen (inodeAt k y) size offset) :
    SameMeta k (splice k (inodeAt k y).start offset n b) opened := by
  have hout : ∀ x, ¬ DataSector (inodeAt k y) x →
      splice k (inodeAt k y).start offset n b x = k x := by
    intro x hx
    refine splice_untouched fun pos h1 h2 hp => hx ?_
    rw [hp]
    exact h.dataSector hy (by unfold ioLen at hn; omega)
  refine .of_sectors (fun x hx i _ => ?_) fun i _ => ?_
  · rw [hout x (h.not_data hx hy)]
  · rw [hout]
    intro hd
    exact hne (h.owns.disjoint _ _ _ hy live_root (.inr hd) (.inr h.rootData))

/-! ## Changes of the free map -/

/-- Sectors are taken. -/
theorem Layout.mark (h : Layout capacity k map opened) (hs : bitmapSize map' = capacity)
    (hm : ∀ t, bitmapTest map t = true → bitmapTest map' t = true) :
    Layout capacity k map' opened :=
  { h with size := hs, owns := h.owns.mono (fun _ => id) (fun _ _ _ => id) hm }

/-- Sectors of no live file are released. -/
theorem Layout.release (h : Layout capacity k map opened) (hs : bitmapSize map' = capacity)
    (hm : ∀ x t, Live k opened x → Extent k x t → bitmapTest map' t = bitmapTest map t) :
    Layout capacity k map' opened :=
  { h with
    size := hs
    owns := { marked := fun x t hx ht => (hm x t hx ht).trans (h.owns.marked x t hx ht)
              disjoint := h.owns.disjoint } }

/-- Files are opened and closed. -/
theorem Layout.reopen (h : Layout capacity k map opened)
    (ho : ∀ x, opened' x → Live k opened x) : Layout capacity k map opened' := by
  have hl : ∀ x, Live k opened' x → Live k opened x := by
    rintro x (h1 | h1 | h1 | h1)
    · exact .inl h1
    · exact .inr (.inl h1)
    · exact .inr (.inr (.inl h1))
    · exact ho x h1
  exact { h with
    length_nonneg := fun x hx => h.length_nonneg x (hl x hx)
    data_le := fun x hx => h.data_le x (hl x hx)
    owns := h.owns.mono hl (fun _ _ _ => id) fun _ => id
    own_data := fun x hx => h.own_data x (hl x hx) }

/-! ## A slot of the root directory is written -/

/-- The disk after the entry `e` is written to the slot `i`. -/
def writeSlot (k : Disk) (i : Nat) (e : Buffer) : Disk :=
  splice k (inodeAt k rootDirSector).start (entrySize * i) entrySize e

theorem writeSlot_of_ne {i : Nat} {e : Buffer} (hi : i < rootEntries)
    (hx : x ≠ (inodeAt k rootDirSector).start) : writeSlot k i e x = k x := by
  refine splice_untouched fun pos h1 h2 hp => hx ?_
  unfold rootEntries entrySize at *
  omega

theorem Layout.writeSlot_inode (h : Layout capacity k map opened) {i : Nat} {e : Buffer}
    (hi : i < rootEntries) (hx : Live k opened x) : inodeAt (writeSlot k i e) x = inodeAt k x := by
  have hne : x ≠ (inodeAt k rootDirSector).start := fun he =>
    h.not_data hx live_root (he ▸ h.rootData)
  rw [inodeAt, writeSlot_of_ne hi hne]
  rfl

theorem Layout.writeSlot_slot (h : Layout capacity k map opened) {i i' j : Nat} {e : Buffer}
    (hi : i < rootEntries) (hi' : i' < rootEntries) (hj : j < entrySize) :
    slot (writeSlot k i e) i' j = if i' = i then e j else slot k i' j := by
  rw [slot_eq hi' hj, slot_eq hi' hj, h.writeSlot_inode hi live_root, writeSlot, Filesys.splice]
  unfold rootEntries entrySize at *
  by_cases hii : i' = i
  · subst hii
    rw [if_pos (by omega), if_pos rfl]
    congr 1
    omega
  · rw [if_neg (by omega), if_neg hii]

/-- What a slot says after the write. -/
theorem Layout.writeSlot_entry (h : Layout capacity k map opened) {i i' : Nat} {e : Buffer}
    (hi : i < rootEntries) (hi' : i' < rootEntries) :
    entryInUse (slot (writeSlot k i e) i') = (if i' = i then entryInUse e else entryInUse (slot k i')) ∧
      entrySector (slot (writeSlot k i e) i') =
        if i' = i then entrySector e else entrySector (slot k i') := by
  by_cases hii : i' = i
  · have hs : ∀ j < entrySize, slot (writeSlot k i e) i' j = e j := fun j hj => by
      rw [h.writeSlot_slot hi hi' hj, if_pos hii]
    rw [entryInUse_congr hs, entrySector_congr hs, if_pos hii, if_pos hii]
    exact ⟨rfl, rfl⟩
  · have hs : ∀ j < entrySize, slot (writeSlot k i e) i' j = slot k i' j := fun j hj => by
      rw [h.writeSlot_slot hi hi' hj, if_neg hii]
    rw [entryInUse_congr hs, entrySector_congr hs, if_neg hii, if_neg hii]
    exact ⟨rfl, rfl⟩

theorem Layout.writeSlot_named (h : Layout capacity k map opened) {i : Nat} {e : Buffer}
    (hi : i < rootEntries) (hx : Named (writeSlot k i e) x) :
    Named k x ∨ entryInUse e = true ∧ x = entrySector e := by
  obtain ⟨i', hi', hu, hs⟩ := hx
  obtain ⟨e1, e2⟩ := h.writeSlot_entry (e := e) hi hi'
  rw [e1] at hu
  rw [e2] at hs
  by_cases hii : i' = i
  · rw [if_pos hii] at hu hs
    exact .inr ⟨hu, hs.symm⟩
  · rw [if_neg hii] at hu hs
    exact .inl ⟨i', hi', hu, hs⟩

theorem Layout.writeSlot_live (h : Layout capacity k map opened) {i : Nat} {e : Buffer}
    (hi : i < rootEntries) (hx : Live (writeSlot k i e) opened x) :
    Live k opened x ∨ entryInUse e = true ∧ x = entrySector e := by
  rcases hx with h1 | h1 | h1 | h1
  · exact .inl (.inl h1)
  · exact .inl (.inr (.inl h1))
  · exact (h.writeSlot_named hi h1).imp_left fun h1 => .inr (.inr (.inl h1))
  · exact .inl (.inr (.inr (.inr h1)))

/-- The file of a slot that is erased has no name after it. -/
theorem Layout.erase_unnamed (h : Layout capacity k map opened) {i : Nat} {e : Buffer}
    (hi : i < rootEntries) (hu : entryInUse (slot k i) = true) (he : entryInUse e = false) :
    ¬ Named (writeSlot k i e) (entrySector (slot k i)) := by
  rintro ⟨i', hi', hu', hs'⟩
  obtain ⟨e1, e2⟩ := h.writeSlot_entry (e := e) hi hi'
  rw [e1] at hu'
  rw [e2] at hs'
  by_cases hii : i' = i
  · rw [if_pos hii, he] at hu'
    cases hu'
  · rw [if_neg hii] at hu' hs'
    exact hii (h.slot_inj i' i hi' hi hu' hu hs')

/-- A file that can be given a name: its sectors are marked and belong to no one. -/
structure Unnamed (capacity : Nat) (k : Disk) (map : Bitmap) (opened : Nat → Prop) (z : Nat) :
    Prop where
  length_nonneg : 0 ≤ (inodeAt k z).length
  data_le : (inodeAt k z).start + bytesToSectors (inodeAt k z).length ≤ capacity
  marked : ∀ t, Extent k z t → bitmapTest map t = true
  disjoint : ∀ x t, Live k opened x → Extent k x t → ¬ Extent k z t
  own_data : ¬ DataSector (inodeAt k z) z

/-- **A slot is written**: an entry for a file without a name, or an entry not in use. -/
theorem Layout.putSlot (h : Layout capacity k map opened) {i : Nat} {e : Buffer}
    (hi : i < rootEntries)
    (hz : entryInUse e = true → Unnamed capacity k map opened (entrySector e)) :
    Layout capacity (writeSlot k i e) map opened := by
  have hlive : ∀ x, Live (writeSlot k i e) opened x → Live k opened x ∨ x = entrySector e :=
    fun x hx => (h.writeSlot_live hi hx).imp_right And.right
  have hne : ∀ x, Live (writeSlot k i e) opened x → x ≠ (inodeAt k rootDirSector).start := by
    intro x hx hr
    rcases h.writeSlot_live hi hx with hx | ⟨hu, rfl⟩
    · exact h.not_data hx live_root (hr ▸ h.rootData)
    · exact (hz hu).disjoint _ _ live_root (.inr h.rootData) (.inl hr.symm)
  have hino : ∀ x, Live (writeSlot k i e) opened x →
      inodeAt (writeSlot k i e) x = inodeAt k x := by
    intro x hx
    rw [inodeAt, writeSlot_of_ne hi (hne x hx)]
    rfl
  have hnew : ∀ {x}, Live k opened x → entryInUse e = true → entrySector e ≠ x := by
    rintro x hx hu rfl
    exact (hz hu).disjoint _ _ hx (.inl rfl) (.inl rfl)
  refine ⟨h.size, ?_, ?_, fun x hx => ?_, fun x hx => ?_, ?_, fun x hx => ?_, ?_, ?_⟩
  · rw [hino _ live_map]
    exact h.map_length
  · rw [hino _ live_root]
    exact h.root_length
  · rw [hino x hx]
    rcases h.writeSlot_live hi hx with hx | ⟨hu, rfl⟩
    · exact h.length_nonneg x hx
    · exact (hz hu).length_nonneg
  · rw [hino x hx]
    rcases h.writeSlot_live hi hx with hx | ⟨hu, rfl⟩
    · exact h.data_le x hx
    · exact (hz hu).data_le
  · have howns : Owns (Live (writeSlot k i e) opened) (Extent k) fun t => bitmapTest map t = true := by
      by_cases hu : entryInUse e = true
      · exact h.owns.insert (hz hu).marked (hz hu).disjoint hlive
      · refine h.owns.mono (fun x hx => ?_) (fun _ _ _ => id) fun _ => id
        exact (h.writeSlot_live hi hx).resolve_right fun hx => hu hx.1
    refine howns.mono (fun _ => id) (fun x t hx ht => ?_) fun _ => id
    rwa [Extent, hino x hx] at ht
  · rw [hino x hx]
    rcases h.writeSlot_live hi hx with hx | ⟨hu, rfl⟩
    · exact h.own_data x hx
    · exact (hz hu).own_data
  · intro i' j' hi' hj'
    rw [(h.writeSlot_entry hi hi').1, (h.writeSlot_entry hi hi').2, (h.writeSlot_entry hi hj').1,
      (h.writeSlot_entry hi hj').2]
    by_cases h1 : i' = i <;> by_cases h2 : j' = i
    · intro _ _ _
      rw [h1, h2]
    · rw [if_pos h1, if_neg h2, if_pos h1, if_neg h2]
      exact fun hu hu' he => absurd he (hnew (.inr (.inr (.inl ⟨j', hj', hu', rfl⟩))) hu)
    · rw [if_neg h1, if_pos h2, if_neg h1, if_pos h2]
      exact fun hu hu' he => absurd he.symm (hnew (.inr (.inr (.inl ⟨i', hi', hu, rfl⟩))) hu')
    · rw [if_neg h1, if_neg h2, if_neg h1, if_neg h2]
      exact h.slot_inj i' j' hi' hj'
  · intro i' hi'
    rw [(h.writeSlot_entry hi hi').1, (h.writeSlot_entry hi hi').2]
    by_cases h1 : i' = i
    · rw [if_pos h1, if_pos h1]
      exact fun hu => ⟨hnew live_map hu, hnew live_root hu⟩
    · rw [if_neg h1, if_neg h1]
      exact h.slot_ne i' hi'

end

end Pintos.Filesys
