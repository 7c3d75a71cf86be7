import Pintos.Filesys.Calls

/-!
# Formatting

`filesys_init` on a disk that is to be formatted: the free map file and the root
directory are made before the invariant of the file system holds, and the free map
is read back from the file it has been written to.
-/

namespace Pintos.Filesys

open Pintos.Base Pintos.Kernel

/-! ## The free map in its file -/

theorem testBit_bitmapBytes (b : Bitmap) (i : Nat) :
    (bitmapBytes b (i / 8)).toNat.testBit (i % 8) = bitmapTest b i := by
  have hlt : Nat.ofBits (fun j : Fin 8 => bitmapTest b (8 * (i / 8) + j)) < 2 ^ 8 :=
    Nat.ofBits_lt_two_pow _
  unfold bitmapBytes
  rw [UInt8.toNat_ofNat', Nat.mod_eq_of_lt hlt, Nat.testBit_ofBits_lt _ _ (Nat.mod_lt i (by decide))]
  congr 1
  exact Nat.div_add_mod i 8

/-- A bitmap read back from the bytes it was written to. -/
theorem bitmapOfBytes_eq {b : Bitmap} {n : Nat} {buffer : Buffer} (hn : bitmapSize b = n)
    (h : ∀ k < byteCnt n, buffer k = bitmapBytes b k) : bitmapOfBytes n buffer = b := by
  have hsize : bitmapSize (bitmapOfBytes n buffer) = n := by
    simp [bitmapSize, bitmapOfBytes]
  refine bitmap_ext (hsize.trans hn.symm) fun i hi => ?_
  rw [hsize] at hi
  have hk : i / 8 < byteCnt n := by
    unfold byteCnt
    omega
  have htest : bitmapTest (bitmapOfBytes n buffer) i = (buffer (i / 8)).toNat.testBit (i % 8) := by
    simp [bitmapTest, bitmapOfBytes, List.getD_eq_getElem?_getD, hi]
  rw [htest, h _ hk, testBit_bitmapBytes]

theorem fileByte_splice {k : Disk} {start n pos : Nat} {b : Buffer} (h : pos < n) :
    fileByte (splice k start 0 n b) start pos = b pos := by
  unfold fileByte splice
  rw [if_pos (by omega)]
  congr 1
  omega

/-! ## The stages of the format -/

/-- The free map file is on the disk. -/
structure MapMade (s : Fs) : Prop where
  size : bitmapSize s.freeMap = s.capacity
  system : bitmapTest s.freeMap freeMapSector = true ∧ bitmapTest s.freeMap rootDirSector = true
  length : (inodeAt s.disk freeMapSector).length = (byteCnt s.capacity : Nat)
  data_le : (inodeAt s.disk freeMapSector).start +
    bytesToSectors (inodeAt s.disk freeMapSector).length ≤ s.capacity
  data : ∀ t, DataSector (inodeAt s.disk freeMapSector) t →
    bitmapTest s.freeMap t = true ∧ t ≠ freeMapSector ∧ t ≠ rootDirSector

/-- It holds the free map. -/
def Stored (s : Fs) : Prop := ∀ pos < byteCnt s.capacity,
  fileByte s.disk (inodeAt s.disk freeMapSector).start pos = bitmapBytes s.freeMap pos

/-- The free map file is the only open file. -/
structure MapHeld (s : Fs) (n : Inode) (f : File) : Prop where
  inodes : s.openInodes = [n]
  files : s.files = [f]
  mapFile : s.freeMapFile = some f.addr
  inode : f.inode = n.addr
  file_deny : f.denyWrite = false
  sector : n.sector = freeMapSector
  count : n.openCnt = 1
  kept : n.removed = false
  deny : n.denyWriteCnt = 0
  data : n.data = inodeAt s.disk freeMapSector
  fresh : n.addr < s.next ∧ f.addr < s.next

/-- The root directory is on the disk and empty. -/
structure RootMade (s : Fs) : Prop where
  length : (inodeAt s.disk rootDirSector).length = (rootEntries * entrySize : Nat)
  data_le : (inodeAt s.disk rootDirSector).start +
    bytesToSectors (inodeAt s.disk rootDirSector).length ≤ s.capacity
  data : ∀ t, DataSector (inodeAt s.disk rootDirSector) t → bitmapTest s.freeMap t = true ∧
    t ≠ freeMapSector ∧ t ≠ rootDirSector ∧ ¬ DataSector (inodeAt s.disk freeMapSector) t
  empty : ∀ i < rootEntries, entryInUse (slot s.disk i) = false

/-- Nothing is open. -/
structure Closed (s : Fs) : Prop where
  inodes : s.openInodes = []
  files : s.files = []

/-- The kernel before `filesys_init`. -/
def bootState (capacity : Nat) (lba28 : capacity ≤ 2 ^ 28) (disk : Disk) (mem : List Bool) : Fs :=
  { capacity, lba28, disk, freeMap := bitmapCreate 0, freeMapFile := none, openInodes := [],
    files := [], next := 1, mem, released := [] }

/-- The precondition of a program that may stop with any error. -/
abbrev IfOk {α : Type} (m : M α) (Q : α → Fs → Prop) (s : Fs) : Prop := Wp (fun _ => True) m Q s

section

variable {s s' : Fs} {n : Inode} {f : File}

theorem MapMade.onDisk (h : MapMade s) : OnDisk s.capacity (inodeAt s.disk freeMapSector) := by
  intro pos hpos
  have hlen := le_bytesToSectors (h.length ▸ Int.natCast_nonneg _)
    (inodeAt_length_lt s.disk freeMapSector)
  have hle := h.data_le
  unfold sectorSize at hlen
  omega

theorem MapHeld.mapOpen (h : MapHeld s n f) (hm : OnDisk s.capacity (inodeAt s.disk freeMapSector))
    (hsize : bitmapSize s.freeMap = s.capacity) : MapOpen s f.addr := by
  refine ⟨⟨f, n, ?_, ?_, h.deny, h.data⟩, hm, hsize⟩
  · rw [Fs.file?, h.files, List.find?_cons_of_pos (by simp)]
  · rw [Fs.inode?, h.inodes, List.find?_cons_of_pos (by simp [h.inode])]

theorem diskWrite_ifOk (x : Nat) (b : Buffer) :
    IfOk (diskWrite x b) (fun _ s' => x < s.capacity ∧ s' = { s with disk := writeSector s.disk x b }) s := by
  by_cases hx : x < s.capacity
  · exact (wp_of_ok (diskWrite_run hx b)).mpr ⟨hx, rfl⟩
  · refine (wp_of_error (x := Panic.capacity) ?_).mpr trivial
    simp only [diskWrite, selectSector, bind_run, get_run, ok_bind, assert, decide_eq_false hx]
    rfl

/-- `inode_create`, from what `free_map_allocate` does. -/
theorem inodeCreate_ifOk {x : Nat} {length : Int} (h0 : 0 ≤ length)
    (ha : ∀ y s1, freeMapAllocate (bytesToSectors length) { s with mem := s.mem.tail } = .ok (some y, s1) →
      y + bytesToSectors length ≤ s1.capacity) :
    IfOk (inodeCreate x length) (fun ok s' => ok = true → ∃ y s1, x < s1.capacity ∧
      freeMapAllocate (bytesToSectors length) { s with mem := s.mem.tail } = .ok (some y, s1) ∧
      s' = { s1 with disk := newFile s1.disk x y length }) s := by
  have hassert : decide (0 ≤ length) = true := by simpa using h0
  rw [IfOk, inodeCreate, wp_bind, wp_of_ok (assert_run hassert _ s), wp_bind, wp_of_ok (malloc_run s)]
  cases s.mem.headD true
  · exact wp_pure.mpr fun h => by cases h
  · rw [if_pos rfl, wp_bind]
    cases hrun : freeMapAllocate (bytesToSectors length) { s with mem := s.mem.tail } with
    | error e => exact (wp_of_error hrun).mpr trivial
    | ok r =>
      obtain ⟨_ | y, s1⟩ := r
      · exact (wp_of_ok hrun).mpr (wp_pure.mpr fun h => by cases h)
      · refine (wp_of_ok hrun).mpr ((diskWrite_ifOk _ _).bind fun _ s2 hs2 => ?_)
        obtain ⟨hx, rfl⟩ := hs2
        have hzero := zeroSectors_run (bytesToSectors length) (y := y)
          (s := { s1 with disk := writeSector s1.disk x (encodeInode ⟨y, length, inodeMagic⟩) })
          (ha y s1 hrun)
        rw [wp_bind, wp_of_ok hzero]
        exact wp_pure.mpr fun _ => ⟨y, s1, hx, rfl, rfl⟩

theorem fileOpen_ifOk (p : Ptr) :
    IfOk (fileOpen (some p)) (fun o s' => o = none ∨ o = some s.next ∧ s' = addFile s p) s := by
  rw [IfOk, fileOpen, wp_bind, wp_of_ok (malloc_run s)]
  cases s.mem.headD true
  · refine wp_bind.mpr (Wp.mono ⟨fun _ _ _ => trivial, fun _ _ => trivial⟩ fun _ _ _ => ?_)
    exact wp_pure.mpr (.inl rfl)
  · exact (wp_of_ok rfl).mpr (.inr ⟨rfl, rfl⟩)

/-- `free_map_file = file_open (inode_open (FREE_MAP_SECTOR))` when nothing is open. -/
theorem openFreeMapFile_ifOk (h : Closed s) (hcap : freeMapSector < s.capacity) :
    IfOk openFreeMapFile (fun p s' => s'.disk = s.disk ∧ s'.freeMap = s.freeMap ∧
      s'.capacity = s.capacity ∧ s'.released = s.released ∧
      ∃ n f, MapHeld s' n f ∧ p = f.addr) s := by
  have hfind : s.openInodes.find? (fun n => n.sector == freeMapSector) = none := by
    rw [h.inodes]
    rfl
  have hread := diskRead_run (s := { s with mem := s.mem.tail, next := s.next + 1 }) hcap
  have hopen : inodeOpen freeMapSector s = .ok (
      if s.mem.headD true then (some s.next, loadInode s freeMapSector)
      else (none, { s with mem := s.mem.tail })) := by
    simp only [inodeOpen, bind_run, get_run, ok_bind, hfind, malloc_run]
    cases s.mem.headD true
    · rfl
    · rw [if_pos rfl, if_pos rfl]
      simp only [bind_run, newAddr_run, ok_bind, hread]
      rfl
  rw [IfOk, openFreeMapFile, wp_bind]
  cases hm : s.mem.headD true
  · rw [hm, if_neg Bool.false_ne_true] at hopen
    exact (wp_of_ok hopen).mpr (wp_bind.mpr ((wp_of_ok rfl).mpr (wp_throw.mpr trivial)))
  · rw [hm, if_pos rfl] at hopen
    refine (wp_of_ok hopen).mpr ((fileOpen_ifOk s.next).bind fun o s1 hs1 => ?_)
    rcases hs1 with rfl | ⟨rfl, rfl⟩
    · exact wp_throw.mpr trivial
    · refine wp_bind.mpr (wp_modify.mpr (wp_pure.mpr ⟨rfl, rfl, rfl, rfl,
        ⟨s.next, freeMapSector, 1, false, 0, inodeAt s.disk freeMapSector⟩,
        ⟨s.next + 1, s.next, 0, false⟩, ⟨?_, ?_, rfl, rfl, rfl,
        rfl, rfl, rfl, rfl, rfl, ?_, ?_⟩, rfl⟩))
      · show _ :: s.openInodes = _
        rw [h.inodes]
      · show _ :: s.files = _
        rw [h.files]
        rfl
      · exact Nat.lt_succ_of_lt (Nat.lt_succ_self s.next)
      · exact Nat.lt_succ_self (s.next + 1)

/-- The free map with the two system sectors marked. -/
def bootMap (capacity : Nat) : Bitmap :=
  bitmapSet (bitmapSet (bitmapCreate capacity) freeMapSector true) rootDirSector true

theorem bootMap_size (capacity : Nat) : bitmapSize (bootMap capacity) = capacity := by
  simp [bootMap]

theorem bootMap_test {capacity : Nat} (h0 : freeMapSector < capacity) (h1 : rootDirSector < capacity) :
    bitmapTest (bootMap capacity) freeMapSector = true ∧
      bitmapTest (bootMap capacity) rootDirSector = true := by
  constructor
  · rw [bootMap, bitmapTest_set (by simpa using h1), if_neg (by decide),
      bitmapTest_set (by simpa using h0), if_pos rfl]
  · rw [bootMap, bitmapTest_set (by simpa using h1), if_pos rfl]

/-- A sector found free on a disk before the format has room for both system sectors. -/
theorem bootMap_free {capacity t : Nat} (ht : t < capacity)
    (hfree : bitmapTest (bootMap capacity) t = false) :
    freeMapSector < capacity ∧ rootDirSector < capacity ∧ t ≠ freeMapSector ∧ t ≠ rootDirSector := by
  have hone : rootDirSector < capacity := by
    by_contra hle
    have hzero : t = freeMapSector := by
      unfold rootDirSector freeMapSector at *
      omega
    have hset : bootMap capacity = bitmapSet (bitmapCreate capacity) freeMapSector true := by
      unfold bootMap bitmapSet
      rw [List.set_eq_of_length_le]
      simpa [bitmapCreate] using hle
    rw [hset, bitmapTest_set (by rw [bitmapSize_create]; omega), if_pos hzero] at hfree
    cases hfree
  have hzero : freeMapSector < capacity := by
    unfold rootDirSector freeMapSector at *
    omega
  obtain ⟨h0, h1⟩ := bootMap_test hzero hone
  refine ⟨hzero, hone, ?_, ?_⟩
  · rintro rfl
    rw [h0] at hfree
    cases hfree
  · rintro rfl
    rw [h1] at hfree
    cases hfree

theorem MapMade.nonneg (h : MapMade s) : 0 ≤ (inodeAt s.disk freeMapSector).length :=
  h.length ▸ Int.natCast_nonneg _

theorem MapMade.inode_written (h : MapMade s) (map : Bitmap) :
    inodeAt (mapWritten s map).disk freeMapSector = inodeAt s.disk freeMapSector := by
  rw [inodeAt, mapWritten_of_not_data h.nonneg map fun hd => (h.data _ hd).2.1 rfl]
  rfl

theorem MapMade.written (h : MapMade s) (map : Bitmap) : MapMade (mapWritten s map) := by
  have hi := h.inode_written map
  exact ⟨h.size, h.system, hi.symm ▸ h.length, hi.symm ▸ h.data_le, hi.symm ▸ h.data⟩

/-- The whole map has been written. -/
theorem mapWritten_stored (hok : mapWriteOk s = true) (map : Bitmap) :
    ∀ pos < byteCnt s.capacity,
      fileByte (mapWritten s map).disk (inodeAt s.disk freeMapSector).start pos = bitmapBytes map pos := by
  intro pos hpos
  have hall : (mapTransfer s).1 = byteCnt s.capacity := by simpa [mapWriteOk] using hok
  unfold mapWritten
  exact fileByte_splice (hall.symm ▸ hpos)

theorem byteCnt_lt {capacity : Nat} (h : capacity ≤ 2 ^ 28) : ((byteCnt capacity : Nat) : Int) < 2 ^ 31 := by
  unfold byteCnt
  omega

theorem byteCnt_sectors {capacity : Nat} (h : capacity ≤ 2 ^ 28) (hc : 0 < capacity) :
    0 < bytesToSectors (byteCnt capacity : Nat) := by
  refine Nat.pos_of_ne_zero fun hz => ?_
  have := (bytesToSectors_eq_zero (Int.natCast_nonneg _) (byteCnt_lt h)).mp hz
  unfold byteCnt at this
  omega

/-- `free_map_allocate` before the free map file is open. -/
theorem allocate_unopened {cnt y : Nat} (h : s.freeMapFile = none)
    (hrun : freeMapAllocate cnt s = .ok (some y, s')) :
    bitmapScan s.freeMap 0 cnt false = some y ∧
      s' = { s with freeMap := bitmapSetMultiple s.freeMap y cnt true } := by
  simp only [freeMapAllocate, bind_run, get_run, ok_bind, bitmapScanAndFlip] at hrun
  cases hs : bitmapScan s.freeMap 0 cnt false with
  | none =>
    rw [hs] at hrun
    cases hrun
  | some x =>
    rw [hs] at hrun
    simp only [setFreeMap, bind_run, modify_run, ok_bind, h] at hrun
    cases hrun
    refine ⟨rfl, ?_⟩
    rw [h]
    rfl

/-- The free map file is made on a disk without one. -/
theorem mapMade_newFile {y cnt : Nat} (hcnt : cnt = bytesToSectors (byteCnt s.capacity : Nat))
    (hmap : s.freeMap = bootMap s.capacity) (hscan : bitmapScan s.freeMap 0 cnt false = some y)
    (hc : freeMapSector < s.capacity) {k : Disk}
    (hd : s'.disk = newFile k freeMapSector y (byteCnt s.capacity : Nat))
    (hf : s'.freeMap = bitmapSetMultiple s.freeMap y cnt true)
    (hcap : s'.capacity = s.capacity) : MapMade s' := by
  have hpos : 0 < cnt := hcnt ▸ byteCnt_sectors s.lba28 (Nat.zero_lt_of_lt hc)
  have hsize : bitmapSize s.freeMap = s.capacity := by rw [hmap, bootMap_size]
  have hle : y + cnt ≤ s.capacity := hsize ▸ (bitmapScan_some hscan).2.1
  have hfree : ∀ t, y ≤ t → t < y + cnt → bitmapTest (bootMap s.capacity) t = false :=
    fun t h1 h2 => hmap ▸ bitmapScan_test hscan h1 h2
  have hne : ∀ t, y ≤ t → t < y + cnt → t ≠ freeMapSector ∧ t ≠ rootDirSector := fun t h1 h2 =>
    (bootMap_free (by omega) (hfree t h1 h2)).2.2
  have hone := (bootMap_free (by omega) (hfree y (Nat.le_refl y) (by omega))).2.1
  have hcap28 := s.lba28
  have hino : inodeAt s'.disk freeMapSector =
      { start := y, length := (byteCnt s.capacity : Nat), magic := inodeMagic } := by
    rw [hd]
    refine newFile_inode (fun hin => ?_) (Int.natCast_nonneg _) (byteCnt_lt s.lba28) (by omega)
    rw [← hcnt] at hin
    exact (hne _ hin.1 hin.2).1 rfl
  have hdata : ∀ t, DataSector (inodeAt s'.disk freeMapSector) t → y ≤ t ∧ t < y + cnt := by
    intro t ht
    rw [hino] at ht
    rw [hcnt]
    exact ht
  have htest : ∀ t, bitmapTest s'.freeMap t =
      if y ≤ t ∧ t < y + cnt then true else bitmapTest (bootMap s.capacity) t := by
    intro t
    rw [hf, bitmapTest_setMultiple (by rw [hsize]; exact hle), hmap]
  have hboot : ∀ t, bitmapTest (bootMap s.capacity) t = true → bitmapTest s'.freeMap t = true := by
    intro t ht
    rw [htest]
    split
    · rfl
    · exact ht
  obtain ⟨h0, h1⟩ := bootMap_test hc hone
  refine ⟨?_, ⟨hboot _ h0, hboot _ h1⟩, ?_, ?_, fun t ht => ?_⟩
  · rw [hf, bitmapSize_setMultiple, hsize, hcap]
  · rw [hino, hcap]
  · rw [hino, hcap, ← hcnt]
    exact hle
  · exact ⟨by rw [htest, if_pos (hdata t ht)], hne t (hdata t ht).1 (hdata t ht).2⟩

/-- **`free_map_create`** -/
theorem freeMapCreate_ifOk (hcl : Closed s) (hfile : s.freeMapFile = none)
    (hmap : s.freeMap = bootMap s.capacity) :
    IfOk freeMapCreate (fun _ s' => MapMade s' ∧ Stored s' ∧ ∃ n f, MapHeld s' n f) s := by
  have hsize : bitmapSize s.freeMap = s.capacity := by rw [hmap, bootMap_size]
  rw [IfOk, freeMapCreate, wp_bind, wp_get, hsize]
  refine (inodeCreate_ifOk (Int.natCast_nonneg _) fun y s1 hrun => ?_).bind fun ok s2 hs2 => ?_
  · obtain ⟨hscan, hs1⟩ := allocate_unopened (by exact hfile) hrun
    have hle := (bitmapScan_some hscan).2.1
    rw [hs1]
    exact Nat.le_trans hle (Nat.le_of_eq hsize)
  · cases ok
    · exact wp_throw.mpr trivial
    · obtain ⟨y, s1, hc, hrun, hs2⟩ := hs2 rfl
      obtain ⟨hscan, hs1⟩ := allocate_unopened (by exact hfile) hrun
      rw [hs1] at hc hs2
      have hcl2 : Closed s2 := by
        rw [hs2]
        exact ⟨hcl.inodes, hcl.files⟩
      have hc2 : freeMapSector < s2.capacity := by
        rw [hs2]
        exact hc
      rw [if_pos rfl]
      refine (openFreeMapFile_ifOk hcl2 hc2).bind fun p s3 hs3 => ?_
      obtain ⟨hd, hm, hcap, -, n, f, hheld, rfl⟩ := hs3
      rw [hs2] at hd hm hcap
      dsimp only at hd hm hcap
      have hmade : MapMade s3 := mapMade_newFile rfl hmap hscan hc hd hm hcap
      have hopen := hheld.mapOpen hmade.onDisk hmade.size
      rw [wp_bind, wp_of_ok hopen.bitmapWrite_run]
      cases hok : mapWriteOk s3
      · exact wp_throw.mpr trivial
      · refine wp_pure.mpr ⟨hmade.written _, ?_, n, f, ?_⟩
        · rw [Stored, hmade.inode_written]
          exact mapWritten_stored hok s3.freeMap
        · exact { hheld with data := hheld.data.trans (hmade.inode_written _).symm }

/-! ## The root directory -/

theorem rootSectors : bytesToSectors (rootEntries * entrySize : Nat) = 1 := by decide

theorem MapOpen.allocate_some {f : Ptr} {cnt y : Nat} (h : MapOpen s f)
    (hmap : s.freeMapFile = some f) (hrun : freeMapAllocate cnt s = .ok (some y, s')) :
    Taken s cnt y ∧ s' = takeSectors s y cnt := by
  rcases h.allocate_run hmap cnt with ⟨-, e⟩ | ⟨x, hscan, e⟩
  · cases hrun.symm.trans e
  · rw [e] at hrun
    cases hok : mapWriteOk s
    · rw [hok] at hrun
      cases hrun
    · rw [hok] at hrun
      cases hrun
      exact ⟨⟨hscan, hok⟩, rfl⟩

/-- The state after the root directory has been made with its data in `y`. -/
def rootState (s : Fs) (y : Nat) : Fs :=
  { takeSectors s y 1 with
    disk := newFile (takeSectors s y 1).disk rootDirSector y (rootEntries * entrySize : Nat) }

section

variable {y : Nat}

theorem rootState_of_ne {t : Nat} (h1 : t ≠ rootDirSector) (hy : t ≠ y) :
    (rootState s y).disk t = (takeSectors s y 1).disk t := by
  refine newFile_of_ne h1 fun ht => hy ?_
  rw [rootSectors] at ht
  omega

theorem MapMade.not_taken (hm : MapMade s) (hy : Taken s 1 y) :
    y ≠ freeMapSector ∧ y ≠ rootDirSector ∧ ¬ DataSector (inodeAt s.disk freeMapSector) y := by
  have hfree := hy.free (Nat.le_refl y) (Nat.lt_succ_self y)
  refine ⟨?_, ?_, fun hd => ?_⟩
  · rintro rfl
    cases hm.system.1.symm.trans hfree
  · rintro rfl
    cases hm.system.2.symm.trans hfree
  · cases (hm.data y hd).1.symm.trans hfree

theorem MapMade.rootState_inode (hm : MapMade s) (hy : Taken s 1 y) :
    inodeAt (rootState s y).disk freeMapSector = inodeAt s.disk freeMapSector := by
  rw [inodeAt, rootState_of_ne (by decide) (hm.not_taken hy).1.symm]
  exact hm.inode_written _

theorem rootState_marks (hy : Taken s 1 y) {t : Nat}
    (ht : bitmapTest s.freeMap t = true ∨ t = y) : bitmapTest (rootState s y).freeMap t = true := by
  have hle := (bitmapScan_some hy.1).2.1
  show bitmapTest (bitmapSetMultiple s.freeMap y 1 true) t = true
  rw [bitmapTest_setMultiple hle]
  split
  · rfl
  · rcases ht with ht | rfl
    · exact ht
    · omega

theorem MapMade.rootState (hm : MapMade s) (hy : Taken s 1 y) : MapMade (rootState s y) := by
  have hi := hm.rootState_inode hy
  refine ⟨?_, ⟨rootState_marks hy (.inl hm.system.1), rootState_marks hy (.inl hm.system.2)⟩,
    hi.symm ▸ hm.length, hi.symm ▸ hm.data_le, fun t ht => ?_⟩
  · show bitmapSize (bitmapSetMultiple s.freeMap y 1 true) = s.capacity
    rw [bitmapSize_setMultiple, hm.size]
  · rw [hi] at ht
    exact ⟨rootState_marks hy (.inl (hm.data t ht).1), (hm.data t ht).2⟩

theorem MapMade.rootState_stored (hm : MapMade s) (hy : Taken s 1 y) : Stored (Filesys.rootState s y) := by
  intro pos hpos
  have hpos' : (pos : Int) < (inodeAt s.disk freeMapSector).length := by
    rw [hm.length]
    exact_mod_cast hpos
  have hd := dataSector_of_lt hm.nonneg hpos'
  have hne : (inodeAt s.disk freeMapSector).start + pos / 512 ≠ y := fun he =>
    (hm.not_taken hy).2.2 (he ▸ hd)
  rw [hm.rootState_inode hy]
  have := mapWritten_stored hy.2 (bitmapSetMultiple s.freeMap y 1 true) pos hpos
  rw [← show (Filesys.rootState s y).freeMap = bitmapSetMultiple s.freeMap y 1 true from rfl] at this
  rw [← this, fileByte, rootState_of_ne (hm.data _ hd).2.2 hne]
  rfl

theorem MapMade.rootMade (hm : MapMade s) (hy : Taken s 1 y) : RootMade (Filesys.rootState s y) := by
  obtain ⟨h0, h1, h2⟩ := hm.not_taken hy
  have hle : y + 1 ≤ s.capacity := hm.size ▸ (bitmapScan_some hy.1).2.1
  have hcap := s.lba28
  have hino : inodeAt (Filesys.rootState s y).disk rootDirSector =
      { start := y, length := (rootEntries * entrySize : Nat), magic := inodeMagic } := by
    refine newFile_inode (fun ht => h1 ?_) (Int.natCast_nonneg _) (by decide) (by omega)
    rw [rootSectors] at ht
    omega
  refine ⟨by rw [hino], ?_, fun t ht => ?_, fun i hi => ?_⟩
  · rw [hino, rootSectors]
    exact hle
  · rw [hino, DataSector, rootSectors] at ht
    obtain rfl : t = y := Nat.le_antisymm (Nat.le_of_lt_succ ht.2) ht.1
    exact ⟨rootState_marks hy (.inr rfl), h0, h1, by rwa [hm.rootState_inode hy]⟩
  · have hzero : slot (Filesys.rootState s y).disk i 19 = 0 := by
      rw [slot_eq hi (by decide), hino]
      have hpos : entrySize * i + 19 < sectorSize := by
        unfold rootEntries at hi
        unfold entrySize sectorSize
        omega
      exact if_pos ⟨Nat.le_refl y, by rw [rootSectors]; exact Nat.lt_succ_self y, hpos⟩
    rw [entryInUse, hzero]
    rfl

end

/-- **`dir_create`** for the root directory. -/
theorem dirCreate_ifOk (hm : MapMade s) (hh : MapHeld s n f) :
    IfOk (dirCreate rootDirSector rootEntries) (fun ok s' => ok = true →
      MapMade s' ∧ Stored s' ∧ RootMade s' ∧ MapHeld s' n f) s := by
  have hm' : MapMade { s with mem := s.mem.tail } := ⟨hm.size, hm.system, hm.length, hm.data_le, hm.data⟩
  have hh' : MapHeld { s with mem := s.mem.tail } n f :=
    ⟨hh.inodes, hh.files, hh.mapFile, hh.inode, hh.file_deny, hh.sector, hh.count, hh.kept, hh.deny,
      hh.data, hh.fresh⟩
  have hopen := hh'.mapOpen hm'.onDisk hm'.size
  refine (inodeCreate_ifOk (Int.natCast_nonneg _) fun y s1 hrun => ?_).mono fun ok s2 hs2 hok => ?_
  · obtain ⟨hy, rfl⟩ := hopen.allocate_some hh'.mapFile hrun
    exact hm.size ▸ (bitmapScan_some hy.1).2.1
  · obtain ⟨y, s1, -, hrun, hs2⟩ := hs2 hok
    obtain ⟨hy, hs1⟩ := hopen.allocate_some hh'.mapFile hrun
    rw [rootSectors] at hy hs1
    obtain rfl : s2 = Filesys.rootState { s with mem := s.mem.tail } y := by
      rw [hs2, hs1]
      rfl
    refine ⟨hm'.rootState hy, hm'.rootState_stored hy, hm'.rootMade hy, ?_⟩
    exact { hh' with data := hh'.data.trans (hm'.rootState_inode hy).symm }

/-- **`free_map_close`** -/
theorem freeMapClose_run (hh : MapHeld s n f) :
    freeMapClose s = .ok ((), { s with openInodes := [], files := [] }) := by
  have hfile : s.file? f.addr = some f := by
    rw [Fs.file?, hh.files, List.find?_cons_of_pos (by simp)]
  have hinode : s.inode? f.inode = some n := by
    rw [Fs.inode?, hh.inodes, List.find?_cons_of_pos (by simp [hh.inode])]
  have hallow : fileAllowWrite f.addr s = .ok ((), s) := by
    simp only [fileAllowWrite, bind_run, getFile_run hfile, ok_bind, hh.file_deny]
    rfl
  have hclose : inodeClose (some f.inode) s = .ok ((), { s with openInodes := [] }) := by
    have hdec : modifyInode f.inode (fun n => { n with openCnt := n.openCnt - 1 }) s =
        .ok ((), decRef s f.inode) := rfl
    have hdrop : removeInode f.inode (decRef s f.inode) = .ok ((), { s with openInodes := [] }) := by
      show Except.ok ((), dropInode (decRef s f.inode) f.inode) = _
      rw [dropInode_decRef, dropInode, hh.inodes, List.filter_cons_of_neg (by simp [hh.inode]),
        List.filter_nil]
    simp only [inodeClose, bind_run, getInode_run hinode, ok_bind, hdec]
    rw [if_pos (by rw [hh.count]; rfl), bind_run, hdrop, ok_bind, if_neg (by simp [hh.kept])]
    rfl
  have hfree : freeFile f.addr { s with openInodes := [] } =
      .ok ((), { s with openInodes := [], files := [] }) := by
    show Except.ok ((), dropFile { s with openInodes := [] } f.addr) = _
    rw [dropFile, hh.files, List.filter_cons_of_neg (by simp), List.filter_nil]
  have hcall : fileClose (some f.addr) s = .ok ((), { s with openInodes := [], files := [] }) := by
    simp only [fileClose, bind_run, hallow, ok_bind, getFile_run hfile, hclose, hfree]
  exact (congrArg (fun o => fileClose o s) hh.mapFile).trans hcall

theorem MapMade.of_eq (hm : MapMade s) (hd : s'.disk = s.disk) (hf : s'.freeMap = s.freeMap)
    (hc : s'.capacity = s.capacity) : MapMade s' := by
  constructor
  · rw [hf, hc]
    exact hm.size
  · rw [hf]
    exact hm.system
  · rw [hd, hc]
    exact hm.length
  · rw [hd, hc]
    exact hm.data_le
  · rw [hd, hf]
    exact hm.data

theorem RootMade.of_eq (hr : RootMade s) (hd : s'.disk = s.disk) (hf : s'.freeMap = s.freeMap)
    (hc : s'.capacity = s.capacity) : RootMade s' := by
  constructor
  · rw [hd]
    exact hr.length
  · rw [hd, hc]
    exact hr.data_le
  · rw [hd, hf]
    exact hr.data
  · rw [hd]
    exact hr.empty

/-- The free map is read back as it was written. -/
theorem bitmapRead_ifOk (hm : MapMade s) (hst : Stored s) (hh : MapHeld s n f) :
    IfOk (bitmapRead f.addr) (fun ok s' => ok = true → ∃ mem, s' = { s with mem := mem }) s := by
  obtain ⟨file, m, hfile, hinode, -, hdata⟩ := (hh.mapOpen hm.onDisk hm.size).open_file
  have hread : fileReadAt f.addr (bitmapBytes s.freeMap) (byteCnt s.capacity : Nat) 0 s = .ok (
      ((transfer m.data (byteCnt s.capacity) 0 false s.mem).1,
        memcpy (bitmapBytes s.freeMap) 0 (fileByte s.disk m.data.start) 0
          (transfer m.data (byteCnt s.capacity) 0 false s.mem).1),
      { s with mem := (transfer m.data (byteCnt s.capacity) 0 false s.mem).2 }) := by
    rw [fileReadAt, bind_run, getFile_run hfile, ok_bind]
    exact readAt_run hinode (hdata ▸ hm.onDisk) (bitmapBytes s.freeMap)
  have hpos : ¬ bitmapSize s.freeMap = 0 := Nat.ne_of_gt (Nat.zero_lt_of_lt (bitmapTest_lt hm.system.1))
  rw [IfOk, bitmapRead, wp_bind, wp_get]
  dsimp only
  rw [if_neg hpos, hm.size, wp_bind, wp_of_ok hread]
  refine wp_bind.mpr (wp_modify.mpr (wp_pure.mpr fun hall =>
    ⟨(transfer m.data (byteCnt s.capacity) 0 false s.mem).2, ?_⟩))
  have hall : (transfer m.data (byteCnt s.capacity) 0 false s.mem).1 = byteCnt s.capacity := by
    simpa using hall
  have hsame : bitmapOfBytes s.capacity (memcpy (bitmapBytes s.freeMap) 0
      (fileByte s.disk m.data.start) 0 (transfer m.data (byteCnt s.capacity) 0 false s.mem).1) =
        s.freeMap := by
    refine bitmapOfBytes_eq hm.size fun k hk => ?_
    rw [memcpy_in (Nat.zero_le k) (by omega), hdata, Nat.zero_add, Nat.sub_zero]
    exact hst k hk
  dsimp only
  rw [hm.size, hsame]

/-- **`free_map_open`** -/
theorem freeMapOpen_ifOk (hcl : Closed s) (hm : MapMade s) (hst : Stored s) (hr : RootMade s) :
    IfOk freeMapOpen (fun _ s' => MapMade s' ∧ RootMade s' ∧ ∃ n f, MapHeld s' n f) s := by
  have hc : freeMapSector < s.capacity := hm.size ▸ bitmapTest_lt hm.system.1
  refine (openFreeMapFile_ifOk hcl hc).bind fun p s1 hs1 => ?_
  obtain ⟨hd, hmap, hcap, -, n, f, hheld, rfl⟩ := hs1
  have hst1 : Stored s1 := by
    rw [Stored, hd, hmap, hcap]
    exact hst
  refine (bitmapRead_ifOk (hm.of_eq hd hmap hcap) hst1 hheld).bind fun ok s2 hs2 => ?_
  cases ok
  · exact wp_throw.mpr trivial
  · obtain ⟨mem, rfl⟩ := hs2 rfl
    refine wp_pure.mpr ⟨hm.of_eq hd hmap hcap, hr.of_eq hd hmap hcap, n, f, ?_⟩
    exact ⟨hheld.inodes, hheld.files, hheld.mapFile, hheld.inode, hheld.file_deny, hheld.sector,
      hheld.count, hheld.kept, hheld.deny, hheld.data, hheld.fresh⟩

/-! ## The file system after the format -/

theorem RootMade.not_named (hr : RootMade s) (x : Nat) : ¬ Named s.disk x := by
  rintro ⟨i, hi, hu, -⟩
  rw [hr.empty i hi] at hu
  cases hu

theorem MapHeld.live (hh : MapHeld s n f) (hr : RootMade s) {x : Nat}
    (hx : Live s.disk (Opened s.openInodes) x) : x = freeMapSector ∨ x = rootDirSector := by
  rcases hx with hx | hx | hx | ⟨m, hm, rfl⟩
  · exact .inl hx
  · exact .inr hx
  · exact absurd hx (hr.not_named x)
  · rw [hh.inodes, List.mem_singleton] at hm
    exact .inl (hm ▸ hh.sector)

theorem owns_formatted (hm : MapMade s) (hr : RootMade s) (hh : MapHeld s n f) :
    Owns (Live s.disk (Opened s.openInodes)) (Extent s.disk) fun t => bitmapTest s.freeMap t = true where
  marked x t hx ht := by
    rcases hh.live hr hx with rfl | rfl
    · rcases ht with rfl | ht
      · exact hm.system.1
      · exact (hm.data t ht).1
    · rcases ht with rfl | ht
      · exact hm.system.2
      · exact (hr.data t ht).1
  disjoint x y t hx hy hxt hyt := by
    have hcross : ∀ t, Extent s.disk freeMapSector t → Extent s.disk rootDirSector t → False := by
      rintro t (rfl | h1) (h2 | h2)
      · cases h2
      · exact (hr.data _ h2).2.1 rfl
      · exact (hm.data t h1).2.2 h2
      · exact (hr.data t h2).2.2.2 h1
    rcases hh.live hr hx with rfl | rfl
    · rcases hh.live hr hy with rfl | rfl
      · rfl
      · exact (hcross t hxt hyt).elim
    · rcases hh.live hr hy with rfl | rfl
      · exact (hcross t hyt hxt).elim
      · rfl

theorem layout_formatted (hm : MapMade s) (hr : RootMade s) (hh : MapHeld s n f) :
    Layout s.capacity s.disk s.freeMap (Opened s.openInodes) where
  size := hm.size
  map_length := hm.length
  root_length := hr.length
  length_nonneg x hx := by
    rcases hh.live hr hx with rfl | rfl
    · exact hm.nonneg
    · exact hr.length ▸ Int.natCast_nonneg _
  data_le x hx := by
    rcases hh.live hr hx with rfl | rfl
    · exact hm.data_le
    · exact hr.data_le
  owns := owns_formatted hm hr hh
  own_data x hx hd := by
    rcases hh.live hr hx with rfl | rfl
    · exact (hm.data _ hd).2.1 rfl
    · exact (hr.data _ hd).2.2.1 rfl
  slot_inj i j hi _ hu := by
    rw [hr.empty i hi] at hu
    cases hu
  slot_ne i hi hu := by
    rw [hr.empty i hi] at hu
    cases hu

theorem ready_of_formatted (hm : MapMade s) (hr : RootMade s) (hh : MapHeld s n f) : Ready s := by
  have hn : ∀ m ∈ s.openInodes, m = n := fun m hmem => by
    rw [hh.inodes] at hmem
    exact List.mem_singleton.mp hmem
  have hf : ∀ g ∈ s.files, g = f := fun g hmem => by
    rw [hh.files] at hmem
    exact List.mem_singleton.mp hmem
  have hmem : n ∈ s.openInodes := by
    rw [hh.inodes]
    exact List.mem_singleton_self n
  have hfmem : f ∈ s.files := by
    rw [hh.files]
    exact List.mem_singleton_self f
  have hone : fileRefs s.files n.addr = 1 := by
    rw [hh.files, fileRefs_cons, hh.inode, addRef_self]
    rfl
  constructor
  · refine ⟨layout_formatted hm hr hh, ?_, ?_, ?_, ?_, ?_, ?_, ?_, ?_, ?_, ?_, ?_, ?_⟩
    · rw [hh.inodes]
      exact List.nodup_singleton _
    · intro m hm'
      exact hn m hm' ▸ hh.fresh.1
    · intro m hm'
      rw [hn m hm', hone, hh.count]
      exact ⟨rfl, Nat.one_pos⟩
    · intro p hp
      obtain ⟨g, hg, he⟩ := List.countP_pos_iff.mp hp
      rw [hf g hg, hh.inode] at he
      exact ⟨n, hmem, beq_iff_eq.mp he⟩
    · rw [hh.inodes]
      exact List.nodup_singleton _
    · intro m hm'
      rw [hn m hm', hh.sector]
      exact hh.data
    · intro m hm' hrem
      rw [hn m hm', hh.kept] at hrem
      cases hrem
    · intro m hm'
      exact hn m hm' ▸ hh.deny
    · rw [hh.files]
      exact List.nodup_singleton _
    · intro g hg
      exact hf g hg ▸ hh.fresh.2
    · intro g hg
      exact hf g hg ▸ hh.file_deny
    · exact ⟨f, hfmem, n, hmem, hh.mapFile, hh.inode.symm, hh.sector, hh.inode.symm ▸ hone ▸ Nat.one_pos⟩
  · rintro ⟨m, hm', hs⟩
    rw [hn m hm', hh.sector] at hs
    cases hs

theorem freeMapInit_ifOk (capacity : Nat) (lba28 : capacity ≤ 2 ^ 28) (disk : Disk) (mem : List Bool) :
    IfOk freeMapInit (fun _ s1 => ∃ mem', s1 =
      { bootState capacity lba28 disk mem' with freeMap := bootMap capacity })
      (bootState capacity lba28 disk mem) := by
  rw [IfOk, freeMapInit, wp_bind, wp_get, wp_bind, wp_of_ok (malloc_run _)]
  split
  · rw [wp_bind, wp_of_ok (malloc_run _)]
    split
    · exact wp_modify.mpr ⟨_, rfl⟩
    · exact wp_throw.mpr trivial
  · exact wp_throw.mpr trivial

/-- **The format**: `filesys_init` leaves a file system that meets the invariant. -/
theorem filesysInit_ready {capacity : Nat} {lba28 : capacity ≤ 2 ^ 28} {disk : Disk} {mem : List Bool}
    (h : filesysInit (bootState capacity lba28 disk mem) = .ok ((), s)) : Ready s := by
  refine Wp.ok (E := fun _ => True) (Q := fun _ s => Ready s) ?_ h
  refine (freeMapInit_ifOk capacity lba28 disk mem).bind fun _ s1 hs1 => ?_
  obtain ⟨mem', hs1⟩ := hs1
  have hcl : Closed s1 := by
    rw [hs1]
    exact ⟨rfl, rfl⟩
  have hfile : s1.freeMapFile = none := by
    rw [hs1]
    rfl
  have hmap : s1.freeMap = bootMap s1.capacity := by
    rw [hs1]
    rfl
  have hformat : IfOk doFormat (fun _ s2 => Closed s2 ∧ MapMade s2 ∧ Stored s2 ∧ RootMade s2) s1 := by
    refine (freeMapCreate_ifOk hcl hfile hmap).bind fun _ s2 hs2 => ?_
    obtain ⟨hmade, -, n, f, hheld⟩ := hs2
    refine (dirCreate_ifOk hmade hheld).bind fun ok s3 hs3 => ?_
    cases ok
    · exact wp_throw.mpr trivial
    · obtain ⟨hmade, hst, hroot, hheld⟩ := hs3 rfl
      refine (wp_of_ok (freeMapClose_run hheld)).mpr ⟨⟨rfl, rfl⟩, ?_, hst, ?_⟩
      · exact hmade.of_eq rfl rfl rfl
      · exact hroot.of_eq rfl rfl rfl
  refine hformat.bind fun _ s2 hs2 => ?_
  obtain ⟨hcl, hmade, hst, hroot⟩ := hs2
  refine (freeMapOpen_ifOk hcl hmade hst hroot).mono fun _ s3 hs3 => ?_
  obtain ⟨hmade, hroot, n, f, hheld⟩ := hs3
  exact ready_of_formatted hmade hroot hheld

end

end Pintos.Filesys
