import Pintos.Filesys.CreateFailure

/-!
# `SYS_CREATE` with any size

The size is a `size_t` in `syscall_handler`, an `off_t` from `filesys_create` on and a
`size_t` again when it has been rounded up to sectors. The rounding never gives a
file fewer sectors than its length needs; a size from 2^31 on is a negative length,
which `inode_create` does not accept.
-/

namespace Pintos.Filesys

open Pintos.Base Pintos.Kernel

/-- The case `SYS_CREATE` -/
def sysCreate (name : CString) (size : Nat) (stack : Buffer) : M Bool :=
  filesysCreate name (asInt32 size) stack

section

variable {s s' : Fs} {refs : Ptr → Nat} {x y : Nat} {size : Int}

/-- The state after a file has got the sector `x`, data from `y` on and the slot `i`. -/
def namedState (s : Fs) (x y : Nat) (size : Int) (i : Nat) (e : Buffer) (mem : List Bool) : Fs :=
  { madeState (Filesys.withRoot s) x y size with
    disk := writeSlot (madeState (Filesys.withRoot s) x y size).disk i e
    mem := mem
    openInodes := s.openInodes }

/-- What a call that returns true has done. -/
structure CreateDone (s s' : Fs) (name : CString) (size : Int) (stack : Buffer) (x y i : Nat)
    (e : Buffer) (mem : List Bool) : Prop where
  taken : Taken (Filesys.withRoot s) 1 x
  makes : Makes (Filesys.withRoot s) x size y
  made : Made (addRef (fileRefs s.files) s.next) (Filesys.withRoot s)
    (madeState (Filesys.withRoot s) x y size) x y size
  slot : addSlot s.disk stack name (madeState (Filesys.withRoot s) x y size).mem = (some i, mem)
  state : s' = namedState s x y size i (fillEntry e name x) mem

theorem Ready.create_true (h : Ready s) (h0 : 0 ≤ size) (h1 : size < 2 ^ 31) {name : CString}
    {stack : Buffer} (hrun : filesysCreate name size stack s = .ok (true, s')) :
    ∃ x y i e mem, CreateDone s s' name size stack x y i e mem := by
  obtain ⟨o, s1, hopen, hrun⟩ := ok_of_bind hrun
  rcases h.openRoot with ⟨-, hroot⟩ | ⟨-, next, -, hroot⟩
  · cases hopen.symm.trans hroot
    obtain ⟨r, s2, hchain, hrun⟩ := ok_of_bind hrun
    obtain ⟨_, s3, hclean, hrun⟩ := ok_of_bind hrun
    obtain ⟨_, s4, hclose, hrun⟩ := ok_of_bind hrun
    have ho := h.withRoot
    have hdir : (⟨s.next⟩ : Dir) = ⟨(rootInode s).addr⟩ := rfl
    rw [hdir] at hchain
    cases r with
    | mk ok x0 =>
      obtain rfl : ok = true := by cases hrun; rfl
      rcases ho.inv.chain_cases ho.mem rfl h0 h1 name stack with
        ⟨-, t, hcase, -⟩ | ⟨x, hx, ⟨-, t, hcase, -⟩ | ⟨y, e, hy, hmade, hcase⟩⟩
      · cases hchain.symm.trans hcase
      · cases hchain.symm.trans hcase
      · cases hadd : addSlot (Filesys.withRoot s).disk stack name
          (madeState (Filesys.withRoot s) x y size).mem with
        | mk o mem =>
          rw [hadd] at hcase
          cases o with
          | none => cases hchain.symm.trans hcase
          | some i =>
            obtain ⟨⟨-, rfl⟩, rfl⟩ : ((true = true) ∧ x0 = x) ∧ s2 = { madeState (Filesys.withRoot s) x y size with
                disk := writeSlot (madeState (Filesys.withRoot s) x y size).disk i (fillEntry e name x)
                mem := mem } := by
              simpa using hchain.symm.trans hcase
            cases hclean
            have hi := addSlot_lt hadd
            obtain ⟨hrun', -⟩ := h.closed (hmade.named hi e name mem)
              (hmade.fresh ho.inv hi (fillEntry_sector e name hmade.lt))
            cases hclose.symm.trans hrun'
            cases hrun
            exact ⟨x0, y, i, e, mem, hx, hy, hmade, hadd, rfl⟩
  · cases hopen.symm.trans hroot
    cases hrun

/-- The file a call makes at the inode `x` has `cnt` sectors that were free. -/
structure Allocates (s s' : Fs) (x cnt : Nat) : Prop where
  fresh : ¬ Named s.disk x
  named : Named s'.disk x
  length : (inodeAt s'.disk x).length ≤ (512 * cnt : Nat)
  was_free : ∀ i < cnt, bitmapTest s.freeMap ((inodeAt s'.disk x).start + i) = false
  is_marked : ∀ i < cnt, bitmapTest s'.freeMap ((inodeAt s'.disk x).start + i) = true

theorem CreateDone.allocates {name : CString} {stack : Buffer} {i : Nat} {e : Buffer}
    {mem : List Bool} (h : Ready s) (h0 : 0 ≤ size) (h1 : size < 2 ^ 31)
    (hd : CreateDone s s' name size stack x y i e mem) :
    Allocates s s' x (bytesToSectors size) := by
  have hi := addSlot_lt hd.slot
  have hp := hd.made.pending
  have hne := hp.ne_root
  have hino : inodeAt s'.disk x = { start := y, length := size, magic := inodeMagic } := by
    rw [hd.state, ← hd.made.inode, inodeAt, inodeAt]
    show decodeInode (writeSlot _ i _ x) = _
    rw [writeSlot_of_ne hi hne]
  refine ⟨fun hnamed => ?_, ?_, ?_, ?_, ?_⟩
  · have hmark := h.inv.layout.owns.marked x x (.inr (.inr (.inl hnamed))) (.inl rfl)
    cases hmark.symm.trans hp.free
  · obtain ⟨hu, hs⟩ := hp.inv.layout.writeSlot_entry (e := fillEntry e name x) hi hi
    rw [if_pos rfl] at hu hs
    rw [hd.state]
    exact ⟨i, hi, hu.trans (fillEntry_inUse e name x), hs.trans (fillEntry_sector e name hd.made.lt)⟩
  · rw [hino]
    have := le_bytesToSectors h0 h1
    unfold sectorSize at this
    push_cast
    exact this
  · intro j hj
    rw [hino]
    exact hd.made.data_free _ (Nat.le_add_right y j) (Nat.add_lt_add_left hj y)
  · intro j hj
    rw [hino, hd.state]
    show bitmapTest (bitmapSetMultiple _ y (bytesToSectors size) true) (y + j) = true
    rw [bitmapTest_setMultiple (bitmapScan_some hd.makes.2.1).2.1, if_pos (by omega)]

/-- The memory for the root directory, a free sector and the memory for the write of the
free map are there. -/
def HasSector (s : Fs) (mem : List Bool) : Prop :=
  granted 2 mem = true ∧ (∃ x, bitmapScan s.freeMap 0 1 false = some x) ∧
    mapOk s.capacity (mem.drop 2)

theorem Ready.reachesInode_iff (h : Ready s) : ReachesInode s ↔ HasSector s s.mem := by
  have hmap : mapWriteOk (Filesys.withRoot s) = true ↔ mapOk s.capacity s.mem.tail.tail :=
    h.withRoot.inv.mapTransfer_eq.1
  have hgranted : granted 2 s.mem = rootGranted s := by
    simp [granted, rootGranted]
  have hdrop : s.mem.drop 2 = s.mem.tail.tail := by
    simp [← List.drop_one]
  rw [HasSector, hgranted, hdrop, ← hmap]
  constructor
  · rintro ⟨hg, x, hscan, hok⟩
    exact ⟨hg, ⟨x, hscan⟩, hok⟩
  · rintro ⟨hg, ⟨x, hscan⟩, hok⟩
    exact ⟨hg, x, hscan, hok⟩

end

/-- A call stops at no assertion, and one that returns true has made a file with the
sectors that `size` bytes and its recorded length need. -/
def CreateOk (s : Fs) (name : CString) (size : Nat) (stack : Buffer) : Prop :=
  (∀ e, sysCreate name size stack s ≠ .error e) ∧
    ∀ s', sysCreate name size stack s = .ok (true, s') →
      ∃ x cnt, Allocates s s' x cnt ∧ (size + 511) / 512 ≤ cnt

/-- **Creation with any size**: in every reachable state and for every 32-bit value the
call does what it should exactly if the value is below 2^31 or the call gives up before
it comes to `inode_create`. -/
theorem create_any_size_iff {capacity : Nat} {lba28 : capacity ≤ 2 ^ 28} {disk : Disk}
    {mem₀ : List Bool} {s₀ s : Fs}
    (hinit : filesysInit (bootState capacity lba28 disk mem₀) = .ok ((), s₀))
    (hrun : Reach fsStep Allowed s₀ s) (name : CString) {size : Nat} (hsize : size < 2 ^ 32)
    (mem : List Bool) (stack : Buffer) :
    CreateOk { s with mem := mem } name size stack ↔ size < 2 ^ 31 ∨ ¬ HasSector s mem := by
  have h := ((filesysInit_ready hinit).reach hrun).setMem mem
  have hreach : ReachesInode { s with mem := mem } ↔ HasSector s mem := h.reachesInode_iff
  unfold CreateOk sysCreate
  by_cases hlt : size < 2 ^ 31
  · have h0 : (0 : Int) ≤ size := Int.natCast_nonneg size
    have h1 : (size : Int) < 2 ^ 31 := by exact_mod_cast hlt
    rw [asInt32, if_pos hlt]
    refine iff_of_true ⟨fun e he => ?_, fun s' hs' => ?_⟩ (.inl hlt)
    · obtain ⟨ok, s', hcreate, -⟩ := h.create_run h0 h1 name stack
      cases hcreate.symm.trans he
    · obtain ⟨x, y, i, e, mem', hd⟩ := h.create_true h0 h1 hs'
      refine ⟨x, bytesToSectors size, hd.allocates h h0 h1, ?_⟩
      have := le_bytesToSectors h0 h1
      unfold sectorSize at this
      omega
  · have hneg : asInt32 size < 0 := by
      rw [asInt32, if_neg hlt]
      omega
    rw [← hreach]
    rcases h.create_negative hneg name stack with ⟨hr, hcreate⟩ | ⟨hr, s', hcreate, -⟩
    · refine iff_of_false (fun hok => hok.1 _ hcreate) fun hcond => ?_
      rcases hcond with hcond | hcond
      · exact hlt hcond
      · exact hcond hr
    · refine iff_of_true ⟨fun e he => ?_, fun s1 hs1 => ?_⟩ (.inr hr)
      · cases hcreate.symm.trans he
      · cases hcreate.symm.trans hs1

/-- A file of two sectors on the small disk. -/
theorem two_sectors_created :
    created? shortName 600 { smallDisk with mem := [] } =
        some (true, ⟨[true, true, true, true, true, true, true, false]⟩) ∧
      CreateOk { smallDisk with mem := [] } shortName 600 zeros :=
  ⟨by decide +kernel, (create_any_size_iff smallDisk_init .refl shortName (by decide) [] zeros).mpr
    (.inl (by decide))⟩

/-- The size 2^31 stops the kernel in `inode_create`. -/
theorem create_half_range_panics :
    sysCreate shortName (2 ^ 31) zeros { smallDisk with mem := [] } = .error .length ∧
      ¬ CreateOk { smallDisk with mem := [] } shortName (2 ^ 31) zeros := by
  have hscan : bitmapScan smallDisk.freeMap 0 1 false = some 4 := by decide +kernel
  have h := (filesysInit_ready smallDisk_init).setMem []
  generalize smallDisk = s at h hscan ⊢
  have hneg : asInt32 (2 ^ 31) < 0 := by decide
  have hsector : HasSector s [] := ⟨rfl, ⟨4, hscan⟩, .inr rfl⟩
  rcases h.create_negative hneg shortName zeros with ⟨-, hcreate⟩ | ⟨hno, -⟩
  · exact ⟨hcreate, fun hok => hok.1 _ hcreate⟩
  · exact absurd (h.reachesInode_iff.mpr hsector) hno

end Pintos.Filesys
