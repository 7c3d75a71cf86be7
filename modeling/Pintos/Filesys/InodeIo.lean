import Pintos.Filesys.State

/-!
# Reading and writing through an inode (filesys/inode.c)

`inode_read_at` and `inode_write_at` move one chunk per sector, whole sectors
directly and parts of a sector through a bounce buffer allocated at its first use.
Both are described by one function of the range and of the allocator's answer,
`transfer`, and by what they do to the bytes: `readAt_run` and `writeAt_run`.
-/

namespace Pintos.Filesys

open Pintos.Base Pintos.Kernel

/-- `INODE_MAGIC` -/
def inodeMagic : Nat := 0x494e4f44

/-- The sector that holds a `struct inode_disk`; the unused words are 0. -/
def encodeInode (d : DiskInode) : Buffer :=
  store32 (store32 (store32 zeros 0 d.start) 4 (ofInt32 d.length)) 8 d.magic

def decodeInode (b : Buffer) : DiskInode where
  start := load32 b 0
  length := asInt32 (load32 b 4)
  magic := load32 b 8

/-- `DIV_ROUND_UP` on an `off_t`; the sum and the conversion to `size_t` wrap. -/
def bytesToSectors (size : Int) : Nat :=
  ofInt32 ((asInt32 (ofInt32 (size + sectorSize - 1))).tdiv sectorSize)

def byteToSector (d : DiskInode) (pos : Nat) : Nat :=
  if (pos : Int) < d.length then (d.start + pos / sectorSize) % 2 ^ 32 else 2 ^ 32 - 1

/-- The part of one sector an iteration moves. -/
structure Chunk where
  sector : Nat
  ofs : Nat
  size : Nat
  deriving DecidableEq, Repr

/-- The number of bytes to copy within this sector. -/
def chunkSize (d : DiskInode) (size offset : Nat) : Int :=
  let sectorOfs := offset % sectorSize
  let inodeLeft : Int := d.length - offset
  let sectorLeft : Int := sectorSize - sectorOfs
  let minLeft := if inodeLeft < sectorLeft then inodeLeft else sectorLeft
  if (size : Int) < minLeft then size else minLeft

/-- The head of both loops, up to the `break`. -/
def nextChunk (d : DiskInode) (size offset : Nat) : Option Chunk :=
  if chunkSize d size offset ≤ 0 then none
  else some { sector := byteToSector d offset, ofs := offset % sectorSize,
              size := (chunkSize d size offset).toNat }

/-- The chunk is a whole sector. -/
def Chunk.whole (c : Chunk) : Bool := decide (c.ofs = 0 ∧ c.size = sectorSize)

/-- The bounce buffer, allocated at its first use. -/
def getBounce (bounce : Bool) : M Bool := if bounce then pure true else malloc

/-- The loop of `inode_read_at`; every iteration moves a byte, so `size` bounds their number. -/
def readLoop (d : DiskInode) :
    (fuel : Nat) → Buffer → (size offset bytesRead : Nat) → (bounce : Bool) → M (Nat × Buffer)
  | 0, buffer, _, _, bytesRead, _ => pure (bytesRead, buffer)
  | fuel + 1, buffer, size, offset, bytesRead, bounce =>
    match nextChunk d size offset with
    | none => pure (bytesRead, buffer)
    | some c =>
      if c.whole then do
        let b ← diskRead c.sector
        readLoop d fuel (memcpy buffer bytesRead b 0 sectorSize) (size - c.size) (offset + c.size)
          (bytesRead + c.size) bounce
      else do
        if ← getBounce bounce then
          let b ← diskRead c.sector
          readLoop d fuel (memcpy buffer bytesRead b c.ofs c.size) (size - c.size)
            (offset + c.size) (bytesRead + c.size) true
        else pure (bytesRead, buffer)

/-- The number of bytes read, and the caller's buffer. -/
def inodeReadAt (p : Ptr) (buffer : Buffer) (size : Int) (offset : Nat) : M (Nat × Buffer) := do
  let n ← getInode p
  readLoop n.data size.toNat buffer size.toNat offset 0 false

/-- A part of a sector written through the bounce buffer: the sector is read first if
it holds data before or after the chunk. -/
def writePart (c : Chunk) (buffer : Buffer) (bytesWritten : Nat) : M Unit := do
  let b ← if 0 < c.ofs ∨ c.size < sectorSize - c.ofs then diskRead c.sector else pure zeros
  diskWrite c.sector (memcpy b c.ofs buffer bytesWritten c.size)

/-- The loop of `inode_write_at`. -/
def writeLoop (d : DiskInode) (buffer : Buffer) :
    (fuel : Nat) → (size offset bytesWritten : Nat) → (bounce : Bool) → M Nat
  | 0, _, _, bytesWritten, _ => pure bytesWritten
  | fuel + 1, size, offset, bytesWritten, bounce =>
    match nextChunk d size offset with
    | none => pure bytesWritten
    | some c =>
      if c.whole then do
        diskWrite c.sector (bufferAt buffer bytesWritten)
        writeLoop d buffer fuel (size - c.size) (offset + c.size) (bytesWritten + c.size) bounce
      else do
        if ← getBounce bounce then
          writePart c buffer bytesWritten
          writeLoop d buffer fuel (size - c.size) (offset + c.size) (bytesWritten + c.size) true
        else pure bytesWritten

/-- The number of bytes written. -/
def inodeWriteAt (p : Ptr) (buffer : Buffer) (size : Int) (offset : Nat) : M Nat := do
  let n ← getInode p
  if n.denyWriteCnt ≠ 0 then pure 0
  else writeLoop n.data buffer size.toNat size.toNat offset 0 false

theorem Chunk.whole_iff {c : Chunk} : c.whole = true ↔ c.ofs = 0 ∧ c.size = 512 :=
  decide_eq_true_iff

/-! ## Inodes on disk -/

theorem decode_encode {d : DiskInode} (hs : d.start < 2 ^ 32) (hl : 0 ≤ d.length)
    (hl' : d.length < 2 ^ 31) (hm : d.magic < 2 ^ 32) : decodeInode (encodeInode d) = d := by
  obtain ⟨start, length, magic⟩ := d
  simp only at hs hl hl' hm
  simp only [decodeInode, encodeInode]
  rw [load32_store32_of_disjoint (by omega), load32_store32_of_disjoint (by omega),
    load32_store32 _ _ hs, load32_store32_of_disjoint (by omega),
    load32_store32 _ _ (ofInt32_lt _), load32_store32 _ _ hm,
    asInt32_ofInt32 (by omega) hl']

theorem decodeInode_congr {b b' : Buffer} (h : ∀ i < sectorSize, b i = b' i) :
    decodeInode b = decodeInode b' := by
  unfold sectorSize at h
  simp only [decodeInode]
  have hword : ∀ i, i + 4 ≤ 512 → load32 b i = load32 b' i := fun i hi =>
    load32_congr fun k hk => h _ (by omega)
  rw [hword 0 (by omega), hword 4 (by omega), hword 8 (by omega)]

/-- Sizes that round up without overflow. -/
theorem bytesToSectors_of_le {size : Int} (h0 : 0 ≤ size) (h1 : size ≤ 2 ^ 31 - 512) :
    bytesToSectors size = (size.toNat + 511) / 512 := by
  have hsum : asInt32 (ofInt32 (size + sectorSize - 1)) = size + 511 := by
    unfold asInt32 ofInt32 sectorSize
    split <;> omega
  rw [bytesToSectors, hsum, Int.tdiv_eq_ediv_of_nonneg (by omega)]
  unfold ofInt32 sectorSize
  omega

/-- For the last 511 sizes the sum overflows, and the count is larger than any disk. -/
theorem bytesToSectors_of_gt {size : Int} (h0 : 2 ^ 31 - 512 < size) (h1 : size < 2 ^ 31) :
    2 ^ 31 ≤ bytesToSectors size := by
  have hsum : asInt32 (ofInt32 (size + sectorSize - 1)) = size + 511 - 2 ^ 32 := by
    unfold asInt32 ofInt32 sectorSize
    split <;> omega
  have hdiv : -2 ^ 22 ≤ (size + 511 - 2 ^ 32).tdiv sectorSize ∧
      (size + 511 - 2 ^ 32).tdiv sectorSize < 0 := by
    rw [Int.tdiv_eq_ediv, show Int.sign (sectorSize : Int) = 1 from rfl]
    unfold sectorSize
    split <;> omega
  rw [bytesToSectors, hsum]
  unfold ofInt32
  omega

/-- The sectors of a file hold its bytes. -/
theorem le_bytesToSectors {size : Int} (h0 : 0 ≤ size) (h1 : size < 2 ^ 31) :
    size ≤ sectorSize * bytesToSectors size := by
  by_cases h : size ≤ 2 ^ 31 - 512
  · rw [bytesToSectors_of_le h0 h]
    unfold sectorSize
    omega
  · have := bytesToSectors_of_gt (by omega) h1
    unfold sectorSize
    omega

theorem bytesToSectors_eq_zero {size : Int} (h0 : 0 ≤ size) (h1 : size < 2 ^ 31) :
    bytesToSectors size = 0 ↔ size = 0 := by
  constructor
  · intro h
    have := le_bytesToSectors h0 h1
    rw [h] at this
    omega
  · rintro rfl
    decide

/-! ## The range an access covers -/

/-- The bytes of the range inside the file. -/
def ioLen (d : DiskInode) (size offset : Nat) : Nat := min size (d.length - offset).toNat

theorem chunkSize_eq (d : DiskInode) (size offset : Nat) :
    chunkSize d size offset = min (size : Int) (min (d.length - offset) (512 - offset % 512 : Nat)) := by
  have h : ∀ a b c : Int, (if a < (if b < c then b else c) then a else if b < c then b else c) =
      min a (min b c) := fun a b c => by rw [← min_def_lt, ← min_def_lt]
  apply (h size (d.length - offset) ((512 : Nat) - (offset % 512 : Nat))).trans
  omega

theorem nextChunk_eq_none {d : DiskInode} {size offset : Nat} (h : nextChunk d size offset = none) :
    ioLen d size offset = 0 := by
  unfold nextChunk at h
  split at h
  · next hle =>
    rw [chunkSize_eq] at hle
    unfold ioLen
    omega
  · cases h

theorem nextChunk_eq_some {d : DiskInode} {size offset : Nat} {c : Chunk}
    (h : nextChunk d size offset = some c) :
    0 < ioLen d size offset ∧ c.ofs = offset % 512 ∧
      c.size = min (ioLen d size offset) (512 - offset % 512) ∧
      c.sector = byteToSector d offset := by
  unfold nextChunk at h
  split at h
  · cases h
  · next hle =>
    cases h
    rw [chunkSize_eq] at hle ⊢
    unfold ioLen
    exact ⟨by omega, rfl, by dsimp only; omega, rfl⟩

theorem byteToSector_eq {d : DiskInode} {pos cap : Nat} (hpos : (pos : Int) < d.length)
    (h : d.start + pos / 512 < cap) (hcap : cap ≤ 2 ^ 28) :
    byteToSector d pos = d.start + pos / 512 := by
  rw [byteToSector, if_pos hpos]
  unfold sectorSize
  omega

/-- The range can be moved without a further request for memory. -/
def NoBounce (n offset : Nat) (bounce : Bool) : Prop :=
  n = 0 ∨ bounce = true ∨ offset % 512 = 0 ∧ n % 512 = 0

instance (n offset : Nat) (bounce : Bool) : Decidable (NoBounce n offset bounce) :=
  inferInstanceAs (Decidable (_ ∨ _))

/-- What is moved without a bounce buffer: the whole sectors the range starts with. -/
def wholePart (n offset : Nat) : Nat := if offset % 512 = 0 then n / 512 * 512 else 0

/-- What is moved, and the answers of the allocator left. -/
def transfer (d : DiskInode) (size offset : Nat) (bounce : Bool) (mem : List Bool) :
    Nat × List Bool :=
  if NoBounce (ioLen d size offset) offset bounce then (ioLen d size offset, mem)
  else (if mem.headD true then ioLen d size offset else wholePart (ioLen d size offset) offset,
    mem.tail)

/-- The bytes of a file whose data starts at sector `start`. -/
def fileByte (k : Disk) (start pos : Nat) : UInt8 := k (start + pos / 512) (pos % 512)

/-- The disk with `n` bytes of a file from `offset` on replaced by those of `b`. -/
def splice (k : Disk) (start offset n : Nat) (b : Buffer) : Disk := fun x i =>
  if i < 512 ∧ start ≤ x ∧ offset ≤ 512 * (x - start) + i ∧ 512 * (x - start) + i < offset + n then
    b (512 * (x - start) + i - offset)
  else k x i

theorem splice_zero (k : Disk) (start offset : Nat) (b : Buffer) : splice k start offset 0 b = k := by
  funext x i
  exact if_neg (by omega)

theorem splice_untouched {k : Disk} {start offset m x : Nat} {b : Buffer}
    (h : ∀ pos, offset ≤ pos → pos < offset + m → x ≠ start + pos / 512) :
    splice k start offset m b x = k x := by
  funext i
  refine if_neg fun hi => h (512 * (x - start) + i) hi.2.2.1 hi.2.2.2 ?_
  omega

theorem splice_congr {k k' : Disk} {start offset m x : Nat} {b : Buffer} (h : k x = k' x) :
    splice k start offset m b x = splice k' start offset m b x := by
  funext i
  unfold splice
  rw [h]

theorem splice_splice (k : Disk) (start offset n m : Nat) (b : Buffer) :
    splice (splice k start offset n b) start (offset + n) m (bufferAt b n) =
      splice k start offset (n + m) b := by
  funext x i
  unfold splice bufferAt
  by_cases h1 : i < 512 ∧ start ≤ x ∧ offset + n ≤ 512 * (x - start) + i ∧
      512 * (x - start) + i < offset + n + m
  · rw [if_pos h1, if_pos (by omega)]
    congr 1
    omega
  · rw [if_neg h1]
    by_cases h2 : i < 512 ∧ start ≤ x ∧ offset ≤ 512 * (x - start) + i ∧
        512 * (x - start) + i < offset + n
    · rw [if_pos h2, if_pos (by omega)]
    · rw [if_neg h2, if_neg (by omega)]

theorem writeSector_congr {k : Disk} {n : Nat} {b b' : Buffer} (h : ∀ j < 512, b j = b' j) :
    writeSector k n b = writeSector k n b' := by
  funext x j
  unfold writeSector
  by_cases hx : x = n ∧ j < sectorSize
  · rw [if_pos hx, if_pos hx, h j hx.2]
  · rw [if_neg hx, if_neg hx]

/-- One sector written with a part of it replaced. -/
theorem writeSector_eq_splice {k : Disk} {start offset n : Nat} {b buffer : Buffer} {i : Nat}
    (hn : offset % 512 + n ≤ 512)
    (hb : ∀ j < 512, (j < offset % 512 ∨ offset % 512 + n ≤ j) → b j = k (start + offset / 512) j) :
    writeSector k (start + offset / 512) (memcpy b (offset % 512) buffer i n) =
      splice k start offset n (bufferAt buffer i) := by
  funext x j
  unfold writeSector splice bufferAt sectorSize
  by_cases hx : x = start + offset / 512 ∧ j < 512
  · rw [if_pos hx]
    by_cases hj : offset % 512 ≤ j ∧ j < offset % 512 + n
    · rw [memcpy_in hj.1 hj.2, if_pos (by omega)]
      congr 1
      omega
    · rw [memcpy_out (by omega), if_neg (by omega), hb j hx.2 (by omega), hx.1]
  · rw [if_neg hx, if_neg (by omega)]

section

variable {d : DiskInode} {size offset : Nat} {bounce : Bool} {mem : List Bool} {c : Chunk}

theorem ioLen_sub {n : Nat} (h : n ≤ ioLen d size offset) :
    ioLen d (size - n) (offset + n) = ioLen d size offset - n := by
  unfold ioLen at *
  omega

theorem transfer_noBounce (h : NoBounce (ioLen d size offset) offset bounce) :
    transfer d size offset bounce mem = (ioLen d size offset, mem) := if_pos h

theorem transfer_needs (h : ¬ NoBounce (ioLen d size offset) offset bounce) :
    transfer d size offset bounce mem =
      (if mem.headD true then ioLen d size offset else wholePart (ioLen d size offset) offset,
        mem.tail) := if_neg h

theorem wholePart_le (n offset : Nat) : wholePart n offset ≤ n := by
  unfold wholePart
  split <;> omega

theorem transfer_le : (transfer d size offset bounce mem).1 ≤ ioLen d size offset := by
  by_cases h : NoBounce (ioLen d size offset) offset bounce
  · rw [transfer_noBounce h]
  · rw [transfer_needs h]
    dsimp only
    split
    · exact Nat.le_refl _
    · exact wholePart_le ..

theorem transfer_none (h : nextChunk d size offset = none) :
    transfer d size offset bounce mem = (0, mem) := by
  have h0 := nextChunk_eq_none h
  rw [transfer_noBounce (.inl h0), h0]

/-- The chunk is inside the range and inside its sector. -/
theorem nextChunk_le (h : nextChunk d size offset = some c) :
    0 < c.size ∧ c.size ≤ ioLen d size offset ∧ offset % 512 + c.size ≤ 512 := by
  obtain ⟨hpos, -, hsize, -⟩ := nextChunk_eq_some h
  omega

theorem transfer_whole (h : nextChunk d size offset = some c) (hw : c.whole = true) :
    transfer d size offset bounce mem =
      (c.size + (transfer d (size - c.size) (offset + c.size) bounce mem).1,
        (transfer d (size - c.size) (offset + c.size) bounce mem).2) := by
  obtain ⟨hpos, hofs, hsize, -⟩ := nextChunk_eq_some h
  have hsub := ioLen_sub (nextChunk_le h).2.1
  obtain ⟨h0, h512⟩ := Chunk.whole_iff.mp hw
  have ho : offset % 512 = 0 := by omega
  have hn : 512 ≤ ioLen d size offset := by omega
  rw [h512] at hsub ⊢
  have hiff : NoBounce (ioLen d (size - 512) (offset + 512)) (offset + 512) bounce ↔
      NoBounce (ioLen d size offset) offset bounce := by
    rw [hsub]
    unfold NoBounce
    cases bounce
    · simp only [Bool.false_eq_true, false_or]
      omega
    · simp
  by_cases hb : NoBounce (ioLen d size offset) offset bounce
  · rw [transfer_noBounce hb, transfer_noBounce (hiff.mpr hb), hsub, Prod.mk.injEq]
    exact ⟨by omega, rfl⟩
  · rw [transfer_needs hb, transfer_needs (mt hiff.mp hb), hsub, Prod.mk.injEq]
    unfold wholePart
    refine ⟨?_, rfl⟩
    cases mem.headD true
    · rw [if_neg Bool.false_ne_true, if_neg Bool.false_ne_true, if_pos ho, if_pos (by omega)]
      omega
    · rw [if_pos rfl, if_pos rfl]
      omega

theorem transfer_bounce (h : nextChunk d size offset = some c) :
    transfer d size offset true mem =
      (c.size + (transfer d (size - c.size) (offset + c.size) true mem).1,
        (transfer d (size - c.size) (offset + c.size) true mem).2) := by
  have hle := (nextChunk_le h).2.1
  rw [transfer_noBounce (.inr (.inl rfl)), transfer_noBounce (.inr (.inl rfl)), ioLen_sub hle,
    Prod.mk.injEq]
  exact ⟨by omega, rfl⟩

theorem transfer_part (h : nextChunk d size offset = some c) (hw : ¬ c.whole = true) :
    transfer d size offset false mem =
      if mem.headD true then transfer d size offset true mem.tail else (0, mem.tail) := by
  obtain ⟨hpos, hofs, hsize, -⟩ := nextChunk_eq_some h
  rw [Chunk.whole_iff] at hw
  have hneeds : ¬ NoBounce (ioLen d size offset) offset false := by
    unfold NoBounce
    simp only [Bool.false_eq_true, false_or]
    omega
  have hzero : wholePart (ioLen d size offset) offset = 0 := by
    unfold wholePart
    split <;> omega
  rw [transfer_needs hneeds, transfer_noBounce (.inr (.inl rfl)), hzero]
  split <;> rfl

end

/-! ## The two loops -/

/-- The data sectors of the file are on a disk of that capacity. -/
def OnDisk (capacity : Nat) (d : DiskInode) : Prop :=
  ∀ pos : Nat, (pos : Int) < d.length → d.start + pos / 512 < capacity

theorem nextChunk_sector {capacity : Nat} {d : DiskInode} {size offset : Nat} {c : Chunk}
    (hcap : capacity ≤ 2 ^ 28) (hd : OnDisk capacity d) (h : nextChunk d size offset = some c) :
    c.sector = d.start + offset / 512 ∧ c.sector < capacity := by
  obtain ⟨hpos, -, -, hsec⟩ := nextChunk_eq_some h
  have hlt : (offset : Int) < d.length := by unfold ioLen at hpos; omega
  rw [hsec, byteToSector_eq hlt (hd offset hlt) hcap]
  exact ⟨rfl, hd offset hlt⟩

theorem writePart_run {c : Chunk} {s : Fs} (h : c.sector < s.capacity) (buffer : Buffer) (i : Nat) :
    writePart c buffer i s = .ok ((), { s with
      disk := writeSector s.disk c.sector (memcpy (s.disk c.sector) c.ofs buffer i c.size) }) := by
  unfold writePart
  split
  · rw [bind_run, diskRead_run h]
    exact diskWrite_run h _
  · next hw =>
    apply (diskWrite_run h _).trans
    rw [writeSector_congr]
    intro j hj
    unfold sectorSize at hw
    rw [memcpy_in (by omega) (by omega), memcpy_in (by omega) (by omega)]

theorem writeLoop_run (d : DiskInode) (buffer : Buffer) :
    ∀ (fuel size offset written : Nat) (bounce : Bool) (s : Fs), size ≤ fuel → OnDisk s.capacity d →
      writeLoop d buffer fuel size offset written bounce s =
        .ok (written + (transfer d size offset bounce s.mem).1,
          { s with
            disk := splice s.disk d.start offset (transfer d size offset bounce s.mem).1
              (bufferAt buffer written)
            mem := (transfer d size offset bounce s.mem).2 })
  | 0, size, offset, written, bounce, s, hf, _ => by
    have h0 : ioLen d size offset = 0 := by unfold ioLen; omega
    rw [transfer_noBounce (.inl h0), h0, splice_zero]
    rfl
  | fuel + 1, size, offset, written, bounce, s, hf, hd => by
    unfold writeLoop
    cases hc : nextChunk d size offset with
    | none =>
      rw [transfer_none hc, splice_zero]
      rfl
    | some c =>
      obtain ⟨hpos, hle, hsec⟩ := nextChunk_le hc
      obtain ⟨-, hofs, -, -⟩ := nextChunk_eq_some hc
      obtain ⟨hs, hcap⟩ := nextChunk_sector s.lba28 hd hc
      have hfuel : size - c.size ≤ fuel := by unfold ioLen at hle; omega
      have hchunk : writeSector s.disk c.sector
          (memcpy (s.disk c.sector) c.ofs buffer written c.size) =
            splice s.disk d.start offset c.size (bufferAt buffer written) := by
        rw [hs, hofs]
        exact writeSector_eq_splice hsec fun _ _ _ => rfl
      have hrec : ∀ (b' : Bool) (m : List Bool), writeLoop d buffer fuel (size - c.size)
          (offset + c.size) (written + c.size) b'
          { s with disk := splice s.disk d.start offset c.size (bufferAt buffer written), mem := m } =
          .ok (written + (c.size + (transfer d (size - c.size) (offset + c.size) b' m).1),
            { s with
              disk := splice s.disk d.start offset
                (c.size + (transfer d (size - c.size) (offset + c.size) b' m).1)
                (bufferAt buffer written)
              mem := (transfer d (size - c.size) (offset + c.size) b' m).2 }) := by
        intro b' m
        refine (writeLoop_run d buffer fuel _ _ _ _ _ hfuel ?_).trans ?_
        · exact hd
        · rw [← splice_splice, bufferAt_bufferAt, Nat.add_assoc]
      simp only
      by_cases hw : c.whole = true
      · obtain ⟨h0, h512⟩ := Chunk.whole_iff.mp hw
        have hB : writeSector s.disk c.sector (bufferAt buffer written) =
            splice s.disk d.start offset c.size (bufferAt buffer written) := by
          rw [← hchunk]
          refine writeSector_congr fun j hj => ?_
          rw [h0, h512, memcpy_in (by omega) (by omega), Nat.sub_zero]
          rfl
        rw [if_pos hw, bind_run, diskWrite_run hcap, hB, transfer_whole hc hw]
        exact hrec bounce s.mem
      · rw [if_neg hw, bind_run]
        cases bounce with
        | true =>
          rw [transfer_bounce hc]
          show (writePart c buffer written >>= fun _ => _) s = _
          rw [bind_run, writePart_run hcap, hchunk]
          exact hrec true s.mem
        | false =>
          rw [transfer_part hc hw, show getBounce false s = _ from malloc_run s]
          by_cases hm : s.mem.headD true = true
          · rw [if_pos hm, transfer_bounce hc, hm]
            show (writePart c buffer written >>= fun _ => _) { s with mem := s.mem.tail } = _
            rw [bind_run, writePart_run (s := { s with mem := s.mem.tail }) hcap, hchunk]
            exact hrec true s.mem.tail
          · rw [if_neg hm, splice_zero, Bool.eq_false_iff.mpr hm]
            rfl

/-- What a read leaves in the buffer. -/
theorem memcpy_fileByte {k : Disk} {start offset n : Nat} {buffer : Buffer} {done : Nat}
    (hn : offset % 512 + n ≤ 512) :
    memcpy buffer done (k (start + offset / 512)) (offset % 512) n =
      memcpy buffer done (fileByte k start) offset n := by
  funext j
  by_cases hj : done ≤ j ∧ j < done + n
  · rw [memcpy_in hj.1 hj.2, memcpy_in hj.1 hj.2]
    unfold fileByte
    rw [show (offset + (j - done)) / 512 = offset / 512 by omega,
      show (offset + (j - done)) % 512 = offset % 512 + (j - done) by omega]
  · rw [memcpy_out (by omega), memcpy_out (by omega)]

theorem readLoop_run (d : DiskInode) :
    ∀ (fuel : Nat) (buffer : Buffer) (size offset done : Nat) (bounce : Bool) (s : Fs),
      size ≤ fuel → OnDisk s.capacity d →
      readLoop d fuel buffer size offset done bounce s =
        .ok ((done + (transfer d size offset bounce s.mem).1,
            memcpy buffer done (fileByte s.disk d.start) offset
              (transfer d size offset bounce s.mem).1),
          { s with mem := (transfer d size offset bounce s.mem).2 })
  | 0, buffer, size, offset, done, bounce, s, hf, _ => by
    have h0 : ioLen d size offset = 0 := by unfold ioLen; omega
    rw [transfer_noBounce (.inl h0), h0, memcpy_zero]
    rfl
  | fuel + 1, buffer, size, offset, done, bounce, s, hf, hd => by
    unfold readLoop
    cases hc : nextChunk d size offset with
    | none =>
      rw [transfer_none hc, memcpy_zero]
      rfl
    | some c =>
      obtain ⟨hpos, hle, hsec⟩ := nextChunk_le hc
      obtain ⟨-, hofs, -, -⟩ := nextChunk_eq_some hc
      obtain ⟨hs, hcap⟩ := nextChunk_sector s.lba28 hd hc
      have hfuel : size - c.size ≤ fuel := by unfold ioLen at hle; omega
      have hchunk : memcpy buffer done (s.disk c.sector) c.ofs c.size =
          memcpy buffer done (fileByte s.disk d.start) offset c.size := by
        rw [hs, hofs]
        exact memcpy_fileByte hsec
      have hrec : ∀ (b' : Bool) (m : List Bool), readLoop d fuel
          (memcpy buffer done (fileByte s.disk d.start) offset c.size) (size - c.size)
          (offset + c.size) (done + c.size) b' { s with mem := m } =
          .ok ((done + (c.size + (transfer d (size - c.size) (offset + c.size) b' m).1),
              memcpy buffer done (fileByte s.disk d.start) offset
                (c.size + (transfer d (size - c.size) (offset + c.size) b' m).1)),
            { s with mem := (transfer d (size - c.size) (offset + c.size) b' m).2 }) := by
        intro b' m
        refine (readLoop_run d fuel _ _ _ _ _ _ hfuel ?_).trans ?_
        · exact hd
        · rw [memcpy_memcpy, Nat.add_assoc]
      simp only
      by_cases hw : c.whole = true
      · obtain ⟨h0, h512⟩ := Chunk.whole_iff.mp hw
        rw [if_pos hw, bind_run, diskRead_run hcap, transfer_whole hc hw]
        rw [h0, h512] at hchunk
        show readLoop d fuel (memcpy buffer done (s.disk c.sector) 0 512) _ _ _ _ s = _
        rw [hchunk, ← h512]
        exact hrec bounce s.mem
      · rw [if_neg hw, bind_run]
        cases bounce with
        | true =>
          rw [transfer_bounce hc]
          show (diskRead c.sector >>= fun _ => _) s = _
          rw [bind_run, diskRead_run hcap]
          show readLoop d fuel (memcpy buffer done (s.disk c.sector) c.ofs c.size) _ _ _ _ s = _
          rw [hchunk]
          exact hrec true s.mem
        | false =>
          rw [transfer_part hc hw, show getBounce false s = _ from malloc_run s]
          by_cases hm : s.mem.headD true = true
          · rw [if_pos hm, transfer_bounce hc, hm]
            show (diskRead c.sector >>= fun _ => _) { s with mem := s.mem.tail } = _
            rw [bind_run, diskRead_run (s := { s with mem := s.mem.tail }) hcap]
            show readLoop d fuel (memcpy buffer done (s.disk c.sector) c.ofs c.size) _ _ _ _ _ = _
            rw [hchunk]
            exact hrec true s.mem.tail
          · rw [if_neg hm, memcpy_zero, Bool.eq_false_iff.mpr hm]
            rfl

section

variable {p : Ptr} {n : Inode} {s : Fs} {size : Int} {offset : Nat}

/-- **`inode_read_at`**: the bytes of the range are copied to the buffer. -/
theorem readAt_run (hp : s.inode? p = some n) (hd : OnDisk s.capacity n.data) (buffer : Buffer) :
    inodeReadAt p buffer size offset s =
      .ok (((transfer n.data size.toNat offset false s.mem).1,
          memcpy buffer 0 (fileByte s.disk n.data.start) offset
            (transfer n.data size.toNat offset false s.mem).1),
        { s with mem := (transfer n.data size.toNat offset false s.mem).2 }) := by
  rw [inodeReadAt, bind_run, getInode_run hp]
  apply (readLoop_run n.data _ _ _ _ _ _ _ (Nat.le_refl _) hd).trans
  rw [Nat.zero_add]

/-- **`inode_write_at`**: the bytes of the range are replaced, and no others. -/
theorem writeAt_run (hp : s.inode? p = some n) (hdeny : n.denyWriteCnt = 0) (hd : OnDisk s.capacity n.data)
    (buffer : Buffer) :
    inodeWriteAt p buffer size offset s =
      .ok ((transfer n.data size.toNat offset false s.mem).1,
        { s with
          disk := splice s.disk n.data.start offset
            (transfer n.data size.toNat offset false s.mem).1 buffer
          mem := (transfer n.data size.toNat offset false s.mem).2 }) := by
  rw [inodeWriteAt, bind_run, getInode_run hp]
  show (if n.denyWriteCnt ≠ 0 then (pure 0 : M Nat)
    else writeLoop n.data buffer size.toNat size.toNat offset 0 false) s = _
  rw [if_neg (by simpa using hdeny)]
  apply (writeLoop_run n.data buffer _ _ _ _ _ _ (Nat.le_refl _) hd).trans
  rw [Nat.zero_add, bufferAt_zero]

/-- A denied write changes nothing. -/
theorem writeAt_denied (hp : s.inode? p = some n) (hdeny : n.denyWriteCnt ≠ 0) (buffer : Buffer) :
    inodeWriteAt p buffer size offset s = .ok (0, s) := by
  rw [inodeWriteAt, bind_run, getInode_run hp]
  show (if n.denyWriteCnt ≠ 0 then (pure 0 : M Nat)
    else writeLoop n.data buffer size.toNat size.toNat offset 0 false) s = _
  rw [if_pos hdeny]
  rfl

end

end Pintos.Filesys
