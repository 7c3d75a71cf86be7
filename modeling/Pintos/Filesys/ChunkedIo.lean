import Pintos.Filesys.InodeIo

/-!
# Sector-wise transfers as one splice (filesys/inode.c)

`inode_read_at` and `inode_write_at` copy and replace one range of the bytes of a file. To say which
sectors they access the two loops are written again over a disk driver; with the driver that
refuses every sector but those of the file they do the same.
-/

namespace Pintos.Filesys

open Pintos.Base Pintos.Kernel

/-! ## The loops over a driver -/

structure Driver where
  read : Nat → M Buffer
  write : Nat → Buffer → M Unit

def Driver.disk : Driver := ⟨diskRead, diskWrite⟩

/-- The driver without the sectors that are not `ok`. -/
def Driver.only (dr : Driver) (ok : Nat → Bool) : Driver where
  read x := if ok x then dr.read x else throw .capacity
  write x b := if ok x then dr.write x b else throw .capacity

namespace Driver

variable (dr : Driver)

def readLoop (d : DiskInode) :
    (fuel : Nat) → Buffer → (size offset bytesRead : Nat) → (bounce : Bool) → M (Nat × Buffer)
  | 0, buffer, _, _, bytesRead, _ => pure (bytesRead, buffer)
  | fuel + 1, buffer, size, offset, bytesRead, bounce =>
    match nextChunk d size offset with
    | none => pure (bytesRead, buffer)
    | some c =>
      if c.whole then do
        let b ← dr.read c.sector
        readLoop d fuel (memcpy buffer bytesRead b 0 sectorSize) (size - c.size) (offset + c.size)
          (bytesRead + c.size) bounce
      else do
        if ← getBounce bounce then
          let b ← dr.read c.sector
          readLoop d fuel (memcpy buffer bytesRead b c.ofs c.size) (size - c.size)
            (offset + c.size) (bytesRead + c.size) true
        else pure (bytesRead, buffer)

def writePart (c : Chunk) (buffer : Buffer) (bytesWritten : Nat) : M Unit := do
  let b ← if 0 < c.ofs ∨ c.size < sectorSize - c.ofs then dr.read c.sector else pure zeros
  dr.write c.sector (memcpy b c.ofs buffer bytesWritten c.size)

def writeLoop (d : DiskInode) (buffer : Buffer) :
    (fuel : Nat) → (size offset bytesWritten : Nat) → (bounce : Bool) → M Nat
  | 0, _, _, bytesWritten, _ => pure bytesWritten
  | fuel + 1, size, offset, bytesWritten, bounce =>
    match nextChunk d size offset with
    | none => pure bytesWritten
    | some c =>
      if c.whole then do
        dr.write c.sector (bufferAt buffer bytesWritten)
        writeLoop d buffer fuel (size - c.size) (offset + c.size) (bytesWritten + c.size) bounce
      else do
        if ← getBounce bounce then
          dr.writePart c buffer bytesWritten
          writeLoop d buffer fuel (size - c.size) (offset + c.size) (bytesWritten + c.size) true
        else pure bytesWritten

/-- `inode_read_at` over the driver, with a bound on the rounds of its loop. -/
def inodeReadAt (fuel : Nat) (p : Ptr) (buffer : Buffer) (size : Int) (offset : Nat) :
    M (Nat × Buffer) := do
  let n ← getInode p
  dr.readLoop n.data fuel buffer size.toNat offset 0 false

/-- `inode_write_at` over the driver. -/
def inodeWriteAt (fuel : Nat) (p : Ptr) (buffer : Buffer) (size : Int) (offset : Nat) : M Nat := do
  let n ← getInode p
  if n.denyWriteCnt ≠ 0 then pure 0
  else dr.writeLoop n.data buffer fuel size.toNat offset 0 false

end Driver

/-- The sector holds data of the file. -/
def DiskInode.holds (d : DiskInode) (x : Nat) : Bool :=
  decide (d.start ≤ x) && decide (((512 * (x - d.start) : Nat) : Int) < d.length)

theorem DiskInode.holds_byte {d : DiskInode} {pos : Nat} (h : (pos : Int) < d.length) :
    d.holds (d.start + pos / 512) = true := by
  rw [DiskInode.holds, Bool.and_eq_true, decide_eq_true_iff, decide_eq_true_iff]
  omega

section

variable {d : DiskInode} {cap : Nat}

/-- A round accesses a sector of the file. -/
theorem only_sector (hcap : cap ≤ 2 ^ 28) (hd : OnDisk cap d) {size offset : Nat} {c : Chunk}
    (hc : nextChunk d size offset = some c) : d.holds c.sector = true := by
  obtain ⟨hpos, -, -, -⟩ := nextChunk_eq_some hc
  rw [(nextChunk_sector hcap hd hc).1]
  apply DiskInode.holds_byte
  unfold ioLen at hpos
  omega

theorem only_read {x : Nat} (h : d.holds x = true) : (Driver.disk.only d.holds).read x = diskRead x :=
  if_pos h

theorem only_write {x : Nat} (h : d.holds x = true) (b : Buffer) :
    (Driver.disk.only d.holds).write x b = diskWrite x b := if_pos h

/-- **No other sector is read** by the loop of `inode_read_at`. -/
theorem readLoop_only (hcap : cap ≤ 2 ^ 28) (hd : OnDisk cap d) (fuel : Nat) :
    ∀ (buffer : Buffer) (size offset done : Nat) (bounce : Bool),
      (Driver.disk.only d.holds).readLoop d fuel buffer size offset done bounce =
        readLoop d fuel buffer size offset done bounce := by
  induction fuel with
  | zero => exact fun _ _ _ _ _ => rfl
  | succ fuel ih =>
    intro buffer size offset done bounce
    unfold Driver.readLoop readLoop
    cases hc : nextChunk d size offset with
    | none => rfl
    | some c =>
      have hx := only_sector hcap hd hc
      simp only [only_read hx, ih]

theorem writePart_only {c : Chunk} (hx : d.holds c.sector = true) (buffer : Buffer) (done : Nat) :
    (Driver.disk.only d.holds).writePart c buffer done = writePart c buffer done := by
  unfold Driver.writePart writePart
  simp only [only_read hx, only_write hx]

/-- **No other sector is read or written** by the loop of `inode_write_at`. -/
theorem writeLoop_only (hcap : cap ≤ 2 ^ 28) (hd : OnDisk cap d) (buffer : Buffer) (fuel : Nat) :
    ∀ (size offset done : Nat) (bounce : Bool),
      (Driver.disk.only d.holds).writeLoop d buffer fuel size offset done bounce =
        writeLoop d buffer fuel size offset done bounce := by
  induction fuel with
  | zero => exact fun _ _ _ _ => rfl
  | succ fuel ih =>
    intro size offset done bounce
    unfold Driver.writeLoop writeLoop
    cases hc : nextChunk d size offset with
    | none => rfl
    | some c =>
      have hx := only_sector hcap hd hc
      simp only [only_write hx, writePart_only hx, ih]

/-! ## The bytes -/

/-- With memory for the bounce buffer the whole range is moved. -/
theorem transfer_of_granted {size offset : Nat} {bounce : Bool} {mem : List Bool}
    (hmem : ∀ b ∈ mem, b = true) : (transfer d size offset bounce mem).1 = ioLen d size offset := by
  have hhead : mem.headD true = true := by
    cases mem with
    | nil => rfl
    | cons b l => exact hmem b List.mem_cons_self
  by_cases h : NoBounce (ioLen d size offset) offset bounce
  · rw [transfer_noBounce h]
  · rw [transfer_needs h, if_pos hhead]

theorem ioLen_eq (size : Int) (offset : Nat) :
    (ioLen d size.toNat offset : Int) = max 0 (min size (d.length - offset)) := by
  unfold ioLen
  omega

/-- The bytes of the file after a write. -/
theorem fileByte_spliced (k : Disk) (start offset n pos : Nat) (b : Buffer) :
    fileByte (splice k start offset n b) start pos =
      if offset ≤ pos ∧ pos < offset + n then b (pos - offset) else fileByte k start pos := by
  unfold fileByte splice
  have h : 512 * (start + pos / 512 - start) + pos % 512 = pos := by omega
  rw [h]
  by_cases hp : offset ≤ pos ∧ pos < offset + n
  · rw [if_pos ⟨by omega, by omega, hp.1, hp.2⟩, if_pos hp]
  · rw [if_neg fun hc => hp ⟨hc.2.2.1, hc.2.2.2⟩, if_neg hp]

/-- A byte on disk that is no byte of the range. -/
theorem splice_other {k : Disk} {start offset n x i : Nat} {b : Buffer}
    (h : ∀ pos, offset ≤ pos → pos < offset + n → ¬ (x = start + pos / 512 ∧ i = pos % 512)) :
    splice k start offset n b x i = k x i := by
  refine if_neg fun hc => h (512 * (x - start) + i) hc.2.2.1 hc.2.2.2 ?_
  omega

end

/-! ## The claim -/

/-- **Sector-wise transfers are one splice.** With any bound on the rounds from `size` on, and with
the sectors of the file as the only ones, the loops return; the read copies `len` bytes of the file
to the buffer, the write replaces them by those of the buffer, and nothing else changes. -/
theorem chunked_io_splices {s : Fs} {p : Ptr} {n : Inode} (hp : s.inode? p = some n)
    (hd : OnDisk s.capacity n.data) (hmem : ∀ b ∈ s.mem, b = true) (hdeny : n.denyWriteCnt = 0)
    (buffer : Buffer) (size : Int) (offset : Nat) :
    ∃ len : Nat, (len : Int) = max 0 (min size (n.data.length - offset)) ∧
      (∃ out mem, inodeReadAt p buffer size offset s = .ok ((len, out), { s with mem := mem }) ∧
        (∀ fuel ≥ size.toNat,
          (Driver.disk.only n.data.holds).inodeReadAt fuel p buffer size offset s =
            inodeReadAt p buffer size offset s) ∧
        ∀ i, out i = if i < len then fileByte s.disk n.data.start (offset + i) else buffer i) ∧
      ∃ disk mem, inodeWriteAt p buffer size offset s =
          .ok (len, { s with disk := disk, mem := mem }) ∧
        (∀ fuel ≥ size.toNat,
          (Driver.disk.only n.data.holds).inodeWriteAt fuel p buffer size offset s =
            inodeWriteAt p buffer size offset s) ∧
        (∀ pos, fileByte disk n.data.start pos =
          if offset ≤ pos ∧ pos < offset + len then buffer (pos - offset)
          else fileByte s.disk n.data.start pos) ∧
        ∀ x i, (∀ pos, offset ≤ pos → pos < offset + len →
          ¬ (x = n.data.start + pos / 512 ∧ i = pos % 512)) → disk x i = s.disk x i := by
  have hlen : (transfer n.data size.toNat offset false s.mem).1 = ioLen n.data size.toNat offset :=
    transfer_of_granted hmem
  have hread := @readAt_run p n s size offset hp hd buffer
  have hwrite := @writeAt_run p n s size offset hp hdeny hd buffer
  rw [hlen] at hread hwrite
  refine ⟨ioLen n.data size.toNat offset, ioLen_eq size offset, ⟨_, _, hread, fun fuel hf => ?_,
    fun i => ?_⟩, _, _, hwrite, fun fuel hf => ?_, fun pos => fileByte_spliced .., fun x i h =>
    splice_other h⟩
  · have hrun := readLoop_run n.data fuel buffer size.toNat offset 0 false s hf hd
    rw [hlen, Nat.zero_add] at hrun
    rw [hread, Driver.inodeReadAt, bind_run, getInode_run hp, ok_bind,
      readLoop_only s.lba28 hd fuel buffer size.toNat offset 0 false]
    exact hrun
  · by_cases hi : i < ioLen n.data size.toNat offset
    · rw [memcpy_in (Nat.zero_le _) (by omega), if_pos hi, Nat.sub_zero]
    · rw [memcpy_out (by omega), if_neg hi]
  · have hrun := writeLoop_run n.data buffer fuel size.toNat offset 0 false s hf hd
    rw [hlen, Nat.zero_add, bufferAt_zero] at hrun
    rw [hwrite, Driver.inodeWriteAt, bind_run, getInode_run hp, ok_bind, if_neg (by simpa using hdeny),
      writeLoop_only s.lba28 hd buffer fuel size.toNat offset 0 false]
    exact hrun

/-- An open file of 1000 bytes in the sectors 3 and 4. -/
def thousand : Inode := ⟨1, 2, 1, false, 0, ⟨3, 1000, inodeMagic⟩⟩

def thousandDisk : Fs where
  capacity := 16
  lba28 := by decide
  disk := fun _ => zeros
  freeMap := bitmapCreate 16
  freeMapFile := none
  openInodes := [thousand]
  files := []
  next := 2
  mem := [true]
  released := []

/-- A read and a write across the sector boundary that end with the file. -/
theorem thousand_crossed :
    ∃ out mem disk mem', inodeReadAt 1 zeros 2000 300 thousandDisk =
        .ok ((700, out), { thousandDisk with mem := mem }) ∧
      inodeWriteAt 1 zeros 2000 300 thousandDisk =
        .ok (700, { thousandDisk with disk := disk, mem := mem' }) ∧ disk 4 487 = 0 := by
  have hd : OnDisk 16 thousand.data := fun pos hpos => by
    simp only [thousand] at hpos ⊢
    omega
  obtain ⟨len, hlen, ⟨out, mem, hread, -⟩, disk, mem', hwrite, -, hbyte, -⟩ :=
    chunked_io_splices (s := thousandDisk) (p := 1) (n := thousand) rfl hd (by decide) rfl
      zeros 2000 300
  obtain rfl : len = 700 := by
    rw [show thousand.data.length = 1000 from rfl] at hlen
    omega
  exact ⟨out, mem, disk, mem', hread, hwrite, hbyte 999⟩

end Pintos.Filesys
