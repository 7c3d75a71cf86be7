import Pintos.Base.Reach
import Pintos.Filesys.InodeIo
import Mathlib.Logic.Function.Basic

/-!
# Two writers on one inode (filesys/inode.c, userprog/syscall.c)

`inode_write_at` is called without a lock, so that two processes can be inside it
at once. A writer moves by one disk operation at a time, each atomic under the
channel lock; what it does in between is its own. The bounce buffer is private: a
sector that both calls touch is read by one, written by the other and then
overwritten from the stale copy.

`writer_alone` ties the writer to `inode_write_at`: left alone, it leaves the disk
and returns the count that `inodeWriteAt` computes.
-/

namespace Pintos.Filesys

open Pintos.Base Pintos.Kernel

/-- A call of `inode_write_at`. -/
structure Req where
  buffer : Buffer
  size : Nat
  offset : Nat
  /-- The answer of the allocator to the request for the bounce buffer. -/
  granted : Bool

/-- Where a writer is. -/
inductive Pc where
  /-- At the head of the loop. -/
  | loop (size offset written : Nat) (bounce : Bool)
  /-- Between the read of a sector into the bounce buffer and its write. -/
  | merge (c : Chunk) (size offset written : Nat) (bounce : Buffer)
  | returned (n : Nat)

def writerStart (n : Inode) (r : Req) : Pc :=
  if n.denyWriteCnt ≠ 0 then .returned 0 else .loop r.size r.offset 0 false

/-- One move of a writer, up to and with its next disk operation. -/
def writerStep (d : DiskInode) (r : Req) (k : Disk) : Pc → Option (Disk × Pc)
  | .loop size offset written bounce =>
    match nextChunk d size offset with
    | none => some (k, .returned written)
    | some c =>
      if c.whole then
        some (writeSector k c.sector (bufferAt r.buffer written),
          .loop (size - c.size) (offset + c.size) (written + c.size) bounce)
      else if bounce || r.granted then
        if 0 < c.ofs ∨ c.size < sectorSize - c.ofs then
          some (k, .merge c size offset written (k c.sector))
        else
          some (writeSector k c.sector (memcpy zeros c.ofs r.buffer written c.size),
            .loop (size - c.size) (offset + c.size) (written + c.size) true)
      else some (k, .returned written)
  | .merge c size offset written bounce =>
    some (writeSector k c.sector (memcpy bounce c.ofs r.buffer written c.size),
      .loop (size - c.size) (offset + c.size) (written + c.size) true)
  | .returned _ => none

/-- The disk and the two writers. -/
structure Race where
  disk : Disk
  pc : Bool → Pc

def raceStart (n : Inode) (r : Bool → Req) (k : Disk) : Race where
  disk := k
  pc p := writerStart n (r p)

/-- The writer `p` moves. -/
def raceStep (d : DiskInode) (r : Bool → Req) (s : Race) (p : Bool) : Option Race :=
  (writerStep d (r p) s.disk (s.pc p)).map fun q =>
    { disk := q.1, pc := Function.update s.pc p q.2 }

/-- The bytes a call writes when it runs alone. -/
def Req.count (n : Inode) (r : Req) : Nat :=
  if n.denyWriteCnt ≠ 0 then 0 else (transfer n.data r.size r.offset false [r.granted]).1

/-- What a call does to the disk when it runs alone. -/
def Req.apply (n : Inode) (r : Req) (k : Disk) : Disk :=
  splice k n.data.start r.offset (r.count n) r.buffer

/-- `inode_write_at` has the count and the effect of the call. -/
theorem writeAt_eq_apply {p : Ptr} {n : Inode} {s : Fs} (r : Req) (hp : s.inode? p = some n)
    (hd : OnDisk s.capacity n.data) (hmem : s.mem = [r.granted]) :
    ∃ mem, inodeWriteAt p r.buffer r.size r.offset s =
      .ok (r.count n, { s with disk := r.apply n s.disk, mem := mem }) := by
  unfold Req.apply Req.count
  by_cases hdeny : n.denyWriteCnt = 0
  · rw [writeAt_run hp hdeny hd, hmem, if_neg (by simpa using hdeny)]
    exact ⟨_, rfl⟩
  · rw [writeAt_denied hp hdeny, if_pos hdeny, splice_zero]
    exact ⟨s.mem, rfl⟩

/-! ## A writer's moves -/

section

variable {d : DiskInode} {capacity : Nat} {r : Req} {k k' : Disk} {size offset written : Nat}
  {bounce : Bool} {pc' : Pc} {c : Chunk}

/-- A chunk written over the sector as it is on disk. -/
theorem writeChunk_eq_splice (hcap : capacity ≤ 2 ^ 28) (hd : OnDisk capacity d)
    (hc : nextChunk d size offset = some c) (k : Disk) (buffer : Buffer) (i : Nat) :
    writeSector k c.sector (memcpy (k c.sector) c.ofs buffer i c.size) =
      splice k d.start offset c.size (bufferAt buffer i) := by
  obtain ⟨-, hofs, -, -⟩ := nextChunk_eq_some hc
  rw [(nextChunk_sector hcap hd hc).1, hofs]
  exact writeSector_eq_splice (nextChunk_le hc).2.2 fun _ _ _ => rfl

theorem whole_buffer (hw : c.whole = true) (b buffer : Buffer) (i : Nat) (k : Disk) :
    writeSector k c.sector (bufferAt buffer i) =
      writeSector k c.sector (memcpy b c.ofs buffer i c.size) := by
  obtain ⟨h0, h512⟩ := Chunk.whole_iff.mp hw
  refine writeSector_congr fun j hj => ?_
  rw [h0, h512, memcpy_in (by omega) (by omega), Nat.sub_zero]
  rfl

/-- A part of a sector leaves some of it, so that the sector is read. -/
theorem part_reads (hc : nextChunk d size offset = some c) (hw : ¬ c.whole = true) :
    0 < c.ofs ∨ c.size < sectorSize - c.ofs := by
  have := nextChunk_le hc
  obtain ⟨-, hofs, -, -⟩ := nextChunk_eq_some hc
  rw [Chunk.whole_iff] at hw
  unfold sectorSize
  omega

/-- What a writer can do at the head of its loop. -/
theorem writerStep_loop (hcap : capacity ≤ 2 ^ 28) (hd : OnDisk capacity d) (r : Req) (k : Disk)
    (size offset written : Nat) (bounce : Bool) :
    (nextChunk d size offset = none ∧
      writerStep d r k (.loop size offset written bounce) = some (k, .returned written)) ∨
    (∃ c, nextChunk d size offset = some c ∧ c.whole = true ∧
      writerStep d r k (.loop size offset written bounce) =
        some (splice k d.start offset c.size (bufferAt r.buffer written),
          .loop (size - c.size) (offset + c.size) (written + c.size) bounce)) ∨
    (∃ c, nextChunk d size offset = some c ∧ ¬ c.whole = true ∧ (bounce || r.granted) = true ∧
      writerStep d r k (.loop size offset written bounce) =
        some (k, .merge c size offset written (k c.sector))) ∨
    (∃ c, nextChunk d size offset = some c ∧ ¬ c.whole = true ∧ (bounce || r.granted) = false ∧
      writerStep d r k (.loop size offset written bounce) = some (k, .returned written)) := by
  cases hc : nextChunk d size offset with
  | none => exact .inl ⟨rfl, by simp only [writerStep, hc]⟩
  | some c =>
    right
    by_cases hw : c.whole = true
    · refine .inl ⟨c, rfl, hw, ?_⟩
      simp only [writerStep, hc, hw, if_true]
      rw [whole_buffer hw (k c.sector), writeChunk_eq_splice hcap hd hc]
    · right
      by_cases hb : (bounce || r.granted) = true
      · refine .inl ⟨c, rfl, hw, hb, ?_⟩
        simp only [writerStep, hc]
        rw [if_neg hw, if_pos hb, if_pos (part_reads hc hw)]
      · refine .inr ⟨c, rfl, hw, Bool.eq_false_iff.mpr hb, ?_⟩
        simp only [writerStep, hc]
        rw [if_neg hw, if_neg hb]

end

/-! ## A writer that runs alone -/

section

variable {n : Inode} {capacity : Nat} {r : Bool → Req} {s₀ : Race}

theorem transfer_true (d : DiskInode) (size offset : Nat) (mem : List Bool) :
    transfer d size offset true mem = (ioLen d size offset, mem) :=
  transfer_noBounce (.inr (.inl rfl))

/-- With a bounce buffer at hand or granted, the answer to a request no longer matters. -/
theorem transfer_granted {d : DiskInode} {size offset : Nat} {bounce g : Bool}
    (h : (bounce || g) = true) : (transfer d size offset bounce [g]).1 = ioLen d size offset := by
  by_cases hb : NoBounce (ioLen d size offset) offset bounce
  · rw [transfer_noBounce hb]
  · have hg : g = true := by
      cases bounce
      · simpa using h
      · exact absurd (.inr (.inl rfl)) hb
    rw [transfer_needs hb, hg]
    rfl

theorem transfer_refused {d : DiskInode} {size offset : Nat} {bounce g : Bool} {c : Chunk}
    (hc : nextChunk d size offset = some c) (hw : ¬ c.whole = true) (h : (bounce || g) = false) :
    (transfer d size offset bounce [g]).1 = 0 := by
  obtain ⟨rfl, rfl⟩ := Bool.or_eq_false_iff.mp h
  rw [transfer_part hc hw]
  rfl

theorem transfer_advance {d : DiskInode} {size offset : Nat} {bounce g : Bool} {c : Chunk}
    (hc : nextChunk d size offset = some c) (h : (bounce || g) = true) :
    (transfer d size offset bounce [g]).1 =
      c.size + (transfer d (size - c.size) (offset + c.size) true [g]).1 := by
  have hle := (nextChunk_le hc).2.1
  rw [transfer_granted h, transfer_true, ioLen_sub hle]
  omega

/-- The writer `p` moves and the other one stays where it is. -/
theorem move {d : DiskInode} {s : Race} {p : Bool} {k : Disk} {pc pc' : Pc}
    (hs : Reach (raceStep d r) Free s₀ s) (hpc : s.pc p = pc)
    (h : writerStep d (r p) s.disk pc = some (k, pc')) :
    ∃ s', Reach (raceStep d r) Free s₀ s' ∧ s'.disk = k ∧ s'.pc p = pc' ∧
      s'.pc (!p) = s.pc (!p) := by
  have hstep : raceStep d r s p = some { disk := k, pc := Function.update s.pc p pc' } := by
    rw [raceStep, hpc, h]
    rfl
  exact ⟨_, hs.next trivial hstep, rfl, Function.update_self .., Function.update_of_ne (by simp) _ _⟩

/-- A part of a sector is read and written back in two moves. -/
theorem move_part {d : DiskInode} (hcap : capacity ≤ 2 ^ 28) (hd : OnDisk capacity d) {s : Race}
    {p : Bool} {size offset written : Nat} {c : Chunk} (hc : nextChunk d size offset = some c)
    (hs : Reach (raceStep d r) Free s₀ s)
    (hpc : s.pc p = .merge c size offset written (s.disk c.sector)) :
    ∃ s', Reach (raceStep d r) Free s₀ s' ∧
      s'.disk = splice s.disk d.start offset c.size (bufferAt (r p).buffer written) ∧
      s'.pc p = .loop (size - c.size) (offset + c.size) (written + c.size) true ∧
      s'.pc (!p) = s.pc (!p) := by
  obtain ⟨s', hs', hdisk, h⟩ := move hs hpc rfl
  exact ⟨s', hs', by rw [hdisk, writeChunk_eq_splice hcap hd hc], h⟩

/-- From the head of its loop a writer that runs alone reaches its end, and the
disk is the one `inode_write_at` leaves. -/
theorem alone {d : DiskInode} (hcap : capacity ≤ 2 ^ 28) (hd : OnDisk capacity d) {p : Bool}
    (size offset written : Nat) (bounce : Bool) (s : Race) (hs : Reach (raceStep d r) Free s₀ s)
    (hpc : s.pc p = .loop size offset written bounce) :
    ∃ s', Reach (raceStep d r) Free s₀ s' ∧
      s'.disk = splice s.disk d.start offset (transfer d size offset bounce [(r p).granted]).1
        (bufferAt (r p).buffer written) ∧
      s'.pc p = .returned (written + (transfer d size offset bounce [(r p).granted]).1) ∧
      s'.pc (!p) = s.pc (!p) := by
  rcases writerStep_loop hcap hd (r p) s.disk size offset written bounce with
    ⟨hc, e⟩ | ⟨c, hc, hw, e⟩ | ⟨c, hc, hw, hb, e⟩ | ⟨c, hc, hw, hb, e⟩
  · rw [transfer_none hc, splice_zero]
    exact move hs hpc e
  · have hle := nextChunk_le hc
    have hsize : c.size ≤ size := by unfold ioLen at hle; omega
    obtain ⟨s1, hs1, hd1, hp1, ho1⟩ := move hs hpc e
    obtain ⟨s', hs', hd', hp', ho'⟩ := alone hcap hd _ _ _ _ s1 hs1 hp1
    refine ⟨s', hs', ?_, ?_, ho'.trans ho1⟩
    · rw [hd', hd1, transfer_whole hc hw, ← splice_splice, bufferAt_bufferAt]
    · rw [hp', transfer_whole hc hw, Nat.add_assoc]
  · have hle := nextChunk_le hc
    have hsize : c.size ≤ size := by unfold ioLen at hle; omega
    obtain ⟨s1, hs1, hd1, hp1, ho1⟩ := move hs hpc e
    obtain ⟨s2, hs2, hd2, hp2, ho2⟩ := move_part hcap hd hc hs1 (by rw [hp1, hd1])
    obtain ⟨s', hs', hd', hp', ho'⟩ := alone hcap hd _ _ _ _ s2 hs2 hp2
    refine ⟨s', hs', ?_, ?_, ho'.trans (ho2.trans ho1)⟩
    · rw [hd', hd2, hd1, transfer_advance hc hb, ← splice_splice, bufferAt_bufferAt]
    · rw [hp', transfer_advance hc hb, Nat.add_assoc]
  · rw [transfer_refused hc hw hb, splice_zero]
    exact move hs hpc e
termination_by size

/-- From every state the writer `p` can reach its end. -/
theorem finish {d : DiskInode} (hcap : capacity ≤ 2 ^ 28) (hd : OnDisk capacity d) (p : Bool)
    {s : Race} (hs : Reach (raceStep d r) Free s₀ s) :
    ∃ s', Reach (raceStep d r) Free s₀ s' ∧ (∃ m, s'.pc p = .returned m) ∧
      s'.pc (!p) = s.pc (!p) := by
  cases hpc : s.pc p with
  | loop size offset written bounce =>
    obtain ⟨s', hs', -, hp', ho'⟩ := alone hcap hd _ _ _ _ s hs hpc
    exact ⟨s', hs', ⟨_, hp'⟩, ho'⟩
  | merge c size offset written b =>
    obtain ⟨s1, hs1, -, hp1, ho1⟩ := move hs hpc rfl
    obtain ⟨s', hs', -, hp', ho'⟩ := alone hcap hd _ _ _ _ s1 hs1 hp1
    exact ⟨s', hs', ⟨_, hp'⟩, ho'.trans ho1⟩
  | returned m => exact ⟨s, hs, ⟨m, hpc⟩, rfl⟩

/-- **Both calls return**: every interleaving can be continued to the end of both. -/
theorem race_returns {d : DiskInode} (hcap : capacity ≤ 2 ^ 28) (hd : OnDisk capacity d)
    (r : Bool → Req) (s : Race) :
    ∃ s', Reach (raceStep d r) Free s s' ∧ ∀ p, ∃ m, s'.pc p = .returned m := by
  obtain ⟨s1, hs1, ⟨m1, hm1⟩, -⟩ := finish hcap hd true (s := s) (r := r) .refl
  obtain ⟨s2, hs2, ⟨m2, hm2⟩, ho2⟩ := finish hcap hd false hs1
  refine ⟨s2, hs2, ?_⟩
  rintro (_ | _)
  · exact ⟨m2, hm2⟩
  · exact ⟨m1, ho2.trans hm1⟩

/-- A writer whose range ends inside a sector can be stopped between the read of its
last sector and the write. -/
theorem alone_merge {d : DiskInode} (hcap : capacity ≤ 2 ^ 28) (hd : OnDisk capacity d) {p : Bool}
    (hg : (r p).granted = true) (size offset written : Nat) (bounce : Bool) (s : Race)
    (hpos : 0 < size) (hin : ((offset + size : Nat) : Int) ≤ d.length)
    (hend : (offset + size) % 512 ≠ 0) (hs : Reach (raceStep d r) Free s₀ s)
    (hpc : s.pc p = .loop size offset written bounce) :
    ∃ s' c m, Reach (raceStep d r) Free s₀ s' ∧ m < size ∧
      nextChunk d (size - m) (offset + m) = some c ∧ c.size = size - m ∧
      s'.disk = splice s.disk d.start offset m (bufferAt (r p).buffer written) ∧
      s'.pc p = .merge c (size - m) (offset + m) (written + m) (s'.disk c.sector) ∧
      s'.pc (!p) = s.pc (!p) := by
  have hlen : ioLen d size offset = size := by unfold ioLen; omega
  rcases writerStep_loop hcap hd (r p) s.disk size offset written bounce with
    ⟨hc, e⟩ | ⟨c, hc, hw, e⟩ | ⟨c, hc, hw, hb, e⟩ | ⟨c, hc, hw, hb, e⟩
  · have := nextChunk_eq_none hc
    omega
  · have hle := nextChunk_le hc
    obtain ⟨-, hofs, hsize, -⟩ := nextChunk_eq_some hc
    obtain ⟨h0, h512⟩ := Chunk.whole_iff.mp hw
    obtain ⟨s1, hs1, hd1, hp1, ho1⟩ := move hs hpc e
    obtain ⟨s', c', m, hs', hm, hc', hsz', hd', hp', ho'⟩ := alone_merge hcap hd hg _ _ _ _ s1
      (by omega) (by omega) (by omega) hs1 hp1
    refine ⟨s', c', c.size + m, hs', by omega, ?_, by omega, ?_, ?_, ho'.trans ho1⟩
    · rw [← Nat.sub_sub, ← Nat.add_assoc]
      exact hc'
    · rw [hd', hd1, ← splice_splice, bufferAt_bufferAt]
    · rw [hp', ← Nat.sub_sub, Nat.add_assoc, Nat.add_assoc]
  · have hle := nextChunk_le hc
    obtain ⟨-, hofs, hsize, -⟩ := nextChunk_eq_some hc
    obtain ⟨s1, hs1, hd1, hp1, ho1⟩ := move hs hpc e
    by_cases hlast : c.size = size
    · refine ⟨s1, c, 0, hs1, hpos, hc, hlast, ?_, ?_, ho1⟩
      · rw [hd1, splice_zero]
      · rw [hp1, hd1]
        rfl
    · obtain ⟨s2, hs2, hd2, hp2, ho2⟩ := move_part hcap hd hc hs1 (by rw [hp1, hd1])
      obtain ⟨s', c', m, hs', hm, hc', hsz', hd', hp', ho'⟩ := alone_merge hcap hd hg _ _ _ _ s2
        (by omega) (by omega) (by omega) hs2 hp2
      refine ⟨s', c', c.size + m, hs', by omega, ?_, by omega, ?_, ?_, ho'.trans (ho2.trans ho1)⟩
      · rw [← Nat.sub_sub, ← Nat.add_assoc]
        exact hc'
      · rw [hd', hd2, hd1, ← splice_splice, bufferAt_bufferAt]
      · rw [hp', ← Nat.sub_sub, Nat.add_assoc, Nat.add_assoc]
  · rw [hg, Bool.or_true] at hb
    cases hb
termination_by size

end

/-! ## Writers that share no sector -/

/-- A sector of the range. -/
def Touches (d : DiskInode) (r : Req) (x : Nat) : Prop :=
  ∃ pos, r.offset ≤ pos ∧ pos < r.offset + r.size ∧ x = d.start + pos / 512

/-- In the sectors of its range the first `m` bytes of the call are written. -/
def Holds (d : DiskInode) (r : Req) (k₀ k : Disk) (m : Nat) : Prop :=
  ∀ x, Touches d r x → k x = splice k₀ d.start r.offset m r.buffer x

/-- A writer at the head of its loop, having started on the disk `k₀`. -/
structure AtLoop (n : Inode) (r : Req) (k₀ k : Disk) (size offset written : Nat) (bounce : Bool) :
    Prop where
  offset_eq : offset = r.offset + written
  size_eq : size + written = r.size
  granted : bounce = true → r.granted = true
  count_eq : written + (transfer n.data size offset bounce [r.granted]).1 = r.count n
  holds : Holds n.data r k₀ k written

def Progress (n : Inode) (r : Req) (k₀ k : Disk) : Pc → Prop
  | .loop size offset written bounce => AtLoop n r k₀ k size offset written bounce
  | .merge c size offset written b => AtLoop n r k₀ k size offset written true ∧
      nextChunk n.data size offset = some c ∧ b = k c.sector
  | .returned m => m = r.count n ∧ Holds n.data r k₀ k m

section

variable {n : Inode} {capacity : Nat} {r : Req} {k₀ k k' : Disk}

theorem AtLoop.touches {size offset written : Nat} {bounce : Bool}
    (h : AtLoop n r k₀ k size offset written bounce) {m : Nat} (hm : m ≤ size) {x : Nat}
    (hx : ¬ Touches n.data r x) :
    ∀ pos, offset ≤ pos → pos < offset + m → x ≠ n.data.start + pos / 512 := by
  intro pos h1 h2 hp
  have h3 := h.offset_eq
  have h4 := h.size_eq
  exact hx ⟨pos, by omega, by omega, hp⟩

/-- A chunk done. -/
theorem AtLoop.advance {size offset written : Nat} {bounce bounce' : Bool} {c : Chunk}
    (h : AtLoop n r k₀ k size offset written bounce) (hc : nextChunk n.data size offset = some c)
    (hg : bounce' = true → r.granted = true)
    (htr : (transfer n.data size offset bounce [r.granted]).1 =
      c.size + (transfer n.data (size - c.size) (offset + c.size) bounce' [r.granted]).1) :
    AtLoop n r k₀ (splice k n.data.start offset c.size (bufferAt r.buffer written))
      (size - c.size) (offset + c.size) (written + c.size) bounce' where
  offset_eq := by
    rw [h.offset_eq, Nat.add_assoc]
  size_eq := by
    have := nextChunk_le hc
    have := h.size_eq
    unfold ioLen at *
    omega
  granted := hg
  count_eq := by
    rw [← h.count_eq, htr]
    omega
  holds x hx := by
    rw [splice_congr (h.holds x hx), h.offset_eq, splice_splice]

/-- **A writer's own move** keeps its progress and writes in its own sectors only. -/
theorem Progress.step (hcap : capacity ≤ 2 ^ 28) (hd : OnDisk capacity n.data) {pc pc' : Pc}
    (h : Progress n r k₀ k pc) (hs : writerStep n.data r k pc = some (k', pc')) :
    Progress n r k₀ k' pc' ∧ ∀ x, ¬ Touches n.data r x → k' x = k x := by
  cases pc with
  | loop size offset written bounce =>
    rcases writerStep_loop hcap hd r k size offset written bounce with
      ⟨hc, e⟩ | ⟨c, hc, hw, e⟩ | ⟨c, hc, hw, hb, e⟩ | ⟨c, hc, hw, hb, e⟩
    all_goals
      rw [e] at hs
      cases hs
    · have hcount := h.count_eq
      rw [transfer_none hc] at hcount
      exact ⟨⟨hcount, h.holds⟩, fun _ _ => rfl⟩
    · have hle := nextChunk_le hc
      refine ⟨h.advance hc h.granted (by rw [transfer_whole hc hw]), fun x hx => ?_⟩
      exact splice_untouched (h.touches (by unfold ioLen at hle; omega) hx)
    · have hg : r.granted = true := by
        cases bounce
        · simpa using hb
        · exact h.granted rfl
      refine ⟨⟨⟨h.offset_eq, h.size_eq, fun _ => hg, ?_, h.holds⟩, hc, rfl⟩, fun _ _ => rfl⟩
      rw [← h.count_eq, transfer_granted hb, transfer_granted (by simp)]
    · have hcount := h.count_eq
      rw [transfer_refused hc hw hb] at hcount
      exact ⟨⟨hcount, h.holds⟩, fun _ _ => rfl⟩
  | merge c size offset written b =>
    obtain ⟨h, hc, rfl⟩ := h
    cases hs
    have hle := nextChunk_le hc
    rw [writeChunk_eq_splice hcap hd hc]
    refine ⟨h.advance hc h.granted (transfer_advance hc (by simp)), fun x hx => ?_⟩
    exact splice_untouched (h.touches (by unfold ioLen at hle; omega) hx)
  | returned m => cases hs

/-- **Another writer's move** in other sectors keeps it too. -/
theorem Progress.frame (hcap : capacity ≤ 2 ^ 28) (hd : OnDisk capacity n.data) {pc : Pc}
    (h : Progress n r k₀ k pc) (hk : ∀ x, Touches n.data r x → k' x = k x) :
    Progress n r k₀ k' pc := by
  cases pc with
  | loop size offset written bounce =>
    exact ⟨h.offset_eq, h.size_eq, h.granted, h.count_eq, fun x hx => (hk x hx).trans (h.holds x hx)⟩
  | merge c size offset written b =>
    obtain ⟨h, hc, rfl⟩ := h
    have hle := nextChunk_le hc
    have ho := h.offset_eq
    have hsz := h.size_eq
    have htouch : Touches n.data r c.sector :=
      ⟨offset, by omega, by unfold ioLen at hle; omega, (nextChunk_sector hcap hd hc).1⟩
    exact ⟨⟨h.offset_eq, h.size_eq, h.granted, h.count_eq,
      fun x hx => (hk x hx).trans (h.holds x hx)⟩, hc, (hk _ htouch).symm⟩
  | returned m => exact ⟨h.1, fun x hx => (hk x hx).trans (h.2 x hx)⟩

end

/-! ## The two calls together -/

/-- The bytes a call is asked to write. -/
structure Range where
  offset : Nat
  size : Nat
  deriving DecidableEq, Repr

def reqs (rg : Bool → Range) (buf : Bool → Buffer) (g : Bool → Bool) (p : Bool) : Req where
  buffer := buf p
  size := (rg p).size
  offset := (rg p).offset
  granted := g p

/-- Some sector holds bytes of both ranges. -/
def Shares (rg : Bool → Range) : Prop :=
  ∃ pos : Bool → Nat, (∀ p, (rg p).offset ≤ pos p ∧ pos p < (rg p).offset + (rg p).size) ∧
    pos true / 512 = pos false / 512

/-- The calls have run as if one after the other, in either order; the file holds the
buffers, and all other bytes of the disk are unchanged. -/
structure Outcome (n : Inode) (r : Bool → Req) (k : Disk) (s : Race) : Prop where
  count : ∀ p, s.pc p = .returned ((r p).count n)
  serial : ∀ p, s.disk = (r (!p)).apply n ((r p).apply n k)
  written : n.denyWriteCnt = 0 → ∀ p, (r p).granted = true → (r p).count n = (r p).size ∧
    ∀ i < (r p).size, fileByte s.disk n.data.start ((r p).offset + i) = (r p).buffer i
  others : ∀ x i, (∀ p pos, (r p).offset ≤ pos → pos < (r p).offset + (r p).size →
    ¬ (x = n.data.start + pos / 512 ∧ i = pos % 512)) → s.disk x i = k x i

section

variable {n : Inode} {capacity : Nat} {k : Disk} {s : Race}

theorem count_le (n : Inode) (r : Req) : r.count n ≤ r.size := by
  unfold Req.count
  split
  · exact Nat.zero_le _
  · exact transfer_le.trans (Nat.min_le_left ..)

/-- A call does nothing to a sector outside its range. -/
theorem apply_untouched {r : Req} {x : Nat} (h : ¬ Touches n.data r x) : r.apply n k x = k x := by
  refine splice_untouched fun pos h1 h2 hx => h ⟨pos, h1, ?_, hx⟩
  have := count_le n r
  omega

theorem start_progress {r : Req} (hdeny : n.denyWriteCnt = 0) :
    Progress n r k k (writerStart n r) := by
  rw [writerStart, if_neg (by simpa using hdeny)]
  refine ⟨rfl, rfl, fun h => ?_, ?_, fun x _ => ?_⟩
  · cases h
  · rw [Req.count, if_neg (by simpa using hdeny), Nat.zero_add]
  · rw [splice_zero]

/-- The invariant of two writers that share no sector. -/
def RaceInv (n : Inode) (r : Bool → Req) (k : Disk) (s : Race) : Prop :=
  (∀ p, Progress n (r p) k s.disk (s.pc p)) ∧
    ∀ x, (∀ p, ¬ Touches n.data (r p) x) → s.disk x = k x

theorem RaceInv.step (hcap : capacity ≤ 2 ^ 28) (hd : OnDisk capacity n.data) {r : Bool → Req}
    (hsep : ∀ p x, Touches n.data (r p) x → ¬ Touches n.data (r (!p)) x) {s' : Race} {p : Bool}
    (h : RaceInv n r k s) (hs : raceStep n.data r s p = some s') : RaceInv n r k s' := by
  obtain ⟨⟨k', pc'⟩, hw, rfl⟩ := Option.map_eq_some_iff.mp hs
  obtain ⟨hown, hrest⟩ := (h.1 p).step hcap hd hw
  constructor
  · intro q
    by_cases hq : q = p
    · subst hq
      dsimp only
      rw [Function.update_self]
      exact hown
    · dsimp only
      rw [Function.update_of_ne hq]
      have hq : q = !p := by cases p <;> cases q <;> simp_all
      subst hq
      exact (h.1 _).frame hcap hd fun x hx => hrest x fun hx' => hsep p x hx' hx
  · intro x hx
    exact (hrest x (hx p)).trans (h.2 x hx)

/-- Two calls that share no sector. -/
theorem RaceInv.outcome {r : Bool → Req}
    (hin : ∀ p, (((r p).offset + (r p).size : Nat) : Int) ≤ n.data.length)
    (hsep : ∀ p x, Touches n.data (r p) x → ¬ Touches n.data (r (!p)) x) (h : RaceInv n r k s)
    (hret : ∀ p, ∃ m, s.pc p = .returned m) : Outcome n r k s := by
  have hpc : ∀ p, s.pc p = .returned ((r p).count n) ∧ Holds n.data (r p) k s.disk ((r p).count n) := by
    intro p
    obtain ⟨m, hm⟩ := hret p
    obtain ⟨rfl, hh⟩ : Progress n (r p) k s.disk (.returned m) := hm ▸ h.1 p
    exact ⟨hm, hh⟩
  have hown : ∀ p x, Touches n.data (r p) x → s.disk x = (r p).apply n k x := fun p => (hpc p).2
  refine ⟨fun p => (hpc p).1, fun p => ?_, ?_, ?_⟩
  · funext x
    by_cases h1 : Touches n.data (r p) x
    · rw [hown p x h1, apply_untouched (hsep p x h1)]
    · by_cases h2 : Touches n.data (r (!p)) x
      · rw [hown _ x h2]
        exact splice_congr (apply_untouched h1).symm
      · rw [apply_untouched h2, apply_untouched h1]
        refine h.2 x fun q => ?_
        cases p <;> cases q <;> assumption
  · intro hdeny p hg
    have hcount : (r p).count n = (r p).size := by
      have := hin p
      rw [Req.count, if_neg (by simpa using hdeny), transfer_granted (by simp [hg])]
      unfold ioLen
      omega
    refine ⟨hcount, fun i hi => ?_⟩
    unfold fileByte
    rw [hown p _ ⟨(r p).offset + i, by omega, by omega, rfl⟩, Req.apply, hcount]
    unfold splice
    rw [if_pos (by omega)]
    congr 1
    omega
  · intro x i hx
    by_cases ht : ∃ p, Touches n.data (r p) x
    · obtain ⟨p, ht⟩ := ht
      rw [hown p x ht]
      refine if_neg fun hi => hx p (512 * (x - n.data.start) + i) hi.2.2.1 ?_ ⟨by omega, by omega⟩
      have := count_le n (r p)
      omega
    · rw [h.2 x fun p hp => ht ⟨p, hp⟩]

/-- While writing is denied both calls return at once. -/
theorem denied_outcome (hdeny : n.denyWriteCnt ≠ 0) {r : Bool → Req}
    (hs : Reach (raceStep n.data r) Free (raceStart n r k) s) : Outcome n r k s := by
  have hpc : ∀ p, (raceStart n r k).pc p = .returned 0 := fun p => if_pos hdeny
  have hstay : s = raceStart n r k := by
    refine hs.invariant (I := fun s => s = raceStart n r k) rfl ?_
    rintro _ p s' rfl - h
    rw [raceStep, hpc p] at h
    cases h
  have hcount : ∀ p, (r p).count n = 0 := fun p => if_pos hdeny
  subst hstay
  refine ⟨fun p => ?_, fun p => ?_, fun h => absurd h hdeny, fun _ _ _ => rfl⟩
  · rw [hpc, hcount]
  · rw [Req.apply, Req.apply, hcount, hcount, splice_zero, splice_zero]
    rfl

/-- **The lost update**: the earlier range's writer reads the shared sector, the
other call runs to its end, and the stale sector is written back over it. -/
theorem lost_update (hcap : capacity ≤ 2 ^ 28) (hd : OnDisk capacity n.data)
    (hdeny : n.denyWriteCnt = 0) {rg : Bool → Range} {p : Bool}
    (hin : (((rg p).offset + (rg p).size : Nat) : Int) ≤ n.data.length)
    (hpos : 0 < (rg p).size) (hbefore : (rg p).offset + (rg p).size ≤ (rg (!p)).offset)
    (hshare : ((rg p).offset + (rg p).size - 1) / 512 = (rg (!p)).offset / 512)
    (buf : Bool → Buffer) (k : Disk) :
    ∃ s, Reach (raceStep n.data (reqs rg buf fun _ => true)) Free
        (raceStart n (reqs rg buf fun _ => true) k) s ∧
      (∀ q, ∃ m, s.pc q = .returned m) ∧
      fileByte s.disk n.data.start (rg (!p)).offset =
        fileByte k n.data.start (rg (!p)).offset := by
  have hstart : ∀ q, (raceStart n (reqs rg buf fun _ => true) k).pc q =
      .loop (rg q).size (rg q).offset 0 false := fun q => if_neg (by simpa using hdeny)
  obtain ⟨s1, c, m, hs1, hm, hc, hsize, hd1, hp1, ho1⟩ := alone_merge
    (r := reqs rg buf fun _ => true) hcap hd rfl _ _ _ _ _ hpos hin (by omega) .refl (hstart p)
  obtain ⟨s2, hs2, hd2, hp2, ho2⟩ := alone hcap hd _ _ _ _ s1 hs1 (ho1.trans (hstart _))
  rw [Bool.not_not] at ho2
  obtain ⟨s3, hs3, hd3, hp3, ho3⟩ := move hs2 (ho2.trans hp1) rfl
  rw [hsize, Nat.sub_self] at hp3
  obtain ⟨s4, hs4, hd4, hp4, ho4⟩ := alone hcap hd _ _ _ _ s3 hs3 hp3
  have hzero : (transfer n.data 0 ((rg p).offset + m + ((rg p).size - m)) true [true]).1 = 0 := by
    rw [transfer_true]
    exact Nat.zero_min _
  refine ⟨s4, hs4, ?_, ?_⟩
  · intro q
    by_cases hq : q = p
    · exact ⟨_, hq ▸ hp4⟩
    · have hq : q = !p := by cases p <;> cases q <;> simp_all
      exact ⟨_, hq ▸ (ho4.trans (ho3.trans hp2))⟩
  · obtain ⟨-, hofs, -, -⟩ := nextChunk_eq_some hc
    have hsec := (nextChunk_sector hcap hd hc).1
    have hsec' : n.data.start + (rg (!p)).offset / 512 = c.sector := by
      have := nextChunk_le hc
      omega
    have hlt : (rg (!p)).offset % 512 < 512 := Nat.mod_lt _ (by decide)
    unfold fileByte
    rw [hd4, show (reqs rg buf (fun _ => true) p).granted = true from rfl, hzero, splice_zero, hd3,
      hsec', writeSector, if_pos ⟨rfl, hlt⟩, memcpy_out (by have := nextChunk_le hc; omega), hd1]
    apply if_neg
    rw [← hsec']
    omega

end

/-- **Two writers on one inode**: for ranges inside the file that do not overlap, every
interleaving of the two calls ends as if they had run one after the other, for all
buffers, contents and answers of the allocator, if and only if writing is denied or
the ranges share no sector. -/
theorem no_lost_update_iff {capacity : Nat} (hcap : capacity ≤ 2 ^ 28) (n : Inode)
    (hd : OnDisk capacity n.data) (rg : Bool → Range)
    (hin : ∀ p, (((rg p).offset + (rg p).size : Nat) : Int) ≤ n.data.length)
    (hdisj : ∃ p, (rg p).offset + (rg p).size ≤ (rg (!p)).offset) :
    (∀ (buf : Bool → Buffer) (g : Bool → Bool) (k : Disk) (s : Race),
      Reach (raceStep n.data (reqs rg buf g)) Free (raceStart n (reqs rg buf g) k) s →
      (∀ p, ∃ m, s.pc p = .returned m) → Outcome n (reqs rg buf g) k s) ↔
    n.denyWriteCnt ≠ 0 ∨ ¬ Shares rg := by
  constructor
  · intro h
    by_contra hno
    push Not at hno
    obtain ⟨hdeny, pos, hpos, hsame⟩ := hno
    obtain ⟨p, hbefore⟩ := hdisj
    have hp := hpos p
    have hq := hpos (!p)
    have hsame' : pos p / 512 = pos (!p) / 512 := by
      cases p
      · exact hsame.symm
      · exact hsame
    obtain ⟨s, hs, hret, hbyte⟩ := lost_update hcap hd hdeny (hin p) (by omega) hbefore (by omega)
      (fun _ _ => 1) fun _ _ => 0
    have hone : fileByte s.disk n.data.start ((rg (!p)).offset + 0) = 1 :=
      ((h _ _ _ s hs hret).written hdeny (!p) rfl).2 0 (by simp only [reqs]; omega)
    rw [Nat.add_zero, hbyte] at hone
    exact absurd (show (0 : UInt8) = 1 from hone) (by decide)
  · intro h buf g k s hs hret
    by_cases hdeny : n.denyWriteCnt = 0
    · have hsep : ∀ p x, Touches n.data (reqs rg buf g p) x → ¬ Touches n.data (reqs rg buf g (!p)) x := by
        rintro p x ⟨pos, h1, h2, hx⟩ ⟨pos', h1', h2', hx'⟩
        refine h.resolve_left (by simpa using hdeny) ?_
        cases p with
        | false => exact ⟨fun q => cond q pos' pos, by rintro (_ | _); exacts [⟨h1, h2⟩, ⟨h1', h2'⟩],
            by simp only [cond_true, cond_false]; omega⟩
        | true => exact ⟨fun q => cond q pos pos', by rintro (_ | _); exacts [⟨h1', h2'⟩, ⟨h1, h2⟩],
            by simp only [cond_true, cond_false]; omega⟩
      have hinv : RaceInv n (reqs rg buf g) k s := hs.invariant
        ⟨fun p => start_progress hdeny, fun _ _ => rfl⟩ fun _ _ _ hI _ => hI.step hcap hd hsep
      exact hinv.outcome hin hsep hret
    · exact denied_outcome hdeny hs

/-- A file of `length` bytes in the sectors from 3 on. -/
def fileOf (length : Int) : Inode where
  addr := 0
  sector := 2
  openCnt := 2
  removed := false
  denyWriteCnt := 0
  data := { start := 3, length := length, magic := inodeMagic }

/-- The two halves of a file of two sectors. -/
def halves (p : Bool) : Range := { offset := cond p 0 512, size := 512 }

/-- The calls that write 1 to the one half and 2 to the other. -/
def halfReqs : Bool → Req := reqs halves (fun p _ => cond p 1 2) fun _ => true

theorem halves_written :
    ∃ s, runFrom (raceStep (fileOf 1024).data halfReqs) (raceStart (fileOf 1024) halfReqs fun _ _ => 0)
        [true, false, false, true] = some s ∧ (∀ p, s.pc p = .returned 512) ∧
      Outcome (fileOf 1024) halfReqs (fun _ _ => 0) s := by
  have hd : OnDisk 8 (fileOf 1024).data := by
    intro pos h
    simp only [fileOf] at h ⊢
    omega
  have hsep : ¬ Shares halves := by
    rintro ⟨pos, hpos, hsame⟩
    have ht := hpos true
    have hf := hpos false
    simp only [halves, cond_true, cond_false] at ht hf
    omega
  refine ⟨_, rfl, by rintro (_ | _) <;> rfl, ?_⟩
  exact (no_lost_update_iff (by decide) (fileOf 1024) hd halves (by decide) ⟨true, by decide⟩).mpr
    (.inr hsep) _ _ _ _ (reach_of_run [true, false, false, true] rfl) (by rintro (_ | _) <;> exact ⟨_, rfl⟩)

/-- The two bytes of a file of two bytes. -/
def twoBytes (p : Bool) : Range := { offset := cond p 0 1, size := 1 }

/-- The calls that write 1 to the two bytes of a file. -/
def ones : Bool → Req := reqs twoBytes (fun _ _ => 1) fun _ => true

/-- Two bytes of one sector written by one call each: the first call reads the sector,
the second reads and writes it, and the first writes its copy back. -/
theorem adjacent_byte_lost :
    ∃ s, runFrom (raceStep (fileOf 2).data ones) (raceStart (fileOf 2) ones fun _ _ => 0)
        [true, false, false, true, true, false] = some s ∧
      (∀ p, s.pc p = .returned 1) ∧
      fileByte s.disk 3 0 = 1 ∧ fileByte s.disk 3 1 = 0 ∧
      ¬ Outcome (fileOf 2) ones (fun _ _ => 0) s := by
  refine ⟨_, rfl, ?_, by decide, by decide, ?_⟩
  · rintro (_ | _) <;> rfl
  · intro h
    exact absurd ((h.written rfl false rfl).2 0 (by decide)) (by decide)

end Pintos.Filesys
