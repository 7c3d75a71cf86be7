import Pintos.Userprog.LoadRun

/-!
# The arithmetic of segments (userprog/process.c)

The variables of `load` for a `PT_LOAD` header and the counters of `load_segment` are 32-bit words,
and the header comes from the file. `Phdr.span` computes them with wrapping sums; the checks of
`validate_segment` together keep every sum and every round-up below 2^32.
-/

namespace Pintos.Userprog.Loader

open Pintos.Base Pintos.Kernel Pintos.Threads

/-- Addition of two words. -/
def add32 (a b : Nat) : Nat := (a + b) % 2 ^ 32

/-- `ROUND_UP` to pages in 32-bit arithmetic. -/
def roundUp32 (x : Nat) : Nat := sub32 (add32 x pgSize) 1 / pgSize * pgSize % 2 ^ 32

/-- The variables of `load` for a segment. -/
structure Span where
  filePage : Nat
  memPage : Nat
  readBytes : Nat
  zeroBytes : Nat
  deriving DecidableEq, Repr

/-- What `load` computes for a program header. -/
def Phdr.span (ph : Phdr) : Span :=
  let pageOffset := ph.vaddr % pgSize
  if 0 < ph.filesz then
    ⟨ph.offset - ph.offset % pgSize, ph.vaddr - pageOffset, add32 pageOffset ph.filesz,
      sub32 (roundUp32 (add32 pageOffset ph.memsz)) (add32 pageOffset ph.filesz)⟩
  else
    ⟨ph.offset - ph.offset % pgSize, ph.vaddr - pageOffset, 0,
      roundUp32 (add32 pageOffset ph.memsz)⟩

/-- The variables of the loop of `load_segment`. -/
structure Counters where
  upage : Nat
  readBytes : Nat
  zeroBytes : Nat
  deriving DecidableEq, Repr

/-- The bytes that are read into the next page. -/
def Counters.pageReadBytes (c : Counters) : Nat := if c.readBytes < pgSize then c.readBytes else pgSize

/-- The end of a round. -/
def Counters.advance (c : Counters) : Counters where
  upage := add32 c.upage pgSize
  readBytes := sub32 c.readBytes c.pageReadBytes
  zeroBytes := sub32 c.zeroBytes (sub32 pgSize c.pageReadBytes)

/-- The variables after `k` rounds. -/
def Span.rounds (sp : Span) : Nat → Counters
  | 0 => ⟨sp.memPage, sp.readBytes, sp.zeroBytes⟩
  | k + 1 => (sp.rounds k).advance

/-- The fields are words. -/
structure Phdr.Words (ph : Phdr) : Prop where
  offset : ph.offset < 2 ^ 32
  vaddr : ph.vaddr < 2 ^ 32
  filesz : ph.filesz < 2 ^ 32
  memsz : ph.memsz < 2 ^ 32
  flags : ph.flags < 2 ^ 32

/-- Every program header in a file is one. -/
theorem phdrOf_words (b : Buffer) : (phdrOf b).Words :=
  ⟨load32_lt b 4, load32_lt b 8, load32_lt b 16, load32_lt b 20, load32_lt b 24⟩

/-! ## The variables of `load` -/

section

variable {ph : Phdr} {f : Image}

/-- Nothing wraps: the span is the one over the numbers. -/
theorem Phdr.span_eq (h : validateSegment ph f = true) (hw : ph.Words) :
    ph.span = ⟨ph.offset - ph.offset % pgSize, ph.vaddr - ph.vaddr % pgSize, ph.readBytes,
        pgSize * ph.pages - ph.readBytes⟩ ∧
      ph.readBytes ≤ pgSize * ph.pages ∧ 0 < ph.pages ∧
      ph.vaddr - ph.vaddr % pgSize + pgSize * ph.pages ≤ physBase := by
  obtain ⟨-, h2, h3, h4, h5⟩ := validateSegment_bounds h hw.memsz
  have hround : roundUp32 (add32 (ph.vaddr % pgSize) ph.memsz) = pgSize * ph.pages := by
    simp only [roundUp32, sub32, add32, Phdr.pages, divRoundUp, pgSize, physBase] at *
    omega
  have hread : 0 < ph.filesz → add32 (ph.vaddr % pgSize) ph.filesz = ph.readBytes := fun hpos => by
    rw [Phdr.readBytes, if_pos hpos]
    simp only [add32, pgSize, physBase] at *
    omega
  have hle : ph.readBytes ≤ pgSize * ph.pages := by
    simp only [Phdr.readBytes, Phdr.pages, divRoundUp, pgSize]
    split <;> omega
  have hend : ph.vaddr - ph.vaddr % pgSize + pgSize * ph.pages ≤ physBase := by
    simp only [Phdr.pages, divRoundUp, pgSize, physBase] at *
    omega
  refine ⟨?_, hle, ?_, hend⟩
  · unfold Phdr.span
    by_cases hpos : 0 < ph.filesz
    · simp only [if_pos hpos, hround, hread hpos, Span.mk.injEq, true_and]
      simp only [sub32, pgSize, physBase] at *
      omega
    · simp only [if_neg hpos, hround, Phdr.readBytes, Nat.sub_zero]
  · simp only [Phdr.pages, divRoundUp, pgSize]
    omega

/-! ## The loop of `load_segment` -/

/-- One round reads and clears a page's worth of bytes, of which enough are left. -/
theorem Counters.advance_eq {c : Counters} {n : Nat} (hu : c.upage + pgSize < 2 ^ 32)
    (hc : c.readBytes + c.zeroBytes = pgSize * (n + 1)) (hlt : pgSize * (n + 1) < 2 ^ 32) :
    c.pageReadBytes ≤ c.readBytes ∧ c.pageReadBytes ≤ pgSize ∧
      pgSize - c.pageReadBytes ≤ c.zeroBytes ∧ c.advance.upage = c.upage + pgSize ∧
      c.advance.readBytes = c.readBytes - pgSize ∧
      c.advance.readBytes + c.advance.zeroBytes = pgSize * n := by
  have hmin : c.pageReadBytes = min c.readBytes pgSize := by
    unfold pageReadBytes
    split <;> omega
  simp only [advance, hmin, add32, sub32, pgSize] at *
  omega

/-- The variables after `k` rounds, with `n` pages left. -/
theorem Span.rounds_eq {sp : Span} {n : Nat} (hmem : sp.memPage + pgSize * n < 2 ^ 32)
    (hsum : sp.readBytes + sp.zeroBytes = pgSize * n) : ∀ k ≤ n,
      (sp.rounds k).upage = sp.memPage + pgSize * k ∧
        (sp.rounds k).readBytes + (sp.rounds k).zeroBytes = pgSize * (n - k)
  | 0, _ => ⟨rfl, hsum⟩
  | k + 1, hk => by
    obtain ⟨hu, hc⟩ := rounds_eq hmem hsum k (by omega)
    have hle : pgSize * (k + 1) ≤ pgSize * n := Nat.mul_le_mul_left _ hk
    have hle' : pgSize * (n - (k + 1) + 1) ≤ pgSize * n := Nat.mul_le_mul_left _ (by omega)
    rw [show n - k = n - (k + 1) + 1 by omega] at hc
    rw [Nat.mul_succ] at hle
    obtain ⟨-, -, -, hu', -, hc'⟩ := Counters.advance_eq (by omega) hc (by omega)
    refine ⟨hu'.trans ?_, hc'⟩
    rw [hu, Nat.mul_succ, Nat.add_assoc]

/-! ## The claim -/

/-- **What a valid segment guarantees.** -/
structure SegmentSound (f : Image) (ph : Phdr) : Prop where
  /-- The sum under `ROUND_UP` does not wrap. -/
  sums : ph.vaddr % pgSize + ph.memsz + pgSize < 2 ^ 32
  bytes : 0 < ph.span.readBytes + ph.span.zeroBytes ∧
    ph.span.readBytes + ph.span.zeroBytes < 2 ^ 32 ∧
    (ph.span.readBytes + ph.span.zeroBytes) % pgSize = 0
  aligned : ph.span.memPage % pgSize = 0 ∧ ph.span.filePage % pgSize = 0
  /-- `file_page` is not negative as an `off_t`. -/
  offset : ph.span.filePage < 2 ^ 31
  pages : ∀ k < (ph.span.readBytes + ph.span.zeroBytes) / pgSize,
    pgSize ≤ ph.span.memPage + k * pgSize ∧ ph.span.memPage + k * pgSize < physBase
  covers : ∀ a, ph.vaddr ≤ a → a < ph.vaddr + ph.memsz →
    ∃ k < (ph.span.readBytes + ph.span.zeroBytes) / pgSize,
      ph.span.memPage + k * pgSize ≤ a ∧ a < ph.span.memPage + (k + 1) * pgSize
  /-- A round has bytes to do, maps the page in turn and subtracts no more than there is. -/
  round : ∀ k < (ph.span.readBytes + ph.span.zeroBytes) / pgSize,
    (0 < (ph.span.rounds k).readBytes ∨ 0 < (ph.span.rounds k).zeroBytes) ∧
      (ph.span.rounds k).upage = ph.span.memPage + k * pgSize ∧
      (ph.span.rounds k).pageReadBytes ≤ (ph.span.rounds k).readBytes ∧
      (ph.span.rounds k).pageReadBytes ≤ pgSize ∧
      pgSize - (ph.span.rounds k).pageReadBytes ≤ (ph.span.rounds k).zeroBytes
  done : (ph.span.rounds ((ph.span.readBytes + ph.span.zeroBytes) / pgSize)).readBytes = 0 ∧
    (ph.span.rounds ((ph.span.readBytes + ph.span.zeroBytes) / pgSize)).zeroBytes = 0
  /-- These are the arguments of `load_segment`, and no ASSERT fails in it. -/
  runs : loadHeader f ph = loadSegment f ph.span.filePage ph.span.memPage ph.span.readBytes
    ph.span.zeroBytes ph.writable
  asserts : ∀ s0 s pd V, Loading s0 s pd V → loadHeader f ph s ≠ .error .assertion

/-- **The checks exclude every overflow**, for all headers and all files. -/
theorem segment_arithmetic (hw : ph.Words) (h : validateSegment ph f = true) :
    SegmentSound f ph := by
  obtain ⟨h1, h2, h3, h4, h5⟩ := validateSegment_bounds h hw.memsz
  obtain ⟨hspan, hread, hpos, hend⟩ := ph.span_eq h hw
  have hsum : ph.span.readBytes + ph.span.zeroBytes = pgSize * ph.pages := by
    rw [hspan]
    exact Nat.add_sub_cancel' hread
  have hn : (ph.span.readBytes + ph.span.zeroBytes) / pgSize = ph.pages := by
    rw [hsum, Nat.mul_div_cancel_left _ (by decide)]
  have hmem : ph.span.memPage = ph.vaddr - ph.vaddr % pgSize := by rw [hspan]
  have hbelow : ∀ k, k < ph.pages → pgSize * (k + 1) ≤ pgSize * ph.pages := fun k hk =>
    Nat.mul_le_mul_left _ hk
  have hwrap : ph.span.memPage + pgSize * ph.pages < 2 ^ 32 := by
    rw [hmem]
    simp only [physBase] at hend
    omega
  have hrounds := Span.rounds_eq hwrap hsum
  have hlen := f.length_lt
  have hoff : ph.offset ≤ f.length := by
    simp only [validateSegment, Bool.and_eq_true, decide_eq_true_eq] at h
    exact h.1.1.1.1.1.1.2
  constructor
  case sums =>
    simp only [pgSize, physBase] at *
    omega
  case bytes =>
    rw [hsum]
    simp only [pgSize, physBase] at *
    omega
  case aligned =>
    rw [hspan]
    simp only [pgSize]
    omega
  case offset =>
    rw [hspan]
    dsimp only
    omega
  case pages =>
    intro k hk
    rw [hn] at hk
    rw [hmem]
    have := hbelow k hk
    simp only [pgSize, physBase] at *
    omega
  case covers =>
    intro a ha ha'
    rw [hn, hmem]
    refine ⟨(a - (ph.vaddr - ph.vaddr % pgSize)) / pgSize, ?_, ?_, ?_⟩ <;>
      simp only [Phdr.pages, divRoundUp, pgSize] at * <;> omega
  case round =>
    intro k hk
    rw [hn] at hk
    obtain ⟨hu, hc⟩ := hrounds k (Nat.le_of_lt hk)
    have := hbelow k hk
    rw [show ph.pages - k = ph.pages - (k + 1) + 1 by omega] at hc
    have hle : pgSize * (ph.pages - (k + 1) + 1) ≤ pgSize * ph.pages :=
      Nat.mul_le_mul_left _ (by omega)
    rw [hmem] at hu
    obtain ⟨a1, a2, a3, -⟩ := Counters.advance_eq (c := ph.span.rounds k) (n := ph.pages - (k + 1))
      (by simp only [pgSize, physBase] at *; omega) hc (by simp only [pgSize, physBase] at *; omega)
    refine ⟨?_, by rw [hu, hmem, Nat.mul_comm], a1, a2, a3⟩
    rw [Nat.mul_succ] at hc
    simp only [pgSize] at hc
    omega
  case done =>
    rw [hn]
    obtain ⟨-, hc⟩ := hrounds ph.pages le_rfl
    rw [Nat.sub_self, Nat.mul_zero] at hc
    omega
  case runs =>
    rw [loadHeader, if_pos h, hspan]
    dsimp only
    rw [ph.pages_eq]
    rfl
  case asserts =>
    intro s0 s pd V hl he
    exact (loadHeader_spec hl f hw.memsz).2 _ he rfl

/-- The header of the small executable. -/
theorem tinyPhdr_sound : SegmentSound tinyElf tinyPhdr :=
  segment_arithmetic ⟨by decide, by decide, by decide, by decide, by decide⟩ (by decide)

end

end Pintos.Userprog.Loader
