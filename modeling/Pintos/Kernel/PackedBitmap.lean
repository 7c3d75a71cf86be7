import Pintos.Kernel.Bitmap
import Mathlib.Algebra.Order.Ring.Int
import Mathlib.Order.Bounds.Basic
import Mathlib.Data.Set.Basic

/-!
# Bitmaps as arrays of words (lib/kernel/bitmap.c)

The functions work on 32-bit elements, with masks; `size_t` is 32 bits. `view` is the vector of the
bits, and every function does to it what the function of the same name does in `Bitmap`. A call that
fails an ASSERT, or reads or writes outside the elements, stops with a `Fault`.
-/

namespace Pintos.Kernel.Packed

inductive Fault where
  | assertion
  /-- An access outside the elements. -/
  | outside
  deriving DecidableEq, Repr

structure PackedBitmap where
  bitCnt : Nat
  bits : List (BitVec 32)
  deriving DecidableEq, Repr

/-- `BITMAP_ERROR` -/
def bitmapError : Nat := 2 ^ 32 - 1

def elemBits : Nat := 32

def elemIdx (bitIdx : Nat) : Nat := bitIdx / elemBits

def bitMask (bitIdx : Nat) : BitVec 32 := 1#32 <<< (bitIdx % elemBits)

def elemCnt (bitCnt : Nat) : Nat := (bitCnt + (elemBits - 1)) % 2 ^ 32 / elemBits

def byteCnt (bitCnt : Nat) : Nat := 4 * elemCnt bitCnt % 2 ^ 32

def assert (c : Bool) : Except Fault Unit := if c then .ok () else .error .assertion

/-- The element with index `idx`. -/
def elem (b : PackedBitmap) (idx : Nat) : Except Fault (BitVec 32) :=
  match b.bits[idx]? with
  | none => .error .outside
  | some w => .ok w

def setElem (b : PackedBitmap) (idx : Nat) (w : BitVec 32) : PackedBitmap :=
  { b with bits := b.bits.set idx w }

/-! ## Single bits -/

def bitmapMark (b : PackedBitmap) (bitIdx : Nat) : Except Fault PackedBitmap := do
  let w ← elem b (elemIdx bitIdx)
  pure (setElem b (elemIdx bitIdx) (w ||| bitMask bitIdx))

def bitmapReset (b : PackedBitmap) (bitIdx : Nat) : Except Fault PackedBitmap := do
  let w ← elem b (elemIdx bitIdx)
  pure (setElem b (elemIdx bitIdx) (w &&& ~~~ bitMask bitIdx))

def bitmapFlip (b : PackedBitmap) (bitIdx : Nat) : Except Fault PackedBitmap := do
  let w ← elem b (elemIdx bitIdx)
  pure (setElem b (elemIdx bitIdx) (w ^^^ bitMask bitIdx))

def bitmapSet (b : PackedBitmap) (idx : Nat) (value : Bool) : Except Fault PackedBitmap := do
  assert (decide (idx < b.bitCnt))
  if value then bitmapMark b idx else bitmapReset b idx

def bitmapTest (b : PackedBitmap) (idx : Nat) : Except Fault Bool := do
  assert (decide (idx < b.bitCnt))
  let w ← elem b (elemIdx idx)
  pure (w &&& bitMask idx != 0)

/-! ## Groups of bits -/

/-- The ASSERTs of the functions on a group. -/
def assertGroup (b : PackedBitmap) (start cnt : Nat) : Except Fault Unit := do
  assert (decide (start ≤ b.bitCnt))
  assert (decide ((start + cnt) % 2 ^ 32 ≤ b.bitCnt))

/-- The loop of `bitmap_set_multiple`, from `i` on, `n` times. -/
def setLoop (start : Nat) (value : Bool) (b : PackedBitmap) (i : Nat) :
    (n : Nat) → Except Fault PackedBitmap
  | 0 => pure b
  | n + 1 => do
    let b ← bitmapSet b ((start + i) % 2 ^ 32) value
    setLoop start value b (i + 1) n

def bitmapSetMultiple (b : PackedBitmap) (start cnt : Nat) (value : Bool) :
    Except Fault PackedBitmap := do
  assertGroup b start cnt
  setLoop start value b 0 cnt

def bitmapSetAll (b : PackedBitmap) (value : Bool) : Except Fault PackedBitmap :=
  bitmapSetMultiple b 0 b.bitCnt value

/-- The loop of `bitmap_count`. -/
def countLoop (b : PackedBitmap) (start : Nat) (value : Bool) (i valueCnt : Nat) :
    (n : Nat) → Except Fault Nat
  | 0 => pure valueCnt
  | n + 1 => do
    let t ← bitmapTest b ((start + i) % 2 ^ 32)
    countLoop b start value (i + 1) (if t = value then (valueCnt + 1) % 2 ^ 32 else valueCnt) n

def bitmapCount (b : PackedBitmap) (start cnt : Nat) (value : Bool) : Except Fault Nat := do
  assertGroup b start cnt
  countLoop b start value 0 0 cnt

/-- The loop of `bitmap_contains`. -/
def containsLoop (b : PackedBitmap) (start : Nat) (value : Bool) (i : Nat) :
    (n : Nat) → Except Fault Bool
  | 0 => pure false
  | n + 1 => do
    let t ← bitmapTest b ((start + i) % 2 ^ 32)
    if t = value then pure true else containsLoop b start value (i + 1) n

def bitmapContains (b : PackedBitmap) (start cnt : Nat) (value : Bool) : Except Fault Bool := do
  assertGroup b start cnt
  containsLoop b start value 0 cnt

/-- The loop of `bitmap_scan` from index `i`, `n` indices before it gives up. -/
def scanLoop (b : PackedBitmap) (cnt : Nat) (value : Bool) (i : Nat) : (n : Nat) → Except Fault Nat
  | 0 => pure bitmapError
  | n + 1 => do
    let c ← bitmapContains b i cnt !value
    if c then scanLoop b cnt value (i + 1) n else pure i

def bitmapScan (b : PackedBitmap) (start cnt : Nat) (value : Bool) : Except Fault Nat := do
  assert (decide (start ≤ b.bitCnt))
  if cnt ≤ b.bitCnt then
    let last := b.bitCnt - cnt
    scanLoop b cnt value start (last + 1 - start)
  else pure bitmapError

def bitmapScanAndFlip (b : PackedBitmap) (start cnt : Nat) (value : Bool) :
    Except Fault (Nat × PackedBitmap) := do
  let idx ← bitmapScan b start cnt value
  if idx ≠ bitmapError then
    let b ← bitmapSetMultiple b idx cnt !value
    pure (idx, b)
  else pure (idx, b)

/-! ## Creation -/

/-- What `malloc` returns for the elements: nothing for no bytes, otherwise nothing or a block with
the given old contents. -/
def mallocElems (size : Nat) (answer : Option (Nat → BitVec 32)) : Option (List (BitVec 32)) :=
  if size = 0 then none else answer.map fun old => (List.range (size / 4)).map old

/-- `bitmap_create`; `first` is whether there is memory for the structure. -/
def bitmapCreate (bitCnt : Nat) (first : Bool) (second : Option (Nat → BitVec 32)) :
    Except Fault (Option PackedBitmap) :=
  if first then
    match mallocElems (byteCnt bitCnt) second with
    | some bits => (bitmapSetAll ⟨bitCnt, bits⟩ false).map some
    | none => if bitCnt = 0 then (bitmapSetAll ⟨bitCnt, []⟩ false).map some else pure none
  else pure none

/-! ## Bits of the elements -/

/-- The elements hold the bits, and `elem_cnt` has not wrapped around. -/
structure Wf (b : PackedBitmap) : Prop where
  fits : b.bitCnt ≤ elemBits * b.bits.length
  lt : b.bitCnt + (elemBits - 1) < 2 ^ 32

def bit (b : PackedBitmap) (i : Nat) : Bool := (b.bits.getD (i / elemBits) 0).getLsbD (i % elemBits)

/-- The vector of the bits. -/
def view (b : PackedBitmap) : Bitmap := ⟨(List.range b.bitCnt).map (bit b)⟩

variable {b b' : PackedBitmap} {i j n start cnt : Nat} {v : Bool}

@[simp] theorem size_view (b : PackedBitmap) : bitmapSize (view b) = b.bitCnt := by
  rw [bitmapSize, view, List.length_map, List.length_range]

theorem test_view (hi : i < b.bitCnt) : Kernel.bitmapTest (view b) i = bit b i := by
  rw [Kernel.bitmapTest, view, List.getD_eq_getElem?_getD, List.getElem?_map,
    List.getElem?_range hi]
  rfl

theorem bitMask_getLsbD (i : Nat) {m : Nat} (hm : m < 32) :
    (bitMask i).getLsbD m = decide (m = i % 32) := by
  have hi : i % 32 < 32 := Nat.mod_lt _ (by decide)
  rw [bitMask, elemBits, BitVec.getLsbD_shiftLeft, decide_eq_true hm, Bool.true_and,
    BitVec.getLsbD_one]
  by_cases h : m = i % 32
  · simp [h]
  · by_cases hlt : m < i % 32
    · simp [h, hlt]
    · simp [h, show m - i % 32 ≠ 0 by omega]

theorem elem_ok (h : Wf b) (hi : i < b.bitCnt) :
    elem b (elemIdx i) = .ok (b.bits.getD (i / elemBits) 0) := by
  have hlt : i / elemBits < b.bits.length := by
    have := h.fits
    simp only [elemBits] at *
    omega
  rw [elem, elemIdx, List.getD_eq_getElem?_getD, List.getElem?_eq_getElem hlt]
  rfl

/-- `b'` is `b` with bit `i` set to `v`. -/
structure Edit (b b' : PackedBitmap) (i : Nat) (v : Bool) : Prop where
  cnt : b'.bitCnt = b.bitCnt
  elems : b'.bits.length = b.bits.length
  bit : ∀ j, bit b' j = if j = i then v else bit b j

theorem setElem_edit (h : Wf b) (hi : i < b.bitCnt) {w : BitVec 32}
    (hw : ∀ m < 32, w.getLsbD m =
      if m = i % 32 then v else (b.bits.getD (i / elemBits) 0).getLsbD m) :
    Edit b (setElem b (elemIdx i) w) i v := by
  have hlt : i / elemBits < b.bits.length := by
    have := h.fits
    simp only [elemBits] at *
    omega
  refine ⟨rfl, List.length_set, fun j => ?_⟩
  unfold bit setElem elemIdx
  dsimp only
  rw [List.getD_eq_getElem?_getD, List.getElem?_set, if_pos hlt]
  by_cases hj : i / elemBits = j / elemBits
  · rw [if_pos hj, Option.getD_some]
    simp only [elemBits] at *
    rw [hw _ (Nat.mod_lt _ (by decide)), hj]
    by_cases hij : j = i
    · rw [if_pos hij, hij, if_pos rfl]
    · rw [if_neg hij, if_neg (by omega)]
  · have hne : j ≠ i := by
      rintro rfl
      exact hj rfl
    rw [if_neg hj, if_neg hne, List.getD_eq_getElem?_getD]

theorem Edit.wf (he : Edit b b' i v) (h : Wf b) : Wf b' := by
  refine ⟨?_, ?_⟩
  · rw [he.cnt, he.elems]
    exact h.fits
  · rw [he.cnt]
    exact h.lt

theorem Edit.view_eq (he : Edit b b' i v) (hi : i < b.bitCnt) :
    view b' = Kernel.bitmapSet (view b) i v := by
  refine bitmap_ext (by simp [he.cnt]) fun j hj => ?_
  rw [size_view] at hj
  have hj' : j < b.bitCnt := he.cnt ▸ hj
  rw [test_view hj, he.bit, bitmapTest_set (by rwa [size_view]), test_view hj']

/-! ## The functions on the view -/

/-- A call returns a bitmap whose view is `B`. -/
def Gives (m : Except Fault PackedBitmap) (B : Bitmap) : Prop := ∃ b', m = .ok b' ∧ Wf b' ∧ view b' = B

theorem Edit.gives (he : Edit b b' i v) (h : Wf b) (hi : i < b.bitCnt) :
    Gives (.ok b') (Kernel.bitmapSet (view b) i v) := ⟨b', rfl, he.wf h, he.view_eq hi⟩

theorem mark_gives (h : Wf b) (hi : i < b.bitCnt) :
    Gives (bitmapMark b i) (Kernel.bitmapSet (view b) i true) := by
  rw [bitmapMark, elem_ok h hi]
  refine (setElem_edit h hi fun m hm => ?_).gives h hi
  rw [BitVec.getLsbD_or, bitMask_getLsbD i hm]
  by_cases hmi : m = i % 32 <;> simp [hmi]

theorem reset_gives (h : Wf b) (hi : i < b.bitCnt) :
    Gives (bitmapReset b i) (Kernel.bitmapSet (view b) i false) := by
  rw [bitmapReset, elem_ok h hi]
  refine (setElem_edit h hi fun m hm => ?_).gives h hi
  rw [BitVec.getLsbD_and, BitVec.getLsbD_not, bitMask_getLsbD i hm, decide_eq_true hm, Bool.true_and]
  by_cases hmi : m = i % 32 <;> simp [hmi]

theorem flip_gives (h : Wf b) (hi : i < b.bitCnt) :
    Gives (bitmapFlip b i) (Kernel.bitmapSet (view b) i !Kernel.bitmapTest (view b) i) := by
  rw [bitmapFlip, elem_ok h hi]
  refine (setElem_edit h hi fun m hm => ?_).gives h hi
  rw [BitVec.getLsbD_xor, bitMask_getLsbD i hm, test_view hi]
  by_cases hmi : m = i % 32
  · rw [decide_eq_true hmi, if_pos hmi, Bool.xor_true, hmi]
    rfl
  · rw [decide_eq_false hmi, if_neg hmi, Bool.xor_false]

theorem assert_ok {c : Bool} (h : c = true) : assert c = .ok () := by
  rw [h]
  rfl

theorem set_gives (h : Wf b) (hi : i < b.bitCnt) (v : Bool) :
    Gives (bitmapSet b i v) (Kernel.bitmapSet (view b) i v) := by
  have ha := assert_ok (decide_eq_true hi)
  unfold bitmapSet
  rw [ha]
  cases v with
  | true => exact mark_gives h hi
  | false => exact reset_gives h hi

theorem test_ok (h : Wf b) (hi : i < b.bitCnt) :
    bitmapTest b i = .ok (Kernel.bitmapTest (view b) i) := by
  have ha := assert_ok (decide_eq_true hi)
  have hm : i % 32 < 32 := Nat.mod_lt _ (by decide)
  unfold bitmapTest
  rw [ha, elem_ok h hi, test_view hi]
  show Except.ok _ = _
  congr 1
  rw [Bool.eq_iff_iff, bne_iff_ne, bit]
  constructor
  · intro hne
    by_contra hz
    refine hne (BitVec.eq_of_getLsbD_eq fun m hm => ?_)
    rw [BitVec.getLsbD_and, bitMask_getLsbD i hm]
    by_cases hmi : m = i % 32
    · rw [hmi, show (i % 32) = i % elemBits from rfl, Bool.eq_false_iff.mpr hz]
      simp
    · simp [hmi]
  · intro hbit hz
    have hmask := congrArg (fun w => w.getLsbD (i % 32)) hz
    rw [BitVec.getLsbD_and, bitMask_getLsbD i hm, show (i % 32) = i % elemBits from rfl, hbit] at hmask
    simp at hmask

theorem assertGroup_ok (h : Wf b) (hin : start + cnt ≤ b.bitCnt) : assertGroup b start cnt = .ok () := by
  have hlt := h.lt
  have h1 := assert_ok (decide_eq_true ((Nat.le_add_right start cnt).trans hin))
  have h2 : (start + cnt) % 2 ^ 32 ≤ b.bitCnt := (Nat.mod_le ..).trans hin
  rw [assertGroup, h1, assert_ok (decide_eq_true h2)]
  rfl

/-- The sum of an index inside the group does not wrap around. -/
theorem Wf.index (h : Wf b) (hi : i < b.bitCnt) : i % 2 ^ 32 = i := by
  have hlt := h.lt
  exact Nat.mod_eq_of_lt (by omega)

theorem setLoop_gives (h : Wf b) (hin : start + i + n ≤ b.bitCnt) (v : Bool) :
    Gives (setLoop start v b i n) (Kernel.bitmapSetMultiple (view b) (start + i) n v) := by
  induction n generalizing b i with
  | zero => exact ⟨b, rfl, h, rfl⟩
  | succ n ih =>
    have hi : start + i < b.bitCnt := by omega
    obtain ⟨b1, hb1, h1, hv1⟩ := set_gives h hi v
    have hcnt : b1.bitCnt = b.bitCnt := by
      rw [← size_view b1, hv1, bitmapSize_set, size_view]
    have hrest := ih h1 (i := i + 1) (by omega)
    rw [hv1] at hrest
    rw [setLoop, h.index hi, hb1, Kernel.bitmapSetMultiple]
    exact hrest

theorem setMultiple_gives (h : Wf b) (hin : start + cnt ≤ b.bitCnt) (v : Bool) :
    Gives (bitmapSetMultiple b start cnt v) (Kernel.bitmapSetMultiple (view b) start cnt v) := by
  rw [bitmapSetMultiple, assertGroup_ok h hin]
  exact setLoop_gives h (i := 0) hin v

theorem countLoop_ok (h : Wf b) (v : Bool) {k : Nat} (hin : start + i + n ≤ b.bitCnt)
    (hk : k + n < 2 ^ 32) :
    countLoop b start v i k n =
      .ok (k + (List.range' (start + i) n).countP fun j => Kernel.bitmapTest (view b) j == v) := by
  induction n generalizing i k with
  | zero => rfl
  | succ n ih =>
    have hi : start + i < b.bitCnt := by omega
    rw [countLoop, h.index hi, test_ok h hi, List.range'_succ, List.countP_cons]
    show countLoop b start v (i + 1) _ n = _
    by_cases ht : Kernel.bitmapTest (view b) (start + i) = v
    · rw [if_pos ht, Nat.mod_eq_of_lt (by omega), ih (by omega) (by omega), if_pos (beq_iff_eq.mpr ht),
        Nat.add_right_comm]
      rfl
    · rw [if_neg ht, ih (by omega) (by omega), if_neg (by simpa using ht)]
      rfl

theorem count_ok (h : Wf b) (hin : start + cnt ≤ b.bitCnt) (v : Bool) :
    bitmapCount b start cnt v =
      .ok ((List.range' start cnt).countP fun j => Kernel.bitmapTest (view b) j == v) := by
  have hlt := h.lt
  have hloop := countLoop_ok h v (i := 0) (k := 0) hin (by omega)
  rw [Nat.zero_add] at hloop
  rw [bitmapCount, assertGroup_ok h hin]
  exact hloop

theorem containsLoop_ok (h : Wf b) (v : Bool) (hin : start + i + n ≤ b.bitCnt) :
    containsLoop b start v i n = .ok (Kernel.bitmapContains (view b) (start + i) n v) := by
  induction n generalizing i with
  | zero => rfl
  | succ n ih =>
    have hi : start + i < b.bitCnt := by omega
    rw [containsLoop, h.index hi, test_ok h hi, Kernel.bitmapContains]
    show (if Kernel.bitmapTest (view b) (start + i) = v then .ok true
      else containsLoop b start v (i + 1) n) = _
    by_cases ht : Kernel.bitmapTest (view b) (start + i) = v
    · rw [if_pos ht, beq_iff_eq.mpr ht, Bool.true_or]
    · rw [if_neg ht, ih (by omega), beq_eq_false_iff_ne.mpr ht, Bool.false_or]
      rfl

theorem contains_ok (h : Wf b) (hin : start + cnt ≤ b.bitCnt) (v : Bool) :
    bitmapContains b start cnt v = .ok (Kernel.bitmapContains (view b) start cnt v) := by
  rw [bitmapContains, assertGroup_ok h hin]
  exact containsLoop_ok h v (i := 0) hin

theorem scanLoop_ok (h : Wf b) (v : Bool) (hin : i + n + cnt ≤ b.bitCnt + 1) :
    scanLoop b cnt v i n = .ok ((Kernel.bitmapScanFrom (view b) cnt v i n).getD bitmapError) := by
  induction n generalizing i with
  | zero => rfl
  | succ n ih =>
    rw [scanLoop, contains_ok h (by omega), Kernel.bitmapScanFrom]
    show (if Kernel.bitmapContains (view b) i cnt (!v) = true then scanLoop b cnt v (i + 1) n
      else .ok i) = _
    by_cases hc : Kernel.bitmapContains (view b) i cnt (!v) = true
    · rw [if_pos hc, if_pos hc]
      exact ih (by omega)
    · rw [if_neg hc, if_neg hc]
      rfl

theorem scan_ok (h : Wf b) (hs : start ≤ b.bitCnt) (cnt : Nat) (v : Bool) :
    bitmapScan b start cnt v = .ok ((Kernel.bitmapScan (view b) start cnt v).getD bitmapError) := by
  have ha := assert_ok (decide_eq_true hs)
  unfold bitmapScan Kernel.bitmapScan
  rw [ha, size_view]
  show (if cnt ≤ b.bitCnt then scanLoop b cnt v start (b.bitCnt - cnt + 1 - start)
    else .ok bitmapError) = _
  by_cases hc : cnt ≤ b.bitCnt
  · rw [if_pos hc, if_pos hc]
    by_cases hroom : start + cnt ≤ b.bitCnt + 1
    · exact scanLoop_ok h v (by omega)
    · rw [show b.bitCnt - cnt + 1 - start = 0 by omega]
      rfl
  · rw [if_neg hc, if_neg hc]
    rfl

theorem size_of_view (h : view b' = Kernel.bitmapSetMultiple (view b) start cnt v) :
    b'.bitCnt = b.bitCnt := by
  rw [← size_view b', h, bitmapSize_setMultiple, size_view]

/-- An index that is found is not `BITMAP_ERROR`. -/
theorem Wf.scan_ne (h : Wf b) {k : Nat} (hk : Kernel.bitmapScan (view b) start cnt v = some k) :
    k ≠ bitmapError ∧ k + cnt ≤ b.bitCnt := by
  obtain ⟨-, hfit, -⟩ := bitmapScan_some hk
  rw [size_view] at hfit
  have hlt := h.lt
  refine ⟨?_, hfit⟩
  simp only [bitmapError, elemBits] at *
  omega

theorem scanAndFlip_gives (h : Wf b) (hs : start ≤ b.bitCnt) (cnt : Nat) (v : Bool) :
    ∃ b', bitmapScanAndFlip b start cnt v =
        .ok ((Kernel.bitmapScan (view b) start cnt v).getD bitmapError, b') ∧ Wf b' ∧
      view b' = (Kernel.bitmapScanAndFlip (view b) start cnt v).2 := by
  unfold bitmapScanAndFlip Kernel.bitmapScanAndFlip
  rw [scan_ok h hs]
  cases hk : Kernel.bitmapScan (view b) start cnt v with
  | none => exact ⟨b, rfl, h, rfl⟩
  | some k =>
    obtain ⟨hne, hfit⟩ := h.scan_ne hk
    obtain ⟨b', hb', h', hv'⟩ := setMultiple_gives h hfit (!v)
    refine ⟨b', ?_, h', hv'⟩
    show (if k ≠ bitmapError then _ else _) = _
    rw [if_pos hne, Option.getD_some, hb']
    rfl

/-! ## Creation -/

theorem elemCnt_fits (h : n + (elemBits - 1) < 2 ^ 32) : n ≤ elemBits * elemCnt n ∧ elemCnt n < 2 ^ 28 := by
  rw [elemCnt, Nat.mod_eq_of_lt h]
  simp only [elemBits] at *
  omega

/-- The size of a bitmap that wraps around is 0, and `malloc` has no block of it. -/
theorem mallocElems_spec (hn : n < 2 ^ 32) {answer : Option (Nat → BitVec 32)} {bits : List (BitVec 32)}
    (h : mallocElems (byteCnt n) answer = some bits) : Wf ⟨n, bits⟩ := by
  unfold mallocElems at h
  by_cases hz : byteCnt n = 0
  · rw [if_pos hz] at h
    cases h
  rw [if_neg hz] at h
  have hlt : n + (elemBits - 1) < 2 ^ 32 := by
    by_contra hge
    apply hz
    simp only [byteCnt, elemCnt, elemBits] at *
    omega
  obtain ⟨hfit, hcnt⟩ := elemCnt_fits hlt
  have hlen : bits.length = elemCnt n := by
    obtain ⟨old, -, rfl⟩ := Option.map_eq_some_iff.mp h
    rw [List.length_map, List.length_range, byteCnt]
    omega
  exact ⟨by rwa [hlen], hlt⟩

theorem setAll_gives (h : Wf b) (v : Bool) :
    Gives (bitmapSetAll b v) (Kernel.bitmapSetMultiple (view b) 0 b.bitCnt v) :=
  setMultiple_gives h (Nat.le_of_eq (Nat.zero_add _)) v

/-- There is no memory, or the size of the elements wraps around. -/
def Unavailable (n : Nat) (first : Bool) (second : Option (Nat → BitVec 32)) : Prop :=
  first = false ∨ second = none ∨ 2 ^ 32 ≤ n + (elemBits - 1)

theorem mallocElems_none {answer : Option (Nat → BitVec 32)} (hz : n ≠ 0)
    (h : mallocElems (byteCnt n) answer = none) : answer = none ∨ 2 ^ 32 ≤ n + (elemBits - 1) := by
  by_cases hlt : n + (elemBits - 1) < 2 ^ 32
  · obtain ⟨hfit, hcnt⟩ := elemCnt_fits hlt
    have hne : byteCnt n ≠ 0 := by
      rw [byteCnt]
      simp only [elemBits] at hfit
      omega
    rw [mallocElems, if_neg hne] at h
    exact .inl (Option.map_eq_none_iff.mp h)
  · exact .inr (Nat.not_lt.mp hlt)

/-- **`bitmap_create`** returns a null pointer or a bitmap of `n` bits that are all false. -/
theorem create_gives (hn : n < 2 ^ 32) (first : Bool) (second : Option (Nat → BitVec 32)) :
    bitmapCreate n first second = .ok none ∧ Unavailable n first second ∨
      ∃ b, bitmapCreate n first second = .ok (some b) ∧ Wf b ∧ view b = Kernel.bitmapCreate n := by
  have hall : ∀ bits, Wf ⟨n, bits⟩ → ∃ b, (bitmapSetAll ⟨n, bits⟩ false).map some = .ok (some b) ∧
      Wf b ∧ view b = Kernel.bitmapCreate n := by
    intro bits h
    obtain ⟨b, hb, hwf, hv⟩ := setAll_gives h false
    refine ⟨b, by rw [hb]; rfl, hwf, ?_⟩
    rw [hv]
    refine bitmap_ext (by simp) fun i hi => ?_
    rw [bitmapSize_setMultiple, size_view] at hi
    rw [bitmapTest_setMultiple (by simp), if_pos ⟨Nat.zero_le i, by simpa using hi⟩, bitmapTest_create]
  unfold bitmapCreate
  cases first with
  | false => exact .inl ⟨rfl, .inl rfl⟩
  | true =>
    rw [if_pos rfl]
    cases hm : mallocElems (byteCnt n) second with
    | some bits => exact .inr (hall bits (mallocElems_spec hn hm))
    | none =>
      by_cases hz : n = 0
      · subst hz
        exact .inr (hall [] ⟨by decide, by decide⟩)
      · exact .inl ⟨if_neg hz, .inr (mallocElems_none hz hm)⟩

/-! ## Sequences of calls -/

inductive Op where
  | set (idx : Nat) (value : Bool)
  | mark (bitIdx : Nat)
  | reset (bitIdx : Nat)
  | flip (bitIdx : Nat)
  | setMultiple (start cnt : Nat) (value : Bool)
  | setAll (value : Bool)
  | count (start cnt : Nat) (value : Bool)
  | contains (start cnt : Nat) (value : Bool)
  | scan (start cnt : Nat) (value : Bool)
  | scanAndFlip (start cnt : Nat) (value : Bool)

inductive Res where
  | none
  | num (k : Nat)
  | truth (c : Bool)
  deriving DecidableEq

def call (b : PackedBitmap) : Op → Except Fault (Res × PackedBitmap)
  | .set i v => (bitmapSet b i v).map (.none, ·)
  | .mark i => (bitmapMark b i).map (.none, ·)
  | .reset i => (bitmapReset b i).map (.none, ·)
  | .flip i => (bitmapFlip b i).map (.none, ·)
  | .setMultiple start cnt v => (bitmapSetMultiple b start cnt v).map (.none, ·)
  | .setAll v => (bitmapSetAll b v).map (.none, ·)
  | .count start cnt v => (bitmapCount b start cnt v).map (.num ·, b)
  | .contains start cnt v => (bitmapContains b start cnt v).map (.truth ·, b)
  | .scan start cnt v => (bitmapScan b start cnt v).map (.num ·, b)
  | .scanAndFlip start cnt v => (bitmapScanAndFlip b start cnt v).map fun p => (.num p.1, p.2)

def calls (b : PackedBitmap) : List Op → Except Fault (List Res × PackedBitmap)
  | [] => .ok ([], b)
  | op :: ops => do
    let (r, b) ← call b op
    let (rs, b) ← calls b ops
    pure (r :: rs, b)

/-- The arguments are in range for `n` bits. -/
def InRange (n : Nat) : Op → Prop
  | .set i _ | .mark i | .reset i | .flip i => i < n
  | .setMultiple start cnt _ | .count start cnt _ | .contains start cnt _ => start + cnt ≤ n
  | .setAll _ => True
  | .scan start cnt _ | .scanAndFlip start cnt _ => start ≤ n ∧ cnt < 2 ^ 32

/-! ## The vector -/

section

variable (n : Nat) (f : Nat → Bool)

/-- The vector with the bits from `start` on, `cnt` of them, set to `v`. -/
def assign (start cnt : Nat) (v : Bool) : Nat → Bool := fun j =>
  if start ≤ j ∧ j < start + cnt then v else f j

/-- Where a group of `cnt` bits equal to `v` begins. -/
def groups (start cnt : Nat) (v : Bool) : Set Nat :=
  {i | start ≤ i ∧ i + cnt ≤ n ∧ ∀ j < cnt, f (i + j) = v}

/-- What a scan is to return. -/
def Found (start cnt : Nat) (v : Bool) (k : Nat) : Prop :=
  k ≠ bitmapError ∧ IsLeast (groups n f start cnt v) k ∨
    k = bitmapError ∧ groups n f start cnt v = ∅

/-- What a call is to do to the vector `f` of `n` bits: it returns `r` and leaves `f'`. -/
def Behaves : Op → Res → (Nat → Bool) → Prop
  | .set i v, r, f' => r = .none ∧ f' = Function.update f i v
  | .mark i, r, f' => r = .none ∧ f' = Function.update f i true
  | .reset i, r, f' => r = .none ∧ f' = Function.update f i false
  | .flip i, r, f' => r = .none ∧ f' = Function.update f i !f i
  | .setMultiple start cnt v, r, f' => r = .none ∧ f' = assign f start cnt v
  | .setAll v, r, f' => r = .none ∧ f' = assign f 0 n v
  | .count start cnt v, r, f' => f' = f ∧ r = .num ((List.range' start cnt).countP (f · == v))
  | .contains start cnt v, r, f' =>
    f' = f ∧ ∃ c, r = .truth c ∧ (c = true ↔ ∃ j < cnt, f (start + j) = v)
  | .scan start cnt v, r, f' => f' = f ∧ ∃ k, r = .num k ∧ Found n f start cnt v k
  | .scanAndFlip start cnt v, r, f' => ∃ k, r = .num k ∧ Found n f start cnt v k ∧
      f' = if k = bitmapError then f else assign f k cnt !v

end

/-- The results `rs` of a sequence of calls, and the vector after it. -/
def BehavesAll (n : Nat) (f : Nat → Bool) : List Op → List Res → (Nat → Bool) → Prop
  | [], rs, f' => rs = [] ∧ f' = f
  | op :: ops, rs, f' => ∃ r rs' g, rs = r :: rs' ∧ Behaves n f op r g ∧ BehavesAll n g ops rs' f'

/-- The bitmap holds the vector. -/
structure Holds (b : PackedBitmap) (n : Nat) (f : Nat → Bool) : Prop where
  wf : Wf b
  cnt : b.bitCnt = n
  test : ∀ i < n, Kernel.bitmapTest (view b) i = f i

section

variable {f f' : Nat → Bool} {m : Except Fault PackedBitmap}

theorem Holds.set (hb : Holds b n f) (hi : i < n) (hg : Gives m (Kernel.bitmapSet (view b) i v)) :
    ∃ b', m = .ok b' ∧ Holds b' n (Function.update f i v) := by
  obtain ⟨b', hm, hwf, hv⟩ := hg
  have hcnt : b'.bitCnt = n := by rw [← size_view b', hv, bitmapSize_set, size_view, hb.cnt]
  refine ⟨b', hm, hwf, hcnt, fun j hj => ?_⟩
  rw [hv, bitmapTest_set (by rwa [size_view, hb.cnt]), hb.test j hj, Function.update_apply]

theorem Holds.setMultiple (hb : Holds b n f) (hin : start + cnt ≤ n)
    (hg : Gives m (Kernel.bitmapSetMultiple (view b) start cnt v)) :
    ∃ b', m = .ok b' ∧ Holds b' n (assign f start cnt v) := by
  obtain ⟨b', hm, hwf, hv⟩ := hg
  refine ⟨b', hm, hwf, (size_of_view hv).trans hb.cnt, fun j hj => ?_⟩
  rw [hv, bitmapTest_setMultiple (by rwa [size_view, hb.cnt]), hb.test j hj]
  rfl

/-- A group in the view is one in the vector. -/
theorem Holds.groups_eq (hb : Holds b n f) {k : Nat} :
    k ∈ groups n f start cnt v ↔
      start ≤ k ∧ k + cnt ≤ n ∧ ∀ j < cnt, Kernel.bitmapTest (view b) (k + j) = v := by
  refine and_congr_right fun _ => and_congr_right fun hfit => forall₂_congr fun j hj => ?_
  rw [hb.test (k + j) (by omega)]

/-- **`bitmap_scan`** -/
theorem Holds.found (hb : Holds b n f) (start cnt : Nat) (v : Bool) :
    Found n f start cnt v ((Kernel.bitmapScan (view b) start cnt v).getD bitmapError) := by
  have hsize : bitmapSize (view b) = n := (size_view b).trans hb.cnt
  have hfirst : ∀ k ∈ groups n f start cnt v, ∃ j ≤ k, Kernel.bitmapScan (view b) start cnt v = some j := by
    intro k hk
    obtain ⟨h1, h2, h3⟩ := hb.groups_eq.mp hk
    exact bitmapScan_first h1 (by rwa [hsize]) h3
  cases hs : Kernel.bitmapScan (view b) start cnt v with
  | none =>
    refine .inr ⟨rfl, Set.eq_empty_iff_forall_notMem.mpr fun k hk => ?_⟩
    obtain ⟨j, -, hj⟩ := hfirst k hk
    rw [hs] at hj
    cases hj
  | some k =>
    obtain ⟨h1, h2, h3⟩ := bitmapScan_some hs
    rw [hsize] at h2
    refine .inl ⟨(hb.wf.scan_ne hs).1, hb.groups_eq.mpr ⟨h1, h2, h3⟩, fun m hm => ?_⟩
    obtain ⟨j, hle, hj⟩ := hfirst m hm
    rw [hs] at hj
    obtain rfl : k = j := Option.some.inj hj
    exact hle

/-- **One call** does to the vector what it is to do. -/
theorem Holds.call {op : Op} (hb : Holds b n f) (hop : InRange n op) :
    ∃ r b' f', call b op = .ok (r, b') ∧ Behaves n f op r f' ∧ Holds b' n f' := by
  have hlt : ∀ {i}, i < n → i < b.bitCnt := fun h => h.trans_eq hb.cnt.symm
  have hle : ∀ {i}, i ≤ n → i ≤ b.bitCnt := fun h => h.trans_eq hb.cnt.symm
  cases op with
  | set i v =>
    obtain ⟨b', hm, h'⟩ := hb.set hop (set_gives hb.wf (hlt hop) v)
    exact ⟨_, b', _, by rw [Packed.call, hm]; rfl, ⟨rfl, rfl⟩, h'⟩
  | mark i =>
    obtain ⟨b', hm, h'⟩ := hb.set hop (mark_gives hb.wf (hlt hop))
    exact ⟨_, b', _, by rw [Packed.call, hm]; rfl, ⟨rfl, rfl⟩, h'⟩
  | reset i =>
    obtain ⟨b', hm, h'⟩ := hb.set hop (reset_gives hb.wf (hlt hop))
    exact ⟨_, b', _, by rw [Packed.call, hm]; rfl, ⟨rfl, rfl⟩, h'⟩
  | flip i =>
    have hg := flip_gives hb.wf (hlt hop)
    rw [hb.test i hop] at hg
    obtain ⟨b', hm, h'⟩ := hb.set hop hg
    exact ⟨_, b', _, by rw [Packed.call, hm]; rfl, ⟨rfl, rfl⟩, h'⟩
  | setMultiple start cnt v =>
    obtain ⟨b', hm, h'⟩ := hb.setMultiple hop (setMultiple_gives hb.wf (hle hop) v)
    exact ⟨_, b', _, by rw [Packed.call, hm]; rfl, ⟨rfl, rfl⟩, h'⟩
  | setAll v =>
    have hg := setAll_gives hb.wf v
    rw [hb.cnt] at hg
    obtain ⟨b', hm, h'⟩ := hb.setMultiple (Nat.le_of_eq (Nat.zero_add n)) hg
    exact ⟨_, b', _, by rw [Packed.call, hm]; rfl, ⟨rfl, rfl⟩, h'⟩
  | count start cnt v =>
    refine ⟨_, b, f, by rw [Packed.call, count_ok hb.wf (hle hop)]; rfl, ⟨rfl, ?_⟩, hb⟩
    congr 1
    refine List.countP_congr fun j hj => ?_
    have hin : start + cnt ≤ n := hop
    rw [hb.test j (by have := List.mem_range'_1.mp hj; omega)]
  | contains start cnt v =>
    refine ⟨_, b, f, by rw [Packed.call, contains_ok hb.wf (hle hop)]; rfl, ⟨rfl, _, rfl, ?_⟩, hb⟩
    rw [bitmapContains_iff]
    refine exists_congr fun j => and_congr_right fun hj => ?_
    have hin : start + cnt ≤ n := hop
    rw [hb.test (start + j) (by omega)]
  | scan start cnt v =>
    exact ⟨_, b, f, by rw [Packed.call, scan_ok hb.wf (hle hop.1)]; rfl, ⟨rfl, _, rfl, hb.found start cnt v⟩, hb⟩
  | scanAndFlip start cnt v =>
    obtain ⟨b', hm, hwf, hv⟩ := scanAndFlip_gives hb.wf (hle hop.1) cnt v
    have hfound := hb.found start cnt v
    unfold Kernel.bitmapScanAndFlip at hv
    cases hs : Kernel.bitmapScan (view b) start cnt v with
    | none =>
      rw [hs] at hm hv hfound
      refine ⟨_, b', f, by rw [Packed.call, hm]; rfl, ⟨_, rfl, hfound, (if_pos rfl).symm⟩, hwf, ?_, ?_⟩
      · rw [← size_view b', hv, size_view, hb.cnt]
      · rw [hv]
        exact hb.test
    | some k =>
      rw [hs] at hm hv hfound
      obtain ⟨hne, hfit⟩ := hb.wf.scan_ne hs
      rw [hb.cnt] at hfit
      obtain ⟨b'', hb'', h''⟩ := hb.setMultiple (m := .ok b') hfit ⟨b', rfl, hwf, hv⟩
      obtain rfl : b' = b'' := Except.ok.inj hb''
      exact ⟨_, b', _, by rw [Packed.call, hm]; rfl, ⟨_, rfl, hfound, (if_neg hne).symm⟩, h''⟩

theorem Holds.calls {ops : List Op} (hb : Holds b n f) (hops : ∀ op ∈ ops, InRange n op) :
    ∃ rs b' f', calls b ops = .ok (rs, b') ∧ BehavesAll n f ops rs f' ∧ Holds b' n f' := by
  induction ops generalizing b f with
  | nil => exact ⟨[], b, f, rfl, ⟨rfl, rfl⟩, hb⟩
  | cons op ops ih =>
    obtain ⟨r, b1, g, hc, hr, h1⟩ := hb.call (hops op (List.mem_cons_self ..))
    obtain ⟨rs, b', f', hcs, hrs, h'⟩ := ih h1 fun o ho => hops o (List.mem_cons_of_mem _ ho)
    refine ⟨r :: rs, b', f', ?_, ⟨r, rs, g, rfl, hr, hrs⟩, h'⟩
    rw [Packed.calls, hc]
    show (Packed.calls b1 ops).bind _ = _
    rw [hcs]
    rfl

end

/-- **Bitmaps refine bit vectors**: `bitmap_create` returns a null pointer or a bitmap, and every
sequence of calls on it does to the words what it is to do to a vector of `n` bits. -/
theorem bitmap_refines_vector {n : Nat} (hn : n < 2 ^ 32) (first : Bool)
    (second : Option (Nat → BitVec 32)) :
    bitmapCreate n first second = .ok none ∧ Unavailable n first second ∨
      ∃ b, bitmapCreate n first second = .ok (some b) ∧
        ∀ ops, (∀ op ∈ ops, InRange n op) →
          ∃ rs b' f', calls b ops = .ok (rs, b') ∧ BehavesAll n (fun _ => false) ops rs f' ∧
            b'.bitCnt = n ∧ ∀ i < n, bitmapTest b' i = .ok (f' i) := by
  refine (create_gives hn first second).imp id fun hcreate => ?_
  obtain ⟨b, hb, hwf, hv⟩ := hcreate
  have hcnt : b.bitCnt = n := by rw [← size_view b, hv, bitmapSize_create]
  have hholds : Holds b n fun _ => false := ⟨hwf, hcnt, fun i _ => by rw [hv, bitmapTest_create]⟩
  refine ⟨b, hb, fun ops hops => ?_⟩
  obtain ⟨rs, b', f', hcs, hbeh, h'⟩ := hholds.calls hops
  refine ⟨rs, b', f', hcs, hbeh, h'.cnt, fun i hi => ?_⟩
  rw [test_ok h'.wf (hi.trans_eq h'.cnt.symm), h'.test i hi]

/-- 40 bits: two elements. -/
theorem two_words : ∃ b, bitmapCreate 40 true (some fun _ => 0xdeadbeef) = .ok (some b) ∧
    ∀ ops, (∀ op ∈ ops, InRange 40 op) →
      ∃ rs b' f', calls b ops = .ok (rs, b') ∧ BehavesAll 40 (fun _ => false) ops rs f' ∧
        b'.bitCnt = 40 ∧ ∀ i < 40, bitmapTest b' i = .ok (f' i) :=
  (bitmap_refines_vector (by decide) _ _).resolve_left fun h => by
    rcases h.2 with h | h | h
    · cases h
    · cases h
    · exact absurd h (by decide)

/-- A group across the border of two words is found and flipped. -/
example : (bitmapCreate 40 true (some fun _ => 0xdeadbeef)).bind (fun b => (calls (b.getD ⟨0, []⟩)
      [.setMultiple 0 30 true, .scanAndFlip 3 5 false, .count 0 40 true, .scan 0 7 false]).map
        Prod.fst) = .ok [.none, .num 30, .num 35, .num bitmapError] := by decide

end Pintos.Kernel.Packed
