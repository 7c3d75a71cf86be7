import Pintos.Base.Tape
import Mathlib.Tactic.IntervalCases

/-!
# The display (devices/vga.c)

`vga_putc`, with the controller's two registers for the cursor. A write outside of the frame buffer
is `none`.
-/

namespace Pintos.Devices.Vga

open Pintos.Base

/-! ## The code -/

/-- `COL_CNT` -/
def colCnt : Nat := 80

/-- `ROW_CNT` -/
def rowCnt : Nat := 25

/-- A character and its attribute. -/
structure Cell where
  char : UInt8
  attr : UInt8
  deriving DecidableEq, Repr

/-- `GRAY_ON_BLACK` -/
def grayOnBlack : UInt8 := 0x07

abbrev Fb := Fin rowCnt → Fin colCnt → Cell

structure Display where
  fb : Fb
  cx : Nat
  cy : Nat
  inited : Bool
  /-- The registers of the controller, of which 0x0e and 0x0f have the position of the cursor. -/
  crtc : BitVec 8 → BitVec 8

namespace Display

/-- A word to port 0x3d4: the number of a register and what goes there. -/
def outw (d : Display) (v : BitVec 16) : Display :=
  { d with crtc := Function.update d.crtc (v.extractLsb' 0 8) (v.extractLsb' 8 8) }

/-- `move_cursor` -/
def moveCursor (d : Display) : Display :=
  let cp := BitVec.ofNat 16 (d.cx + colCnt * d.cy)
  (d.outw (0x0e#16 ||| (cp &&& 0xff00#16))).outw (0x0f#16 ||| (cp <<< 8))

/-- `find_cursor` -/
def findCursor (d : Display) : Nat × Nat :=
  let cp : BitVec 16 := ((d.crtc 0x0e).setWidth 16 <<< 8) ||| (d.crtc 0x0f).setWidth 16
  (cp.toNat % colCnt, cp.toNat / colCnt)

def init (d : Display) : Display :=
  if d.inited then d else { d with cx := d.findCursor.1, cy := d.findCursor.2, inited := true }

/-- `clear_row` -/
def clearRow (fb : Fb) (y : Fin rowCnt) : Fb := Function.update fb y fun _ => ⟨32, grayOnBlack⟩

/-- `memmove (&fb[0], &fb[1], sizeof fb[0] * (ROW_CNT - 1))` -/
def moveRows (fb : Fb) : Fb := fun y => if h : y.val + 1 < rowCnt then fb ⟨y.val + 1, h⟩ else fb y

def newline (d : Display) : Display :=
  let d := { d with cx := 0, cy := d.cy + 1 }
  if rowCnt ≤ d.cy then
    { d with cy := rowCnt - 1, fb := clearRow (moveRows d.fb) ⟨rowCnt - 1, by decide⟩ }
  else d

def cls (d : Display) : Display :=
  { d with fb := (List.finRange rowCnt).foldl clearRow d.fb, cx := 0, cy := 0 }.moveCursor

/-- `ROUND_UP` -/
def roundUp (x step : Nat) : Nat := (x + step - 1) / step * step

/-- The default of the `switch`. -/
def putCell (d : Display) (c : Int) : Option Display :=
  if h : d.cy < rowCnt ∧ d.cx < colCnt then
    let row := Function.update (d.fb ⟨d.cy, h.1⟩) ⟨d.cx, h.2⟩ ⟨.ofInt c, grayOnBlack⟩
    let d := { d with fb := Function.update d.fb ⟨d.cy, h.1⟩ row, cx := d.cx + 1 }
    some (if colCnt ≤ d.cx then d.newline else d)
  else none

/-- The `switch` of `vga_putc`. -/
def putChar (d : Display) (c : Int) : Option Display :=
  if c = 10 then some d.newline
  else if c = 12 then some d.cls
  else if c = 8 then some (if 0 < d.cx then { d with cx := d.cx - 1 } else d)
  else if c = 13 then some { d with cx := 0 }
  else if c = 9 then
    let d := { d with cx := roundUp (d.cx + 1) 8 }
    some (if colCnt ≤ d.cx then d.newline else d)
  else d.putCell c

def vgaPutc (d : Display) (c : Int) : Option Display := (d.init.putChar c).map moveCursor

/-- A text, character by character. -/
def putText : Display → List Int → Option Display
  | d, [] => some d
  | d, c :: cs => (d.vgaPutc c).bind fun d => d.putText cs

end Display

/-! ## The cursor -/

section

variable {d : Display} (v : BitVec 16)

theorem high_number : (0x0e#16 ||| (v &&& 0xff00#16)).extractLsb' 0 8 = 0x0e := by
  apply BitVec.eq_of_getLsbD_eq
  intro i hi
  interval_cases i <;> simp

theorem high_data : (0x0e#16 ||| (v &&& 0xff00#16)).extractLsb' 8 8 = v.extractLsb' 8 8 := by
  apply BitVec.eq_of_getLsbD_eq
  intro i hi
  interval_cases i <;> simp

theorem low_number : (0x0f#16 ||| (v <<< 8)).extractLsb' 0 8 = 0x0f := by
  apply BitVec.eq_of_getLsbD_eq
  intro i hi
  interval_cases i <;> simp

theorem low_data : (0x0f#16 ||| (v <<< 8)).extractLsb' 8 8 = v.extractLsb' 0 8 := by
  apply BitVec.eq_of_getLsbD_eq
  intro i hi
  interval_cases i <;> simp

theorem high_low : ((v.extractLsb' 8 8).setWidth 16 <<< 8) ||| (v.extractLsb' 0 8).setWidth 16 = v := by
  apply BitVec.eq_of_getLsbD_eq
  intro i hi
  interval_cases i <;> simp

theorem outw_crtc (r : BitVec 8) : (d.outw v).crtc r =
    Function.update d.crtc (v.extractLsb' 0 8) (v.extractLsb' 8 8) r := rfl

theorem moveCursor_eq : d.moveCursor =
    (d.outw (0x0e#16 ||| (BitVec.ofNat 16 (d.cx + colCnt * d.cy) &&& 0xff00#16))).outw
      (0x0f#16 ||| (BitVec.ofNat 16 (d.cx + colCnt * d.cy) <<< 8)) := rfl

/-- `find_cursor` finds what `move_cursor` has written. -/
theorem findCursor_moveCursor (hx : d.cx < colCnt) (hy : d.cy < rowCnt) :
    d.moveCursor.findCursor = (d.cx, d.cy) := by
  have hne : (0x0e : BitVec 8) ≠ 0x0f := by decide
  have hhigh : d.moveCursor.crtc 0x0e = (BitVec.ofNat 16 (d.cx + colCnt * d.cy)).extractLsb' 8 8 := by
    rw [moveCursor_eq, outw_crtc, low_number, Function.update_of_ne hne, outw_crtc, high_number,
      high_data, Function.update_self]
  have hlow : d.moveCursor.crtc 0x0f = (BitVec.ofNat 16 (d.cx + colCnt * d.cy)).extractLsb' 0 8 := by
    rw [moveCursor_eq, outw_crtc, low_number, low_data, Function.update_self]
  unfold Display.findCursor
  rw [hhigh, hlow, high_low]
  have hlt : d.cx + colCnt * d.cy < 2 ^ 16 := by
    unfold colCnt rowCnt at *
    omega
  show ((BitVec.ofNat 16 (d.cx + colCnt * d.cy)).toNat % colCnt,
    (BitVec.ofNat 16 (d.cx + colCnt * d.cy)).toNat / colCnt) = _
  rw [BitVec.toNat_ofNat, Nat.mod_eq_of_lt hlt]
  unfold colCnt at *
  refine Prod.ext ?_ ?_
  · show (d.cx + 80 * d.cy) % 80 = d.cx
    omega
  · show (d.cx + 80 * d.cy) / 80 = d.cy
    omega

end

/-! ## The tape -/

/-- What `clear_row` leaves. -/
def blank : Cell := ⟨32, grayOnBlack⟩

/-- What a character does on the tape. -/
def typed (t : Tape Cell) (c : Int) : Tape Cell :=
  let goTo := Tape.goTo rowCnt colCnt
  if c = 10 then goTo t ((t.pos / colCnt + 1) * colCnt)
  else if c = 12 then t.page rowCnt colCnt
  else if c = 8 then goTo t (if t.pos % colCnt = 0 then t.pos else t.pos - 1)
  else if c = 13 then goTo t (t.pos - t.pos % colCnt)
  else if c = 9 then goTo t ((t.pos / 8 + 1) * 8)
  else goTo (t.put ⟨.ofInt c, grayOnBlack⟩) (t.pos + 1)

/-- The display is a window on the tape. -/
abbrev On (t : Tape Cell) (d : Display) : Prop := Shows blank t d.fb d.cy d.cx

section

variable {t : Tape Cell} {d d' : Display} {c : Int}

theorem clearRow_moveRows (fb : Fb) :
    Display.clearRow (Display.moveRows fb) ⟨rowCnt - 1, by decide⟩ = scrolled blank fb := by
  funext i j
  unfold Display.clearRow scrolled Display.moveRows
  by_cases hi : i = ⟨rowCnt - 1, by decide⟩
  · subst hi
    rw [Function.update_self, dif_neg (by decide)]
    rfl
  · have hlt : i.val + 1 < rowCnt := by
      have := i.isLt
      have : i.val ≠ rowCnt - 1 := fun e => hi (Fin.ext e)
      omega
    rw [Function.update_of_ne hi, dif_pos hlt, dif_pos hlt]

theorem On.div (h : On t d) : t.pos / colCnt = t.top + d.cy := by rw [h.pos, div_line h.col]

theorem On.mod (h : On t d) : t.pos % colCnt = d.cx := by rw [h.pos, mod_line h.col]

theorem On.newline (h : On t d) : On (t.goTo rowCnt colCnt ((t.pos / colCnt + 1) * colCnt)) d.newline := by
  rw [h.div]
  have hrow := h.row
  unfold Display.newline
  by_cases hy : rowCnt ≤ d.cy + 1
  · have he : d.cy = rowCnt - 1 := by omega
    have hs := h.goTo_scrolled (by omega)
    rw [if_pos hy]
    show Shows blank _ (Display.clearRow (Display.moveRows d.fb) _) (rowCnt - 1) 0
    rw [clearRow_moveRows, ← he]
    exact hs
  · rw [if_neg hy]
    exact h.goTo_next (by omega)

/-- A row that is cleared at some time, or was blank before. -/
theorem clearRows (l : List (Fin rowCnt)) (fb : Fb) (y : Fin rowCnt)
    (h : y ∈ l ∨ fb y = fun _ => blank) : l.foldl Display.clearRow fb y = fun _ => blank := by
  induction l generalizing fb with
  | nil => exact h.resolve_left List.not_mem_nil
  | cons z l ih =>
    rw [List.foldl_cons]
    apply ih
    unfold Display.clearRow
    by_cases hz : y = z
    · subst hz
      rw [Function.update_self]
      exact .inr rfl
    · rw [Function.update_of_ne hz]
      exact h.imp_left fun hm => (List.mem_cons.mp hm).resolve_left hz

theorem On.cls (h : On t d) : On (t.page rowCnt colCnt) d.cls := by
  have hfb : (List.finRange rowCnt).foldl Display.clearRow d.fb = fun _ _ => blank := by
    funext y
    exact clearRows _ _ y (.inl (List.mem_finRange y))
  show Shows blank _ ((List.finRange rowCnt).foldl Display.clearRow d.fb) 0 0
  rw [hfb]
  exact h.page

/-- To another column of the line. -/
theorem On.column (h : On t d) {x p : Nat} (hx : x < colCnt) (hp : p + d.cx = t.pos + x) :
    On (t.goTo rowCnt colCnt p) { d with cx := x } := by
  have hpos := h.pos
  rw [show p = (t.top + d.cy) * colCnt + x by omega]
  exact h.goTo_col hx

/-- To a column further on, or to the next line where the line ends there. -/
theorem On.columnOrNewline (h : On t d) {x p : Nat} (hx : x ≤ colCnt) (hp : p + d.cx = t.pos + x) :
    On (t.goTo rowCnt colCnt p)
      (if colCnt ≤ x then Display.newline { d with cx := x } else { d with cx := x }) := by
  by_cases hend : colCnt ≤ x
  · rw [if_pos hend]
    have hpos := h.pos
    have hnext : p = (t.pos / colCnt + 1) * colCnt := by
      rw [h.div, Nat.add_mul]
      omega
    rw [hnext]
    exact h.newline
  · rw [if_neg hend]
    exact h.column (by omega) hp

theorem On.putCell (h : On t d) : ∃ d', d.putCell c = some d' ∧
    On ((t.put ⟨.ofInt c, grayOnBlack⟩).goTo rowCnt colCnt (t.pos + 1)) d' := by
  refine ⟨_, dif_pos ⟨h.row, h.col⟩, ?_⟩
  have hput : On (t.put ⟨.ofInt c, grayOnBlack⟩) { d with
      fb := Function.update d.fb ⟨d.cy, h.row⟩
        (Function.update (d.fb ⟨d.cy, h.row⟩) ⟨d.cx, h.col⟩ ⟨.ofInt c, grayOnBlack⟩) } := h.put _
  exact hput.columnOrNewline (Nat.succ_le_of_lt h.col) (Nat.add_right_comm ..)

/-- `ROUND_UP (cx + 1, 8)` is the next multiple of 8 on the tape too, which lines end at. -/
theorem On.tab (h : On t d) : Display.roundUp (d.cx + 1) 8 ≤ colCnt ∧
    (t.pos / 8 + 1) * 8 + d.cx = t.pos + Display.roundUp (d.cx + 1) 8 := by
  have hcol := h.col
  have hpos := h.pos
  unfold Display.roundUp colCnt at *
  omega

theorem On.putChar (h : On t d) : ∃ d', d.putChar c = some d' ∧ On (typed t c) d' := by
  have hcol := h.col
  have hmod := h.mod
  have hpos := h.pos
  unfold Display.putChar typed
  by_cases h₁ : c = 10
  · rw [if_pos h₁, if_pos h₁]
    exact ⟨_, rfl, h.newline⟩
  rw [if_neg h₁, if_neg h₁]
  by_cases h₂ : c = 12
  · rw [if_pos h₂, if_pos h₂]
    exact ⟨_, rfl, h.cls⟩
  rw [if_neg h₂, if_neg h₂]
  by_cases h₃ : c = 8
  · rw [if_pos h₃, if_pos h₃, hmod]
    refine ⟨_, rfl, ?_⟩
    by_cases hx : 0 < d.cx
    · rw [if_pos hx, if_neg (by omega)]
      exact h.column (by omega) (by omega)
    · rw [if_neg hx, if_pos (by omega)]
      exact h.column hcol rfl
  rw [if_neg h₃, if_neg h₃]
  by_cases h₄ : c = 13
  · rw [if_pos h₄, if_pos h₄, hmod]
    exact ⟨_, rfl, h.column (by decide) (by omega)⟩
  rw [if_neg h₄, if_neg h₄]
  by_cases h₅ : c = 9
  · rw [if_pos h₅, if_pos h₅]
    obtain ⟨hx, hp⟩ := h.tab
    exact ⟨_, rfl, h.columnOrNewline hx hp⟩
  rw [if_neg h₅, if_neg h₅]
  exact h.putCell

end

/-! ## Texts -/

/-- The display as the BIOS leaves it: what is on the screen is the beginning of the tape. -/
def bootTape (d : Display) : Tape Cell where
  cells n :=
    if h : n / colCnt < rowCnt then d.fb ⟨n / colCnt, h⟩ ⟨n % colCnt, Nat.mod_lt _ (by decide)⟩ else blank
  pos := d.findCursor.2 * colCnt + d.findCursor.1
  top := 0

def displayExample : Display where
  fb _ _ := blank
  cx := 0
  cy := 0
  inited := false
  crtc _ := 0

structure Boot (d : Display) : Prop where
  inited : d.inited = false
  row : d.findCursor.2 < rowCnt

section

variable {t : Tape Cell} {d d' : Display} {c : Int}

theorem Boot.on (h : Boot d) : On (bootTape d) d.init := by
  have hx : d.findCursor.1 < colCnt := Nat.mod_lt _ (by decide)
  have hinit : d.init = { d with cx := d.findCursor.1, cy := d.findCursor.2, inited := true } := by
    unfold Display.init
    rw [h.inited]
    rfl
  rw [hinit]
  refine ⟨h.row, hx, ?_, fun i j => ?_, fun n hn => ?_⟩
  · show d.findCursor.2 * colCnt + d.findCursor.1 = (0 + d.findCursor.2) * colCnt + d.findCursor.1
    rw [Nat.zero_add]
  · have hj := j.isLt
    have hi := i.isLt
    show _ = (bootTape d).cells ((0 + i.val) * colCnt + j.val)
    rw [Nat.zero_add]
    show _ = dite _ _ _
    have hdiv : (i.val * colCnt + j.val) / colCnt = i.val := div_line hj
    have hmod : (i.val * colCnt + j.val) % colCnt = j.val := mod_line hj
    rw [dif_pos (by rw [hdiv]; exact hi)]
    exact congrArg₂ d.fb (Fin.ext hdiv.symm) (Fin.ext hmod.symm)
  · have hn : rowCnt * colCnt ≤ n := by
      rw [show (bootTape d).top + rowCnt = rowCnt from Nat.zero_add _] at hn
      exact hn
    exact dif_neg (Nat.not_lt.mpr ((Nat.le_div_iff_mul_le (by decide)).mpr hn))

/-- What holds between two characters. -/
structure Sync (t : Tape Cell) (d : Display) : Prop where
  on : On t d.init
  cursor : d.findCursor = (d.init.cx, d.init.cy)

theorem Sync.of_cursor (h : On t d) (hc : d.findCursor = (d.cx, d.cy)) : Sync t d := by
  have hinit : d.init.fb = d.fb ∧ d.init.cx = d.cx ∧ d.init.cy = d.cy := by
    unfold Display.init
    split
    · exact ⟨rfl, rfl, rfl⟩
    · rw [hc]
      exact ⟨rfl, rfl, rfl⟩
  obtain ⟨hfb, hcx, hcy⟩ := hinit
  refine ⟨?_, by rw [hcx, hcy, hc]⟩
  show Shows blank t d.init.fb d.init.cy d.init.cx
  rw [hfb, hcx, hcy]
  exact h

theorem bootExample : Boot displayExample := ⟨rfl, by decide⟩

theorem Boot.sync (h : Boot d) : Sync (bootTape d) d := by
  refine ⟨h.on, ?_⟩
  unfold Display.init
  rw [h.inited]
  rfl

theorem Sync.vgaPutc (h : Sync t d) : ∃ d', d.vgaPutc c = some d' ∧ Sync (typed t c) d' := by
  obtain ⟨d₁, hput, hon⟩ := h.on.putChar (c := c)
  refine ⟨d₁.moveCursor, Option.map_eq_some_iff.mpr ⟨d₁, hput, rfl⟩, .of_cursor hon ?_⟩
  exact findCursor_moveCursor hon.col hon.row

theorem Sync.putText (h : Sync t d) (cs : List Int) :
    ∃ d', d.putText cs = some d' ∧ Sync (cs.foldl typed t) d' := by
  induction cs generalizing t d with
  | nil => exact ⟨d, rfl, h⟩
  | cons c cs ih =>
    obtain ⟨d₁, hd₁, h₁⟩ := h.vgaPutc (c := c)
    obtain ⟨d', hd', h'⟩ := ih h₁
    exact ⟨d', Option.bind_eq_some_iff.mpr ⟨d₁, hd₁, hd'⟩, h'⟩

/-- **The display is a window on an endless tape**, whatever the text: no character is written
outside of the frame buffer, the screen shows the last lines of what the text is on the tape, and the
controller's cursor is where the next character goes. -/
theorem vga_shows_tape {d : Display} (h : Boot d) (cs : List Int) :
    ∃ d', d.putText cs = some d' ∧ On (cs.foldl typed (bootTape d)) d'.init ∧
      d'.findCursor = (d'.init.cx, d'.init.cy) := by
  obtain ⟨d', hd', h'⟩ := h.sync.putText cs
  exact ⟨d', hd', h'.on, h'.cursor⟩

/-- Two lines, the second of which is written over. -/
theorem vga_shows_tape_example : ∃ d', displayExample.putText [72, 105, 10, 79, 107, 13, 110] = some d' ∧
    d'.findCursor = (1, 1) := by
  obtain ⟨d', hd', hon, hcur⟩ := vga_shows_tape bootExample [72, 105, 10, 79, 107, 13, 110]
  refine ⟨d', hd', ?_⟩
  have htop : ([72, 105, 10, 79, 107, 13, 110].foldl typed (bootTape displayExample)).top = 0 := by decide
  have hpos : ([72, 105, 10, 79, 107, 13, 110].foldl typed (bootTape displayExample)).pos = 81 := by decide
  have hmod := hon.mod
  have hdiv := hon.div
  rw [hpos] at hmod hdiv
  rw [htop] at hdiv
  rw [hcur, ← hmod, show d'.init.cy = 1 by unfold colCnt at hdiv; omega]
  rfl

end

end Pintos.Devices.Vga
