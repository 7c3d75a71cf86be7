import Mathlib.Data.Fin.Basic
import Mathlib.Tactic.Ring

/-!
# A tape seen through a window

An endless tape of cells, cut into lines of `w`, of which a window of `h` lines is shown. The window
follows the position on the tape downwards, and below the window the tape is blank.
-/

namespace Pintos.Base

variable {α : Type} {h w : Nat}

structure Tape (α : Type) where
  cells : Nat → α
  pos : Nat
  /-- The first line of the window. -/
  top : Nat

namespace Tape

/-- Go to a position; the window moves on when that is below it. -/
def goTo (h w : Nat) (t : Tape α) (p : Nat) : Tape α :=
  { t with pos := p, top := max t.top (p / w + 1 - h) }

/-- Write a cell. -/
def put (t : Tape α) (a : α) : Tape α := { t with cells := Function.update t.cells t.pos a }

/-- Go on to a window of its own. -/
def page (h w : Nat) (t : Tape α) : Tape α :=
  { t with pos := (t.top + h) * w, top := t.top + h }

end Tape

/-- The window shows `screen`, with the position at column `x` of its line `y`. -/
structure Shows (blank : α) (t : Tape α) (screen : Fin h → Fin w → α) (y x : Nat) : Prop where
  row : y < h
  col : x < w
  pos : t.pos = (t.top + y) * w + x
  cells : ∀ i j, screen i j = t.cells ((t.top + i.val) * w + j.val)
  below : ∀ n, (t.top + h) * w ≤ n → t.cells n = blank

section

variable {blank : α} {t : Tape α} {screen : Fin h → Fin w → α} {y x : Nat}

theorem div_line {l x : Nat} (hx : x < w) : (l * w + x) / w = l := by
  rw [Nat.add_comm, Nat.add_mul_div_right _ _ (by omega), Nat.div_eq_of_lt hx, Nat.zero_add]

theorem mod_line {l x : Nat} (hx : x < w) : (l * w + x) % w = x := by
  rw [Nat.add_comm, Nat.add_mul_mod_self_right, Nat.mod_eq_of_lt hx]

theorem line_inj {l l' x x' : Nat} (hx : x < w) (hx' : x' < w) (e : l * w + x = l' * w + x') :
    l = l' ∧ x = x' := by
  have h₁ := congrArg (· / w) e
  have h₂ := congrArg (· % w) e
  simp only [div_line hx, div_line hx', mod_line hx, mod_line hx'] at h₁ h₂
  exact ⟨h₁, h₂⟩

/-- Within the window. -/
theorem Shows.goTo_col (s : Shows blank t screen y x) {x' : Nat} (hx : x' < w) :
    Shows blank (t.goTo h w ((t.top + y) * w + x')) screen y x' := by
  have htop : max t.top (((t.top + y) * w + x') / w + 1 - h) = t.top := by
    have := s.row
    rw [div_line hx]
    omega
  unfold Tape.goTo
  rw [htop]
  exact ⟨s.row, hx, rfl, s.cells, s.below⟩

/-- On to the next line of the window. -/
theorem Shows.goTo_next (s : Shows blank t screen y x) (hy : y + 1 < h) :
    Shows blank (t.goTo h w ((t.top + y + 1) * w)) screen (y + 1) 0 := by
  have hw : 0 < w := Nat.zero_lt_of_lt s.col
  have htop : max t.top ((t.top + y + 1) * w / w + 1 - h) = t.top := by
    rw [Nat.mul_div_cancel _ hw]
    omega
  unfold Tape.goTo
  rw [htop]
  exact ⟨hy, hw, rfl, s.cells, s.below⟩

/-- The window one line further down. -/
def scrolled (blank : α) (screen : Fin h → Fin w → α) (i : Fin h) (j : Fin w) : α :=
  if hi : i.val + 1 < h then screen ⟨i.val + 1, hi⟩ j else blank

/-- On from the last line of the window. -/
theorem Shows.goTo_scrolled (s : Shows blank t screen y x) (hy : y + 1 = h) :
    Shows blank (t.goTo h w ((t.top + y + 1) * w)) (scrolled blank screen) y 0 := by
  have hw : 0 < w := Nat.zero_lt_of_lt s.col
  have htop : max t.top ((t.top + y + 1) * w / w + 1 - h) = t.top + 1 := by
    rw [Nat.mul_div_cancel _ hw]
    omega
  unfold Tape.goTo
  rw [htop]
  refine ⟨s.row, hw, ?_, fun i j => ?_, fun n hn => ?_⟩
  · show (t.top + y + 1) * w = (t.top + 1 + y) * w + 0
    ring
  · unfold scrolled
    split
    · rw [s.cells]
      show t.cells ((t.top + (i.val + 1)) * w + j.val) = t.cells ((t.top + 1 + i.val) * w + j.val)
      rw [Nat.add_right_comm, Nat.add_assoc]
    · have hi := i.isLt
      refine (s.below _ ?_).symm
      show (t.top + h) * w ≤ (t.top + 1 + i.val) * w + j.val
      rw [show t.top + 1 + i.val = t.top + h by omega]
      omega
  · have hle : t.top + h ≤ t.top + 1 + h := by omega
    exact s.below n (Nat.le_trans (Nat.mul_le_mul_right w hle) hn)

theorem Shows.put (s : Shows blank t screen y x) (a : α) :
    Shows blank (t.put a)
      (Function.update screen ⟨y, s.row⟩ (Function.update (screen ⟨y, s.row⟩) ⟨x, s.col⟩ a)) y x := by
  refine ⟨s.row, s.col, s.pos, fun i j => ?_, fun n hn => ?_⟩
  · show _ = Function.update t.cells t.pos a ((t.top + i.val) * w + j.val)
    by_cases hi : i = ⟨y, s.row⟩
    · subst hi
      rw [Function.update_self]
      by_cases hj : j = ⟨x, s.col⟩
      · subst hj
        rw [Function.update_self]
        show a = Function.update t.cells t.pos a ((t.top + y) * w + x)
        rw [← s.pos, Function.update_self]
      · have hne : (t.top + y) * w + j.val ≠ t.pos := by
          rw [s.pos]
          intro e
          exact hj (Fin.ext (line_inj j.isLt s.col e).2)
        rw [Function.update_of_ne hj]
        show _ = Function.update t.cells t.pos a ((t.top + y) * w + j.val)
        rw [Function.update_of_ne hne, s.cells]
    · have hne : (t.top + i.val) * w + j.val ≠ t.pos := by
        rw [s.pos]
        intro e
        refine hi (Fin.ext ?_)
        have := (line_inj j.isLt s.col e).1
        show i.val = y
        omega
      rw [Function.update_of_ne hi, Function.update_of_ne hne, s.cells]
  · have hlt : t.pos < (t.top + h) * w := by
      have := s.row
      have := s.col
      rw [s.pos]
      calc (t.top + y) * w + x < (t.top + y) * w + w := by omega
        _ = (t.top + (y + 1)) * w := by ring
        _ ≤ (t.top + h) * w := Nat.mul_le_mul_right w (by omega)
    exact (Function.update_of_ne (Nat.ne_of_gt (Nat.lt_of_lt_of_le hlt hn)) ..).trans (s.below n hn)

theorem Shows.page (s : Shows blank t screen y x) :
    Shows blank (t.page h w) (fun (_ : Fin h) (_ : Fin w) => blank) 0 0 := by
  have hh : 0 < h := Nat.zero_lt_of_lt s.row
  refine ⟨hh, Nat.zero_lt_of_lt s.col, rfl, fun i j => ?_, fun n hn => ?_⟩
  · refine (s.below _ ?_).symm
    show (t.top + h) * w ≤ (t.top + h + i.val) * w + j.val
    exact Nat.le_trans (Nat.mul_le_mul_right w (by omega)) (Nat.le_add_right ..)
  · have hle : t.top + h ≤ t.top + h + h := by omega
    exact s.below n (Nat.le_trans (Nat.mul_le_mul_right w hle) hn)

end

end Pintos.Base
