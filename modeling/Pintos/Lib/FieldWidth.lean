import Pintos.Base.Separated
import Pintos.Lib.FormatSpec

/-!
# Field widths

The output of a conversion is that of the same conversion without a width, with all padding on one
side, except where a negative `*` width meets the `0` flag: `-` is then set after `0` was looked at,
and the number is padded on both sides.
-/

namespace Pintos.Lib.Stdio

open Pintos.Base

variable {args : VaList}

/-! ## Padding -/

/-- The specification without a width and without the flags that pad. -/
def Spec.bare (spec : Spec) : Spec :=
  { spec with
    flags := spec.flags.filter fun f => f != .minus && f != .zero
    width := .digits [] }

/-- How many characters of a number are its sign and `0x`. -/
def signLength (out : List Char) : Nat :=
  let sign := (out.takeWhile fun ch => ch == '-' || ch == '+' || ch == ' ').length
  sign + if (out.drop sign).take 2 = ['0', 'x'] ∨ (out.drop sign).take 2 = ['0', 'X'] then 2 else 0

/-- `out` is `bare` padded on one side to `w` characters. -/
structure Field (left : Bool) (w : Nat) (bare out : List Char) : Prop where
  length : out.length = max w bare.length
  side : out = bare ++ List.replicate (w - bare.length) ' ' ∧ left = true ∨
    left = false ∧ (out = List.replicate (w - bare.length) ' ' ++ bare ∨
      out = bare.take (signLength bare) ++ List.replicate (w - bare.length) '0' ++
        bare.drop (signLength bare))

/-- The characters of a number behind its sign and `0x`. -/
def IsDigitChar (ch : Char) : Prop := ch ≠ '-' ∧ ch ≠ '+' ∧ ch ≠ ' ' ∧ ch ≠ 'x' ∧ ch ≠ 'X'

section

variable {b : IntegerBase} {c : Conversion} {pre digits : List Char}

theorem signLength_append {sign x : Option Char} (hs : sign = none ∨ sign = some '-' ∨ sign = some '+' ∨
    sign = some ' ') (hx : x = none ∨ x = some 'x' ∨ x = some 'X') (hd : ∀ ch ∈ digits, IsDigitChar ch) :
    signLength (sign.toList ++ prefixOf x ++ digits) = (sign.toList ++ prefixOf x).length := by
  have hstop : (prefixOf x ++ digits).takeWhile (fun ch => ch == '-' || ch == '+' || ch == ' ') = [] := by
    rcases hx with rfl | rfl | rfl
    · cases digits with
      | nil => rfl
      | cons ch digits =>
        obtain ⟨h1, h2, h3, -⟩ := hd ch (List.mem_cons_self ..)
        simp [prefixOf, h1, h2, h3]
    · rfl
    · rfl
  have hsign : (sign.toList ++ prefixOf x ++ digits).takeWhile
      (fun ch => ch == '-' || ch == '+' || ch == ' ') = sign.toList := by
    rw [List.append_assoc]
    rcases hs with rfl | rfl | rfl | rfl
    · exact hstop
    all_goals
      show _ :: (prefixOf x ++ digits).takeWhile _ = _
      rw [hstop]
      rfl
  have hno : ∀ a, a = 'x' ∨ a = 'X' → digits.take 2 ≠ ['0', a] := by
    intro a ha he
    have hmem : a ∈ digits := List.mem_of_mem_take (i := 2) (by rw [he]; simp)
    obtain ⟨-, -, -, h4, h5⟩ := hd a hmem
    rcases ha with rfl | rfl
    · exact h4 rfl
    · exact h5 rfl
  unfold signLength
  dsimp only
  rw [hsign, List.append_assoc, List.drop_left, List.length_append]
  congr 1
  rcases hx with rfl | rfl | rfl
  · exact if_neg (not_or.mpr ⟨hno _ (.inl rfl), hno _ (.inr rfl)⟩)
  · exact if_pos (.inl rfl)
  · exact if_pos (.inr rfl)

/-- The padding goes to one side unless both flags are set. -/
theorem padded_field (hw : 0 ≤ c.width) (hw' : c.width < 2 ^ 31) (hlen : (pre ++ digits).length < 2 ^ 31)
    (hsign : signLength (pre ++ digits) = pre.length) :
    Field c.flags.minus c.width.toNat (pre ++ digits) (padded c pre digits) ↔
      ¬ (c.flags.minus = true ∧ c.flags.zero = true ∧ (pre ++ digits).length < c.width.toNat) := by
  have hpad := padding_eq hw hw' hlen
  have htake : (pre ++ digits).take (signLength (pre ++ digits)) = pre := by
    rw [hsign, List.take_left]
  have hdrop : (pre ++ digits).drop (signLength (pre ++ digits)) = digits := by
    rw [hsign, List.drop_left]
  unfold padded
  dsimp only
  rw [hpad]
  generalize c.width.toNat = w at *
  cases hm : c.flags.minus <;> cases hz : c.flags.zero
  · refine iff_of_true ⟨?_, .inr ⟨rfl, .inl ?_⟩⟩ (by simp)
    · simp
      omega
    · simp
  · refine iff_of_true ⟨?_, .inr ⟨rfl, .inr ?_⟩⟩ (by simp)
    · simp
      omega
    · rw [htake, hdrop]
      simp
  · refine iff_of_true ⟨?_, .inl ⟨?_, rfl⟩⟩ (by simp)
    · simp
      omega
    · simp
  · rw [not_and, not_and]
    constructor
    · intro h _ _
      have hl := h.length
      simp at hl
      simp
      omega
    · intro h
      have hge : w - (pre ++ digits).length = 0 := by
        have := h rfl rfl
        omega
      refine ⟨?_, .inl ⟨?_, rfl⟩⟩
      · rw [hge]
        simp at hge ⊢
        omega
      · rw [hge]
        simp

theorem IsBase.isDigitChar (hb : IsBase b) : ∀ d < b.base, IsDigitChar (digitChar b d) := by
  unfold IsDigitChar
  rcases hb with rfl | rfl | rfl | rfl <;> decide

theorem IsBase.digit_eq_zero (hb : IsBase b) : ∀ d < b.base, digitChar b d = '0' → d = 0 := by
  rcases hb with rfl | rfl | rfl | rfl <;> decide

theorem IsBase.x_cases (hb : IsBase b) : b.x = none ∨ b.x = some 'x' ∨ b.x = some 'X' := by
  rcases hb with rfl | rfl | rfl | rfl
  · exact .inl rfl
  · exact .inl rfl
  · exact .inr (.inl rfl)
  · exact .inr (.inr rfl)

theorem number_chars (hb : IsBase b) (c : Conversion) (value : Nat) :
    ∀ ch ∈ octal b c value ++ body b c value, IsDigitChar ch := by
  have hzero : IsDigitChar '0' := by
    unfold IsDigitChar
    decide
  have hcomma : IsDigitChar ',' := by
    unfold IsDigitChar
    decide
  intro ch hch
  rcases List.mem_append.mp hch with hch | hch
  · unfold octal at hch
    split at hch
    · rwa [List.mem_singleton.mp hch]
    · cases hch
  · rcases List.mem_append.mp hch with hch | hch
    · rwa [List.eq_of_mem_replicate hch]
    · have hdigit : ∀ a ∈ (Nat.digits b.base value).map (digitChar b), IsDigitChar a := by
        intro a ha
        obtain ⟨d, hd, rfl⟩ := List.mem_map.mp ha
        exact hb.isDigitChar d (Nat.digits_lt_base (Nat.lt_of_lt_of_le (by decide) hb.base_ge) hd)
      rw [List.mem_reverse] at hch
      unfold marks at hch
      split at hch
      · rcases mem_separated hch with rfl | hch
        · exact hcomma
        · exact hdigit ch hch
      · exact hdigit ch hch

theorem signPrefix_signLength (hb : IsBase b) (isSigned negative : Bool) (c : Conversion) (value : Nat) :
    signLength (signPrefix isSigned negative b c value ++ (octal b c value ++ body b c value)) =
      (signPrefix isSigned negative b c value).length := by
  refine signLength_append ?_ ?_ (number_chars hb c value)
  · unfold signOf
    cases isSigned <;> cases negative <;> cases c.flags.plus <;> cases c.flags.space <;> simp
  · split
    · exact hb.x_cases
    · exact .inl rfl

/-! ## The length of a number -/

/-- The characters of a number without a precision: sign, prefix, digits and commas. -/
def numberWidth (b : IntegerBase) (isSigned negative : Bool) (flags : List Flag) (value : Nat) : Nat :=
  let digitCnt := max 1 (Nat.digits b.base value).length
  (if isSigned && (negative || decide (.plus ∈ flags) || decide (.space ∈ flags)) then 1 else 0) +
    (if .pound ∈ flags ∧ value ≠ 0 then if b.base = 16 then 2 else if b.base = 8 then 1 else 0 else 0) +
    digitCnt + if .group ∈ flags then (digitCnt - 1) / b.group else 0

theorem marks_length (hb : IsBase b) (group : Bool) (ds : List Nat) :
    (marks b group 0 ds).length = ds.length + if group then (ds.length - 1) / b.group else 0 := by
  unfold marks
  cases group with
  | false => simp
  | true =>
    rw [if_pos rfl, if_pos rfl, separated_length hb.group_pos, List.length_map]

theorem body_length_eq (hb : IsBase b) (hp : c.precision < 0) (value : Nat) :
    (body b c value).length = max 1 (Nat.digits b.base value).length +
      if c.flags.group then (max 1 (Nat.digits b.base value).length - 1) / b.group else 0 := by
  have hone : rendered c = 1 := if_pos hp
  unfold body
  dsimp only
  rw [hone, List.length_append, List.length_replicate, List.length_reverse, marks_length hb]
  by_cases h0 : (Nat.digits b.base value).length = 0
  · rw [h0]
    cases c.flags.group <;> simp
  · rw [Nat.max_eq_right (Nat.one_le_iff_ne_zero.mpr h0)]
    omega

/-- Without a precision the zero of the `#` flag stands in front of every number but 0. -/
theorem octal_length (hb : IsBase b) (hp : c.precision < 0) (value : Nat) :
    (octal b c value).length = if c.flags.pound = true ∧ b.base = 8 ∧ value ≠ 0 then 1 else 0 := by
  have hone : rendered c = 1 := if_pos hp
  have hge := hb.base_ge
  have hhead : (body b c value).head? = some '0' ↔ value = 0 := by
    unfold body
    dsimp only
    rw [hone]
    by_cases h0 : value = 0
    · subst h0
      rw [Nat.digits_zero, marks_eq_nil.mpr rfl]
      exact iff_of_true rfl rfl
    · refine iff_of_false ?_ h0
      have hne : Nat.digits b.base value ≠ [] := fun h => h0 (Nat.digits_eq_nil_iff_eq_zero.mp h)
      have hms : marks b c.flags.group 0 (Nat.digits b.base value) ≠ [] := fun h =>
        hne (marks_eq_nil.mp h)
      have hpos := List.length_pos_of_ne_nil hms
      have hlast : (marks b c.flags.group 0 (Nat.digits b.base value)).getLast? =
          ((Nat.digits b.base value).map (digitChar b)).getLast? := by
        unfold marks
        split
        · exact separated_getLast? (List.map_eq_nil_iff.not.mpr hne)
        · rfl
      rw [show min 1 63 - (marks b c.flags.group 0 (Nat.digits b.base value)).length = 0 by omega,
        List.replicate_zero, List.nil_append, List.head?_reverse, hlast, List.getLast?_map,
        List.getLast?_eq_getLast_of_ne_nil hne, Option.map_some]
      intro he
      have hlt := Nat.digits_lt_base (Nat.lt_of_lt_of_le (by decide) hge) (List.getLast_mem hne)
      exact Nat.getLast_digit_ne_zero b.base h0 (hb.digit_eq_zero _ hlt (Option.some.inj he))
  unfold octal
  by_cases hc : c.flags.pound = true ∧ b.base = 8 ∧ value ≠ 0
  · rw [if_pos hc]
    obtain ⟨h1, h2, h3⟩ := hc
    rw [if_pos]
    · rfl
    · rw [h1, h2, bne_iff_ne.mpr (hhead.not.mpr h3)]
      rfl
  · rw [if_neg hc, if_neg]
    · rfl
    · intro h
      rw [Bool.and_eq_true, Bool.and_eq_true, beq_iff_eq, bne_iff_ne] at h
      exact hc ⟨h.1.1, h.1.2, hhead.not.mp h.2⟩

end

section

variable {spec : Spec} {b : IntegerBase}

/-- What is printed for a number without a precision has the length of the number. -/
theorem number_length (hb : IsBase b) (isSigned negative : Bool) (value : Nat)
    (hp : (spec.conversion args).precision < 0) :
    (signPrefix isSigned negative b (spec.conversion args) value ++
      (octal b (spec.conversion args) value ++ body b (spec.conversion args) value)).length =
        numberWidth b isSigned negative spec.flags value := by
  have hsign : (signOf isSigned negative (spec.conversion args).flags).toList.length =
      if isSigned && (negative || decide (.plus ∈ spec.flags) || decide (.space ∈ spec.flags))
        then 1 else 0 := by
    unfold signOf Spec.conversion
    dsimp only
    cases isSigned <;> cases negative <;> by_cases hplus : Flag.plus ∈ spec.flags <;>
      by_cases hspace : Flag.space ∈ spec.flags <;> simp [hplus, hspace]
  have hpound : (spec.conversion args).flags.pound = decide (.pound ∈ spec.flags) := rfl
  have hgroup : (spec.conversion args).flags.group = decide (.group ∈ spec.flags) := rfl
  have hprefix : (prefixOf (if (spec.conversion args).flags.pound && value != 0 then b.x else none)).length +
      (octal b (spec.conversion args) value).length =
        if .pound ∈ spec.flags ∧ value ≠ 0 then if b.base = 16 then 2 else if b.base = 8 then 1 else 0
        else 0 := by
    rw [octal_length hb hp, hpound]
    by_cases h1 : Flag.pound ∈ spec.flags <;> by_cases h2 : value = 0 <;>
      rcases hb with rfl | rfl | rfl | rfl <;>
      simp [h1, h2, prefixOf, baseD, baseO, baseX, baseUpperX]
  have hbody := body_length_eq hb hp value
  rw [hgroup] at hbody
  unfold numberWidth signPrefix
  dsimp only
  simp only [decide_eq_true_eq] at hbody
  rw [List.length_append, List.length_append, List.length_append, hsign, hbody]
  omega

end

/-! ## Strings -/

section

variable {c : Conversion}

theorem strnlen_le (string : Nat → Char) (maxlen : Nat) : strnlen string maxlen ≤ maxlen := by
  induction maxlen generalizing string with
  | zero => exact Nat.le_refl 0
  | succ n ih =>
    rw [strnlen]
    split
    · exact Nat.zero_le _
    · exact Nat.succ_le_succ (ih _)

/-- Without a width a string is printed as it is. -/
theorem formatString_bare {c0 : Conversion} (h0 : c0.width = 0) (string : Nat → Char) {length : Nat} :
    formatString string length c0 = (List.range length).map string := by
  have hpad : stringPad length c0 = [] := if_neg (by omega)
  unfold formatString
  rw [hpad, ite_self, Int.toNat_natCast, List.nil_append, List.append_nil]

theorem string_field (hw : 0 ≤ c.width) (hw' : c.width < 2 ^ 31) (string : Nat → Char) (length : Nat) :
    Field c.flags.minus c.width.toNat ((List.range length).map string)
      (formatString string length c) := by
  have hpad : stringPad length c = List.replicate (c.width.toNat - length) ' ' := by
    unfold stringPad
    split
    · congr 1
      omega
    · rw [show c.width.toNat - length = 0 by omega]
      rfl
  unfold formatString
  rw [hpad, Int.toNat_natCast]
  cases hm : c.flags.minus with
  | false =>
    refine ⟨?_, .inr ⟨rfl, .inl ?_⟩⟩
    · simp
      omega
    · simp
  | true =>
    refine ⟨?_, .inl ⟨?_, rfl⟩⟩
    · simp
      omega
    · simp

/-- A string of 2 ^ 31 characters or more has a negative length. -/
theorem long_string_field {c0 : Conversion} (h0 : c0.width = 0) (hw : 0 ≤ c.width) (hw' : c.width < 2 ^ 31)
    (string : Nat → Char) {length : Int} (h1 : length < 0) (h2 : -2 ^ 31 ≤ length) :
    Field c.flags.minus c.width.toNat (formatString string length c0) (formatString string length c) ↔
      c.width = 0 := by
  have hpad : ∀ c : Conversion, 0 ≤ c.width → c.width < 2 ^ 31 → formatString string length c =
      List.replicate (c.width - length).toNat ' ' := by
    intro c hw hw'
    have hlt : length < c.width := by omega
    have hmod : (c.width - length) % 2 ^ 32 = c.width - length :=
      Int.emod_eq_of_lt (by omega) (by omega)
    have hnone : length.toNat = 0 := Int.toNat_of_nonpos (by omega)
    unfold formatString stringPad
    rw [if_pos hlt, hmod, hnone]
    cases c.flags.minus <;> simp
  rw [hpad c hw hw', hpad c0 (by omega) (by omega), h0]
  constructor
  · intro h
    have hlen := h.length
    rw [List.length_replicate, List.length_replicate] at hlen
    omega
  · intro hz
    rw [hz]
    refine ⟨by simp, ?_⟩
    cases c.flags.minus
    · exact .inr ⟨rfl, .inl (by simp)⟩
    · exact .inl ⟨by simp, rfl⟩

end

/-! ## Every conversion -/

/-- The `0` flag meets a negative width, and the number is shorter than the field. -/
def PaddedTwice (spec : Spec) (args : VaList) (numberWidth : Nat) : Prop :=
  .zero ∈ spec.flags ∧ .minus ∉ spec.flags ∧ spec.width.value args < 0 ∧
    precisionValue (spec.width.rest args) spec.precision < 0 ∧
    numberWidth < (spec.width.value args).natAbs

/-- When the field is as it should be. -/
def FieldHolds (mem : Memory) (spec : Spec) (args : VaList) : Conv → Prop
  | .signed =>
    let value := (signedArg spec.modifier (spec.rest args)).1
    ¬ PaddedTwice spec args
      (numberWidth baseD true (decide (value.toInt < 0)) spec.flags value.toInt.natAbs)
  | .unsigned b =>
    let value := (unsignedArg spec.modifier (spec.rest args)).1
    ¬ PaddedTwice spec args (numberWidth b false false spec.flags value.toNat)
  | .string =>
    strnlen (stringArg mem (spec.rest args 0))
      (precisionValue (spec.width.rest args) spec.precision % 2 ^ 32).toNat < 2 ^ 31 ∨
        spec.width.value args = 0
  | .char | .pointer => True

section

variable {spec : Spec} {mem : Memory} {ch : Char}

theorem Spec.Valid.bare (hv : spec.Valid) : spec.bare.Valid := by
  refine ⟨fun s hs => ?_, hv.precision⟩
  cases hs
  exact ⟨fun _ h => (by cases h), by decide⟩

/-- The bare conversion has no width, and none of the flags that pad. -/
theorem bare_conversion (spec : Spec) (args : VaList) :
    spec.bare.conversion (spec.width.rest args) =
      { spec.conversion args with
        flags := { (spec.conversion args).flags with minus := false, zero := false }
        width := 0 } := by
  unfold Spec.conversion Spec.bare
  simp [Number.value, digitsValue, List.mem_filter, Number.rest]

theorem bare_rest (spec : Spec) (args : VaList) :
    spec.bare.rest (spec.width.rest args) = spec.rest args := rfl

theorem padded_twice_iff (spec : Spec) (args : VaList) (n : Nat) :
    (spec.conversion args).flags.minus = true ∧ (spec.conversion args).flags.zero = true ∧
      n < (spec.conversion args).width.toNat ↔ PaddedTwice spec args n := by
  unfold Spec.conversion PaddedTwice
  simp only [Bool.or_eq_true, Bool.and_eq_true, Bool.not_eq_true', decide_eq_true_eq,
    decide_eq_false_iff_not, Int.toNat_natCast]
  tauto

theorem number_lt {b : IntegerBase} (hb : IsBase b) (isSigned negative : Bool) (c : Conversion)
    (value : BitVec 64) :
    (signPrefix isSigned negative b c value.toNat ++
      (octal b c value.toNat ++ body b c value.toNat)).length < 2 ^ 31 := by
  have hbody := body_length (c := c) hb value.isLt
  have hoctal : (octal b c value.toNat).length ≤ 1 := by
    unfold octal
    split <;> decide
  have hsign : (signOf isSigned negative c.flags).toList.length ≤ 1 := by
    cases signOf isSigned negative c.flags <;> simp
  have hx : ∀ x : Option Char, (prefixOf x).length ≤ 2 := fun x => by cases x <;> simp [prefixOf]
  have hpre : (signPrefix isSigned negative b c value.toNat).length ≤ 1 + 2 := by
    rw [signPrefix, List.length_append]
    exact Nat.add_le_add hsign (hx _)
  rw [List.length_append, List.length_append]
  omega

/-- A number in a field. -/
theorem number_field {b : IntegerBase} (spec : Spec) (args : VaList) (hb : IsBase b)
    (hw : (spec.width.value args).natAbs < 2 ^ 31) (isSigned negative : Bool) (value : BitVec 64) :
    ∃ bare out, formatInteger value isSigned negative b (spec.bare.conversion (spec.width.rest args)) =
        .ok bare ∧
      formatInteger value isSigned negative b (spec.conversion args) = .ok out ∧
      (Field (spec.conversion args).flags.minus (spec.width.value args).natAbs bare out ↔
        ¬ PaddedTwice spec args (numberWidth b isSigned negative spec.flags value.toNat)) := by
  refine ⟨_, _, formatInteger_eq hb .., formatInteger_eq hb .., ?_⟩
  let c := spec.conversion args
  let pre := signPrefix isSigned negative b c value.toNat
  let digits := octal b c value.toNat ++ body b c value.toNat
  have hlen : (pre ++ digits).length < 2 ^ 31 := number_lt hb isSigned negative c value
  have hsign : signLength (pre ++ digits) = pre.length := signPrefix_signLength hb ..
  have hbare : padded { c with flags := { c.flags with minus := false, zero := false }, width := 0 }
      pre digits = pre ++ digits := by
    apply padded_of_padding
    rw [padding_eq (Int.le_refl 0) (show (0 : Int) < 2 ^ 31 by decide) hlen]
    exact Nat.zero_sub _
  have hfield := padded_field (c := c) (Int.natCast_nonneg _) (Int.ofNat_lt.mpr hw) hlen hsign
  rw [bare_conversion]
  show Field c.flags.minus _ (padded _ pre digits) (padded c pre digits) ↔ _
  rw [hbare]
  refine hfield.trans (not_congr ((padded_twice_iff spec args _).trans ?_))
  refine and_congr_right fun _ => and_congr_right fun _ => and_congr_right fun _ =>
    and_congr_right fun hprec => ?_
  rw [number_length hb isSigned negative value.toNat hprec]

/-- A string in a field. -/
theorem string_conversion_field (hw : (spec.width.value args).natAbs < 2 ^ 31) (string : Nat → Char)
    (n : Nat) (hn : n < 2 ^ 32) :
    Field (spec.conversion args).flags.minus (spec.width.value args).natAbs
        (formatString string (asInt n) (spec.bare.conversion (spec.width.rest args)))
        (formatString string (asInt n) (spec.conversion args)) ↔
      n < 2 ^ 31 ∨ spec.width.value args = 0 := by
  have h0 : (spec.bare.conversion (spec.width.rest args)).width = 0 := rfl
  have hle : 0 ≤ (spec.conversion args).width := Int.natCast_nonneg _
  have hlt : (spec.conversion args).width < 2 ^ 31 := Int.ofNat_lt.mpr hw
  by_cases hshort : n < 2 ^ 31
  · rw [asInt_of_range (by omega) (by omega), formatString_bare h0]
    exact iff_of_true (string_field hle hlt string n) (.inl hshort)
  · -- the length of the string does not fit into an int
    have hneg : asInt n = n - 2 ^ 32 := by
      rw [asInt, ← Int.sub_bmod_right, Int.bmod_eq_of_le_mul_two (by omega) (by omega)]
      rfl
    have hzero : (spec.conversion args).width = 0 ↔ spec.width.value args = 0 := by
      show ((spec.width.value args).natAbs : Int) = 0 ↔ _
      omega
    rw [hneg]
    refine (long_string_field h0 hle hlt string (by omega) (by omega)).trans (hzero.trans ?_)
    exact ⟨.inr, fun h => h.resolve_left hshort⟩

/-- **The field width**: a conversion outputs the same characters as without a width, padded on one
side, unless the `0` flag meets a negative `*` width that is not filled. -/
theorem field_width_iff (mem : Memory) {spec : Spec} {ch : Char} {k : Conv} (hv : spec.Valid)
    (hk : convOf ch = some k) (hp : k ≠ .pointer) (args : VaList)
    (hw : (spec.width.value args).natAbs < 2 ^ 31) :
    (∃ bare out, vprintf mem (spec.bare.string ch) (spec.width.rest args) = .ok bare ∧
      vprintf mem (spec.string ch) args = .ok out ∧
      Field (decide (.minus ∈ spec.flags) || decide (spec.width.value args < 0))
        (spec.width.value args).natAbs bare out) ↔ FieldHolds mem spec args k := by
  have hnone : (spec.bare.width.value (spec.width.rest args)).natAbs < 2 ^ 31 :=
    show (0 : Nat) < 2 ^ 31 by decide
  have hbare := vprintf_format mem hv.bare hk hnone
  have hout := vprintf_format mem hv hk hw
  rw [bare_rest] at hbare
  have hrun : ∀ bare out, (convert mem (spec.bare.conversion (spec.width.rest args)) (spec.rest args) k).1 =
      .ok bare → (convert mem (spec.conversion args) (spec.rest args) k).1 = .ok out →
      ((∃ bare out, vprintf mem (spec.bare.string ch) (spec.width.rest args) = .ok bare ∧
        vprintf mem (spec.string ch) args = .ok out ∧
        Field (decide (.minus ∈ spec.flags) || decide (spec.width.value args < 0))
          (spec.width.value args).natAbs bare out) ↔
        Field (spec.conversion args).flags.minus (spec.width.value args).natAbs bare out) := by
    intro bare out hb ho
    rw [hbare, hout, hb, ho]
    constructor
    · rintro ⟨_, _, ⟨⟩, ⟨⟩, h⟩
      exact h
    · exact fun h => ⟨bare, out, rfl, rfl, h⟩
  cases k with
  | signed =>
    obtain ⟨bare, out, hb, ho, hfield⟩ := number_field spec args (.inl rfl) hw true
      (decide ((signedArg spec.modifier (spec.rest args)).1.toInt < 0))
      (if decide ((signedArg spec.modifier (spec.rest args)).1.toInt < 0)
        then -(signedArg spec.modifier (spec.rest args)).1 else (signedArg spec.modifier (spec.rest args)).1)
    rw [absValue_toNat] at hfield
    exact (hrun bare out hb ho).trans hfield
  | unsigned b =>
    obtain ⟨bare, out, hb, ho, hfield⟩ := number_field spec args (convOf_base hk) hw
      false false (unsignedArg spec.modifier (spec.rest args)).1
    exact (hrun bare out hb ho).trans hfield
  | char =>
    refine (hrun _ _ rfl rfl).trans (iff_of_true ?_ trivial)
    exact (string_conversion_field hw _ 1 (by decide)).mpr (.inl (by decide))
  | string =>
    refine (hrun _ _ rfl rfl).trans (string_conversion_field hw _ _ ?_)
    apply Nat.lt_of_le_of_lt (strnlen_le _ _)
    have := Int.emod_lt_of_pos (spec.conversion args).precision (show (0 : Int) < 2 ^ 32 by decide)
    omega
  | pointer => exact absurd rfl hp

/-- The words of an argument list. -/
def words (l : List (BitVec 32)) : VaList := fun i => l.getD i 0

/-- A number of five characters in a field of eight. -/
theorem field_width_eight :
    (∃ bare out, vprintf (fun _ => '\x00') "%+d".toList (words [1234#32]) = .ok bare ∧
      vprintf (fun _ => '\x00') "%+08d".toList (words [1234#32]) = .ok out ∧
      Field false 8 bare out) ↔
    FieldHolds (fun _ => '\x00') ⟨[.plus, .zero], .digits ['8'], none, .int⟩ (words [1234#32]) .signed :=
  have hv : Spec.Valid ⟨[.plus, .zero], .digits ['8'], none, .int⟩ :=
    ⟨by rintro s ⟨⟩; simp [isdigit], by rintro s ⟨⟩⟩
  have hk : convOf 'd' = some .signed := rfl
  field_width_iff (fun _ => '\x00') hv hk (by decide) (words [1234#32]) (by decide)

/-- A field of five characters that gets nine. -/
theorem padded_twice : ¬ ∀ (mem : Memory) (spec : Spec) (ch : Char) (k : Conv) (args : VaList),
    spec.Valid → convOf ch = some k → k ≠ .pointer → (spec.width.value args).natAbs < 2 ^ 31 →
    ∃ bare out, vprintf mem (spec.bare.string ch) (spec.width.rest args) = .ok bare ∧
      vprintf mem (spec.string ch) args = .ok out ∧
      Field (decide (.minus ∈ spec.flags) || decide (spec.width.value args < 0))
        (spec.width.value args).natAbs bare out := by
  intro h
  have hv : Spec.Valid ⟨[.zero], .star, none, .int⟩ := ⟨by rintro s ⟨⟩, by rintro s ⟨⟩⟩
  obtain ⟨bare, out, hbare, hout, hfield⟩ := h (fun _ => '\x00') ⟨[.zero], .star, none, .int⟩ 'd' .signed
    (words [-5#32, 1#32]) hv rfl (by decide) (by decide)
  have hprint : vprintf (fun _ => '\x00') "%0*d".toList (words [-5#32, 1#32]) =
      .ok "00001    ".toList := by decide
  have hplain : vprintf (fun _ => '\x00') "%d".toList (words [1#32]) = .ok "1".toList := by decide
  obtain rfl : "00001    ".toList = out := Except.ok.inj (hprint.symm.trans hout)
  obtain rfl : "1".toList = bare := Except.ok.inj (hplain.symm.trans hbare)
  exact absurd hfield.length (by decide)

end

end Pintos.Lib.Stdio
