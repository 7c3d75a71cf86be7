import Pintos.Base.Prog
import Pintos.Lib.FormatScan

/-!
# Conversion specifications

What a conversion specification consists of is a `Spec`, and what it asks for is `Spec.conversion`:
`parse_conversion` reads the one from the text of the other.
-/

namespace Pintos.Lib.Stdio

open Pintos.Base

/-! ## Specifications -/

inductive Flag where
  | minus
  | plus
  | space
  | pound
  | zero
  | group
  deriving DecidableEq, Repr

def Flag.char : Flag → Char
  | .minus => '-'
  | .plus => '+'
  | .space => ' '
  | .pound => '#'
  | .zero => '0'
  | .group => '\''

/-- A width or a precision: digits, which may be none, or `*`. -/
inductive Number where
  | digits (s : List Char)
  | star
  deriving DecidableEq, Repr

def Number.text : Number → List Char
  | .digits s => s
  | .star => ['*']

/-- The number that digits stand for. -/
def digitsValue (s : List Char) : Nat := s.foldl (fun n ch => n * 10 + (ch.toNat - 48)) 0

def Number.value (args : VaList) : Number → Int
  | .digits s => digitsValue s
  | .star => (args 0).toInt

/-- The arguments behind that of the `*`. -/
def Number.rest (args : VaList) : Number → VaList
  | .digits _ => args
  | .star => fun i => args (i + 1)

def modifierText : ArgType → List Char
  | .char => ['h', 'h']
  | .short => ['h']
  | .int => []
  | .intmax => ['j']
  | .long => ['l']
  | .longlong => ['l', 'l']
  | .ptrdifft => ['t']
  | .sizet => ['z']

structure Spec where
  flags : List Flag
  width : Number
  /-- What follows the `.`, if there is one. -/
  precision : Option Number
  modifier : ArgType
  deriving DecidableEq, Repr

/-- The digits are digits, and those of the width do not begin with one that is a flag. -/
structure Spec.Valid (spec : Spec) : Prop where
  width : ∀ s, spec.width = .digits s → (∀ ch ∈ s, isdigit ch = true) ∧ s.head? ≠ some '0'
  precision : ∀ s, spec.precision = some (.digits s) → ∀ ch ∈ s, isdigit ch = true

def precisionText (p : Option Number) : List Char := p.elim [] fun p => '.' :: p.text

/-- What stands between the `%` and the conversion character. -/
def Spec.text (spec : Spec) : List Char :=
  spec.flags.map Flag.char ++ (spec.width.text ++ (precisionText spec.precision ++ modifierText spec.modifier))

/-- The precision, or `-1`. -/
def precisionValue (args : VaList) (p : Option Number) : Int :=
  p.elim (-1) fun p => if asInt (p.value args) < 0 then -1 else asInt (p.value args)

def precisionRest (args : VaList) (p : Option Number) : VaList := p.elim args fun p => p.rest args

/-- The arguments behind those of the specification. -/
def Spec.rest (spec : Spec) (args : VaList) : VaList :=
  precisionRest (spec.width.rest args) spec.precision

/-- The conversion that a specification asks for. -/
def Spec.conversion (spec : Spec) (args : VaList) : Conversion where
  flags :=
    { minus := decide (.minus ∈ spec.flags) || decide (spec.width.value args < 0)
      plus := decide (.plus ∈ spec.flags)
      space := decide (.space ∈ spec.flags) && !decide (.plus ∈ spec.flags)
      pound := decide (.pound ∈ spec.flags)
      zero := decide (.zero ∈ spec.flags) && !decide (.minus ∈ spec.flags) &&
        decide (precisionValue (spec.width.rest args) spec.precision < 0)
      group := decide (.group ∈ spec.flags) }
  width := (spec.width.value args).natAbs
  precision := precisionValue (spec.width.rest args) spec.precision
  type := spec.modifier

/-! ## Parsing -/

/-- The flags with one more. -/
def Flags.with (f : Flags) : Flag → Flags
  | .minus => { f with minus := true }
  | .plus => { f with plus := true }
  | .space => { f with space := true }
  | .pound => { f with pound := true }
  | .zero => { f with zero := true }
  | .group => { f with group := true }

theorem add_char (f : Flags) (flag : Flag) : f.add flag.char = some (f.with flag) := by
  cases flag <;> rfl

variable {format : List Char} {args : VaList}

theorem parseFlags_map (f : Flags) (flags : List Flag) :
    parseFlags f (flags.map Flag.char ++ format) = parseFlags (flags.foldl Flags.with f) format := by
  induction flags generalizing f with
  | nil => rfl
  | cons flag flags ih =>
    rw [List.map_cons, List.cons_append, parseFlags, add_char]
    exact ih _

theorem foldl_with (f : Flags) (flags : List Flag) :
    flags.foldl Flags.with f =
      ⟨f.minus || decide (.minus ∈ flags), f.plus || decide (.plus ∈ flags),
        f.space || decide (.space ∈ flags), f.pound || decide (.pound ∈ flags),
        f.zero || decide (.zero ∈ flags), f.group || decide (.group ∈ flags)⟩ := by
  induction flags generalizing f with
  | nil => simp
  | cons flag flags ih =>
    rw [List.foldl_cons, ih]
    cases flag <;> simp [Flags.with]

theorem asInt_step (n : Int) (d : Int) : asInt (asInt n * 10 + d) = asInt (n * 10 + d) := by
  unfold asInt
  rw [← Int.bmod_add_bmod, Int.bmod_mul_bmod, Int.bmod_add_bmod]

theorem parseDigits_append {s : List Char} (hs : ∀ ch ∈ s, isdigit ch = true)
    (hf : ∀ ch, format.head? = some ch → isdigit ch = false) (n : Nat) :
    parseDigits (asInt n) (s ++ format) =
      (asInt (s.foldl (fun n ch => n * 10 + (ch.toNat - 48)) n : Nat), format) := by
  induction s generalizing n with
  | nil =>
    cases format with
    | nil => rfl
    | cons ch format =>
      rw [List.nil_append, parseDigits, if_neg (by rw [hf ch rfl]; decide)]
      rfl
  | cons ch s ih =>
    have hch := hs ch (List.mem_cons_self ..)
    have hge : 48 ≤ ch.toNat := by
      rw [isdigit, Bool.and_eq_true, decide_eq_true_eq] at hch
      exact hch.1
    have hstep : asInt (asInt n * 10 + ch.toNat - 48) = asInt (n * 10 + (ch.toNat - 48) : Nat) := by
      rw [show asInt n * 10 + (ch.toNat : Int) - 48 = asInt n * 10 + ((ch.toNat : Int) - 48) by omega,
        asInt_step, show (n : Int) * 10 + ((ch.toNat : Int) - 48) = (n * 10 + (ch.toNat - 48) : Nat) by omega]
    rw [List.cons_append, parseDigits, if_pos hch, List.foldl_cons, hstep,
      ih fun a ha => hs a (List.mem_cons_of_mem _ ha)]

/-- The first character, if there is one, has `P`. -/
def Heads (P : Char → Prop) (format : List Char) : Prop := ∀ ch, format.head? = some ch → P ch

theorem Heads.append {P : Char → Prop} {l l' : List Char} (h : ∀ ch ∈ l, P ch) (h' : Heads P l') :
    Heads P (l ++ l') := by
  cases l with
  | nil => exact h'
  | cons ch l =>
    intro a ha
    obtain rfl : ch = a := Option.some.inj ha
    exact h ch (List.mem_cons_self ..)

theorem Heads.mono {P Q : Char → Prop} (h : Heads P format) (hpq : ∀ ch, P ch → Q ch) :
    Heads Q format := fun ch hch => hpq ch (h ch hch)

theorem Heads.ne {P : Char → Prop} {ch : Char} (h : Heads P format) (hch : ¬ P ch) :
    format.head? ≠ some ch := fun he => hch (h ch he)

/-- What may follow a number. -/
structure Ender (format : List Char) : Prop where
  digit : ∀ ch, format.head? = some ch → isdigit ch = false
  star : format.head? ≠ some '*'

theorem parseNumber_text (num : Number) (hs : ∀ s, num = .digits s → ∀ ch ∈ s, isdigit ch = true)
    (hf : Ender format) (args : VaList) :
    parseNumber (num.text ++ format) args = (asInt (num.value args), format, num.rest args) := by
  cases num with
  | star =>
    show ((args 0).toInt, format, _) = _
    rw [Number.value, asInt, Int.bmod_eq_of_le_mul_two]
    · rfl
    · have := BitVec.le_toInt (args 0)
      omega
    · have := BitVec.toInt_lt (x := args 0)
      omega
  | digits s =>
    have hparse := parseDigits_append (hs s rfl) hf.digit 0
    unfold parseNumber
    split
    · next he =>
      -- neither a digit nor what follows is a star
      cases s with
      | nil =>
        rw [Number.text, List.nil_append] at he
        exact absurd (by rw [he]; rfl) hf.star
      | cons ch s =>
        rw [Number.text, List.cons_append] at he
        obtain ⟨rfl, -⟩ := List.cons.inj he
        exact absurd (hs _ rfl '*' (List.mem_cons_self ..)) (by decide)
    · have hzero : asInt (0 : Nat) = 0 := by decide
      rw [hzero] at hparse
      simp only [Number.text, hparse, Number.value, Number.rest, digitsValue]

theorem parsePrecision_text {p : Option Number}
    (hs : ∀ s, p = some (.digits s) → ∀ ch ∈ s, isdigit ch = true) (hf : Ender format)
    (hdot : format.head? ≠ some '.') (args : VaList) :
    parsePrecision (precisionText p ++ format) args =
      (precisionValue args p, format, precisionRest args p) := by
  cases p with
  | none =>
    show parsePrecision format args = _
    unfold parsePrecision
    split
    · exact absurd rfl hdot
    · rfl
  | some num =>
    have hnum := parseNumber_text num (fun s h => hs s (by rw [h])) hf args
    let p := parseNumber (num.text ++ format) args
    have hrun : parsePrecision (precisionText (some num) ++ format) args =
        (if p.1 < 0 then -1 else p.1, p.2.1, p.2.2) := rfl
    rw [hrun, show p = _ from hnum]
    rfl

/-- The characters that conversions end with. -/
def convChars : List Char := ['d', 'i', 'o', 'u', 'x', 'X', 'c', 's', 'p']

theorem mem_convChars {ch : Char} {k : Conv} (h : convOf ch = some k) : ch ∈ convChars := by
  unfold convOf at h
  repeat' split at h
  all_goals
    first
    | cases h; done
    | next hch => subst hch; decide
    | next hch => rcases hch with rfl | rfl <;> decide

theorem parseType_text {t : ArgType} {ch : Char} (hch : ch ∈ convChars) (rest : List Char) :
    parseType (modifierText t ++ ch :: rest) = (t, ch :: rest) := by
  simp only [convChars, List.mem_cons, List.not_mem_nil, or_false] at hch
  rcases hch with rfl | rfl | rfl | rfl | rfl | rfl | rfl | rfl | rfl <;> cases t <;> rfl

/-- Letters: those of the modifiers and of the conversions. -/
def letters : List Char := ['h', 'j', 'l', 't', 'z'] ++ convChars

theorem heads_modifier {t : ArgType} {ch : Char} (hch : ch ∈ convChars) (rest : List Char) :
    Heads (· ∈ letters) (modifierText t ++ ch :: rest) := by
  refine .append ?_ fun a ha => ?_
  · cases t <;> simp [modifierText, letters]
  · obtain rfl : ch = a := Option.some.inj ha
    exact List.mem_append_right _ hch

theorem heads_precision {p : Option Number} (h : Heads (· ∈ letters) format) :
    Heads (fun ch => ch = '.' ∨ ch ∈ letters) (precisionText p ++ format) := by
  cases p with
  | none => exact h.mono fun _ => .inr
  | some num =>
    intro ch hch
    exact .inl (Option.some.inj hch).symm

theorem letters_spec : ∀ ch ∈ letters, isdigit ch = false ∧ ch ≠ '*' ∧ ch ≠ '.' ∧ ch ≠ '%' ∧
    ∀ f : Flags, f.add ch = none := by
  intro ch hch
  simp only [letters, convChars, List.cons_append, List.nil_append, List.mem_cons, List.not_mem_nil,
    or_false] at hch
  rcases hch with rfl | rfl | rfl | rfl | rfl | rfl | rfl | rfl | rfl | rfl | rfl | rfl | rfl | rfl <;>
    exact ⟨rfl, by decide, by decide, by decide, fun _ => rfl⟩

/-- A character that a width begins with is no flag. -/
theorem add_none {ch : Char} (hd : isdigit ch = true ∧ ch ≠ '0' ∨ ch = '*' ∨ ch = '.') (f : Flags) :
    f.add ch = none ∧ ch ≠ '%' := by
  rcases hd with ⟨hd, h0⟩ | rfl | rfl
  · have hne : ∀ a, isdigit a = false → ch ≠ a := by
      rintro a ha rfl
      rw [hd] at ha
      cases ha
    refine ⟨?_, hne _ rfl⟩
    rw [Flags.add, if_neg (hne _ rfl), if_neg (hne _ rfl), if_neg (hne _ rfl), if_neg (hne _ rfl),
      if_neg h0, if_neg (hne _ rfl)]
  · exact ⟨rfl, by decide⟩
  · exact ⟨rfl, by decide⟩

theorem parseFlags_stop {f : Flags} (h : Heads (fun ch => f.add ch = none) format) :
    parseFlags f format = (f, format) := by
  cases format with
  | nil => rfl
  | cons ch format =>
    rw [parseFlags, h ch rfl]

section

variable {spec : Spec} {ch : Char} {rest : List Char}

/-- What stands behind the flags, and behind the width. -/
theorem spec_heads (hv : spec.Valid) (hch : ch ∈ convChars) (rest : List Char) :
    Ender (precisionText spec.precision ++ (modifierText spec.modifier ++ ch :: rest)) ∧
    Heads (fun a => (∀ f : Flags, f.add a = none) ∧ a ≠ '%')
      (spec.width.text ++ (precisionText spec.precision ++ (modifierText spec.modifier ++ ch :: rest))) := by
  have hprec : Heads _ (precisionText spec.precision ++ (modifierText spec.modifier ++ ch :: rest)) :=
    heads_precision (heads_modifier hch rest)
  refine ⟨⟨fun a ha => ?_, hprec.ne ?_⟩, ?_⟩
  · rcases hprec a ha with rfl | ha
    · rfl
    · exact (letters_spec a ha).1
  · rintro (h | h)
    · exact absurd h (by decide)
    · exact (letters_spec _ h).2.1 rfl
  · have hrest : Heads (fun a => (∀ f : Flags, f.add a = none) ∧ a ≠ '%')
        (precisionText spec.precision ++ (modifierText spec.modifier ++ ch :: rest)) := by
      refine hprec.mono fun a ha => ?_
      rcases ha with rfl | ha
      · exact ⟨fun f => (add_none (.inr (.inr rfl)) f).1, by decide⟩
      · obtain ⟨-, -, -, hne, hadd⟩ := letters_spec a ha
        exact ⟨hadd, hne⟩
    cases hw : spec.width with
    | star =>
      intro a ha
      obtain rfl : '*' = a := Option.some.inj ha
      exact ⟨fun f => (add_none (.inr (.inl rfl)) f).1, by decide⟩
    | digits s =>
      obtain ⟨hdig, h0⟩ := hv.width s hw
      cases s with
      | nil => exact hrest
      | cons a s =>
        intro a' ha
        obtain rfl : a = a' := Option.some.inj ha
        have hd : isdigit a = true ∧ a ≠ '0' :=
          ⟨hdig a (List.mem_cons_self ..), fun h => h0 (by rw [h]; rfl)⟩
        exact ⟨fun f => (add_none (.inl hd) f).1, (add_none (.inl hd) .none).2⟩

/-- **`parse_conversion`** reads a specification as it is meant. -/
theorem parseConversion_text (hv : spec.Valid) (hch : ch ∈ convChars)
    (hw : (spec.width.value args).natAbs < 2 ^ 31) :
    parseConversion (spec.text ++ ch :: rest) args =
      (spec.conversion args, ch :: rest, spec.rest args) := by
  obtain ⟨hender, hheads⟩ := spec_heads hv hch rest
  have hflags : parseFlags .none (spec.text ++ ch :: rest) =
      (spec.flags.foldl Flags.with .none,
        spec.width.text ++ (precisionText spec.precision ++ (modifierText spec.modifier ++ ch :: rest))) := by
    rw [Spec.text, List.append_assoc, parseFlags_map, List.append_assoc, List.append_assoc,
      parseFlags_stop (hheads.mono fun a ha => ha.1 _)]
  have hnum := parseNumber_text spec.width (fun s hs => (hv.width s hs).1) hender args
  have hend : Ender (modifierText spec.modifier ++ ch :: rest) ∧
      (modifierText spec.modifier ++ ch :: rest).head? ≠ some '.' := by
    have h := heads_modifier (t := spec.modifier) hch rest
    exact ⟨⟨fun a ha => (letters_spec a (h a ha)).1, h.ne fun h => (letters_spec _ h).2.1 rfl⟩,
      h.ne fun h => (letters_spec _ h).2.2.1 rfl⟩
  have hprec := parsePrecision_text hv.precision hend.1 hend.2 (spec.width.rest args)
  have htype := parseType_text (t := spec.modifier) hch rest
  have hasInt : asInt (spec.width.value args) = spec.width.value args :=
    asInt_of_range (by omega) (by omega)
  unfold parseConversion
  rw [hflags]
  dsimp only
  rw [hnum]
  dsimp only
  rw [hprec]
  dsimp only
  rw [htype, hasInt, foldl_with]
  dsimp only
  have hwidth : (if spec.width.value args < 0 then asInt (-spec.width.value args)
      else spec.width.value args) = (spec.width.value args).natAbs := by
    by_cases hneg : spec.width.value args < 0
    · rw [if_pos hneg, asInt_of_range (by omega) (by omega)]
      omega
    · rw [if_neg hneg]
      omega
  rw [hwidth]
  unfold Spec.conversion Spec.rest Flags.normalize
  congr 2
  by_cases hneg : spec.width.value args < 0 <;>
    by_cases hp : 0 ≤ precisionValue (spec.width.rest args) spec.precision
  · simp [hneg, hp, Int.not_lt.mpr hp, Flags.none]
  · simp [hneg, hp, Int.not_le.mp hp, Flags.none]
  · simp [hneg, hp, Int.not_lt.mpr hp, Flags.none]
  · simp [hneg, hp, Int.not_le.mp hp, Flags.none]

/-- The format that consists of one specification and its conversion character. -/
def Spec.string (spec : Spec) (ch : Char) : List Char := '%' :: (spec.text ++ [ch])

/-- What a conversion prints. -/
theorem vprintf_format (mem : Memory) {k : Conv} (hv : spec.Valid) (hk : convOf ch = some k)
    (hw : (spec.width.value args).natAbs < 2 ^ 31) :
    vprintf mem (spec.string ch) args = (convert mem (spec.conversion args) (spec.rest args) k).1 := by
  have hch := mem_convChars hk
  have hparse : parseConversion (spec.text ++ [ch]) args = (spec.conversion args, [ch], spec.rest args) :=
    parseConversion_text hv hch hw
  have hhead : (spec.text ++ [ch]).head? ≠ some '%' := by
    have hheads : Heads (· ≠ '%') (spec.text ++ [ch]) := by
      rw [Spec.text, List.append_assoc]
      refine .append (fun a ha => ?_) ?_
      · obtain ⟨flag, -, rfl⟩ := List.mem_map.mp ha
        cases flag <;> decide
      · rw [List.append_assoc, List.append_assoc]
        exact (spec_heads hv hch []).2.mono fun a ha => ha.2
    exact hheads.ne fun h => h rfl
  have hfuel : ∃ n, (spec.string ch).length + 32 = n + 1 + 1 := ⟨(spec.string ch).length + 30, rfl⟩
  obtain ⟨n, hn⟩ := hfuel
  rw [vprintf, hn, Spec.string, loop_conversion hhead hparse]
  show ((convertRound mem _ ch _ _).bind _) = _
  rw [convertRound, hk]
  dsimp only
  cases (convert mem (spec.conversion args) (spec.rest args) k).1 with
  | error e => rfl
  | ok out =>
    show Except.ok (out ++ []) = _
    rw [List.append_nil]

end

end Pintos.Lib.Stdio
