import Mathlib.Algebra.Order.Ring.Int
import Mathlib.Tactic.Common

/-!
# Formatted output (lib/stdio.c)

A C string is the list of its characters up to the terminator, so a pointer into the format is the
rest of the list and `[]` is the terminator itself. What is output is the list of characters that
are passed to `output`, in order. Variable arguments are a stream of 32-bit words.
-/

namespace Pintos.Lib.Stdio

/-- Why a call does not return. -/
inductive Stop where
  /-- A character behind the terminator of the format is read. -/
  | pastTerminator
  /-- A store behind the end of `buf`. -/
  | overflow
  | diverges
  deriving DecidableEq, Repr

/-- A value as an `int`. -/
def asInt (x : Int) : Int := x.bmod (2 ^ 32)

def isdigit (c : Char) : Bool := decide ('0' ≤ c) && decide (c ≤ '9')

/-! ## Arguments -/

abbrev VaList := Nat → BitVec 32

/-- `va_arg` of a type of 32 bits. -/
def vaArg (args : VaList) : BitVec 32 × VaList := (args 0, fun i => args (i + 1))

/-- `va_arg` of a type of 64 bits. -/
def vaArg64 (args : VaList) : BitVec 64 × VaList := (args 1 ++ args 0, fun i => args (i + 2))

/-! ## Conversions -/

inductive ArgType where
  | char
  | short
  | int
  | intmax
  | long
  | longlong
  | ptrdifft
  | sizet
  deriving DecidableEq, Repr

structure Flags where
  minus : Bool
  plus : Bool
  space : Bool
  pound : Bool
  zero : Bool
  group : Bool
  deriving DecidableEq, Repr

def Flags.none : Flags := ⟨false, false, false, false, false, false⟩

/-- `struct printf_conversion` -/
structure Conversion where
  flags : Flags
  width : Int
  /-- `-1` where there is none. -/
  precision : Int
  type : ArgType
  deriving DecidableEq, Repr

structure IntegerBase where
  base : Nat
  digits : List Char
  /-- The character `x` to use, if any. -/
  x : Option Char
  group : Nat
  deriving DecidableEq, Repr

def baseD : IntegerBase := ⟨10, "0123456789".toList, none, 3⟩
def baseO : IntegerBase := ⟨8, "01234567".toList, none, 3⟩
def baseX : IntegerBase := ⟨16, "0123456789abcdef".toList, some 'x', 4⟩
def baseUpperX : IntegerBase := ⟨16, "0123456789ABCDEF".toList, some 'X', 4⟩

/-! ## `parse_conversion` -/

/-- The flags with the one that `ch` stands for. -/
def Flags.add (f : Flags) (ch : Char) : Option Flags :=
  if ch = '-' then some { f with minus := true }
  else if ch = '+' then some { f with plus := true }
  else if ch = ' ' then some { f with space := true }
  else if ch = '#' then some { f with pound := true }
  else if ch = '0' then some { f with zero := true }
  else if ch = '\'' then some { f with group := true }
  else Option.none

/-- The loop over the flag characters. -/
def parseFlags (f : Flags) : List Char → Flags × List Char
  | [] => (f, [])
  | ch :: format =>
    match f.add ch with
    | some f' => parseFlags f' format
    | Option.none => (f, ch :: format)

/-- `-` is stronger than `0`, and `+` than a space. -/
def Flags.normalize (f : Flags) : Flags :=
  { f with zero := f.zero && !f.minus, space := f.space && !f.plus }

/-- The loop over the digits of a number. -/
def parseDigits (n : Int) : List Char → Int × List Char
  | [] => (n, [])
  | ch :: format =>
    if isdigit ch then parseDigits (asInt (n * 10 + ch.toNat - 48)) format else (n, ch :: format)

/-- A number in digits, or an argument for `*`. -/
def parseNumber (format : List Char) (args : VaList) : Int × List Char × VaList :=
  match format with
  | '*' :: format => ((vaArg args).1.toInt, format, (vaArg args).2)
  | _ => ((parseDigits 0 format).1, (parseDigits 0 format).2, args)

/-- The precision behind a `.`, or `-1`. -/
def parsePrecision (format : List Char) (args : VaList) : Int × List Char × VaList :=
  match format with
  | '.' :: format =>
    let (precision, format, args) := parseNumber format args
    (if precision < 0 then -1 else precision, format, args)
  | _ => (-1, format, args)

def parseType (format : List Char) : ArgType × List Char :=
  match format with
  | 'h' :: 'h' :: format => (.char, format)
  | 'h' :: format => (.short, format)
  | 'j' :: format => (.intmax, format)
  | 'l' :: 'l' :: format => (.longlong, format)
  | 'l' :: format => (.long, format)
  | 't' :: format => (.ptrdifft, format)
  | 'z' :: format => (.sizet, format)
  | _ => (.int, format)

/-- `parse_conversion`. It goes past no character before it has seen that it is not the
terminator. -/
def parseConversion (format : List Char) (args : VaList) : Conversion × List Char × VaList :=
  let (flags, format) := parseFlags .none format
  let flags := flags.normalize
  let (width, format, args) := parseNumber format args
  -- `-` has been looked for before, so `0` stays
  let flags := if width < 0 then { flags with minus := true } else flags
  let width := if width < 0 then asInt (-width) else width
  let (precision, format, args) := parsePrecision format args
  let flags := if 0 ≤ precision then { flags with zero := false } else flags
  let (type, format) := parseType format
  (⟨flags, width, precision, type⟩, format, args)

/-! ## `format_integer` -/

/-- `buf`, with the character written last at the head. -/
abbrev Buf := List Char

/-- `*cp++ = ch` -/
def Buf.push (buf : Buf) (ch : Char) : Except Stop Buf :=
  if buf.length < 64 then .ok (ch :: buf) else .error .overflow

/-- The loop that accumulates digits, at most `n` of them. -/
def digitLoop (b : IntegerBase) (group : Bool) :
    (n : Nat) → (value digitCnt : Nat) → Buf → Except Stop Buf
  | 0, value, _, buf => if value = 0 then .ok buf else .error .diverges
  | n + 1, value, digitCnt, buf =>
    if value = 0 then .ok buf
    else do
      let buf ← if group && decide (0 < digitCnt) && digitCnt % b.group == 0 then buf.push ','
        else pure buf
      let buf ← buf.push (b.digits.getD (value % b.base) '\x00')
      digitLoop b group n (value / b.base) (digitCnt + 1) buf

/-- The loop that appends zeros, at most `n` of them. -/
def zeroLoop (precision : Int) : (n : Nat) → Buf → Except Stop Buf
  | 0, buf => if (buf.length : Int) < precision ∧ buf.length < 63 then .error .diverges else .ok buf
  | n + 1, buf =>
    if (buf.length : Int) < precision ∧ buf.length < 63 then do
      let buf ← buf.push '0'
      zeroLoop precision n buf
    else .ok buf

/-- The sign character, if any. -/
def signOf (isSigned negative : Bool) (f : Flags) : Option Char :=
  if isSigned then
    if f.plus then some (if negative then '-' else '+')
    else if f.space then some (if negative then '-' else ' ')
    else if negative then some '-'
    else none
  else none

/-- What is output before the digits for `0x` or `0X`. -/
def prefixOf (x : Option Char) : List Char := x.elim [] fun x => ['0', x]

/-- The zero that the `#` flag asks for in base 8. -/
def octalZero (b : IntegerBase) (c : Conversion) (buf : Buf) : Except Stop Buf :=
  if c.flags.pound && b.base == 8 && buf.head? != some '0' then buf.push '0' else .ok buf

/-- The padding and the output of `format_integer`. -/
def outputInteger (sign x : Option Char) (c : Conversion) (buf : Buf) : List Char :=
  let padCnt := (asInt (c.width - buf.length - (prefixOf x).length - sign.toList.length)).toNat
  (if !c.flags.minus && !c.flags.zero then List.replicate padCnt ' ' else []) ++ sign.toList ++
    prefixOf x ++ (if c.flags.zero then List.replicate padCnt '0' else []) ++ buf ++
    (if c.flags.minus then List.replicate padCnt ' ' else [])

def formatInteger (value : BitVec 64) (isSigned negative : Bool) (b : IntegerBase)
    (c : Conversion) : Except Stop (List Char) := do
  let sign := signOf isSigned negative c.flags
  let x := if c.flags.pound && value != 0 then b.x else none
  let buf ← digitLoop b c.flags.group 64 value.toNat 0 []
  let buf ← zeroLoop (if c.precision < 0 then 1 else c.precision) 64 buf
  let buf ← octalZero b c buf
  pure (outputInteger sign x c buf)

/-! ## `format_string` -/

/-- The padding of `format_string`: a negative `length` makes it long. -/
def stringPad (length : Int) (c : Conversion) : List Char :=
  if length < c.width then List.replicate ((c.width - length) % 2 ^ 32).toNat ' ' else []

def formatString (string : Nat → Char) (length : Int) (c : Conversion) : List Char :=
  (if c.flags.minus then [] else stringPad length c) ++ (List.range length.toNat).map string ++
    (if c.flags.minus then stringPad length c else [])

/-- `strnlen` -/
def strnlen (string : Nat → Char) : (maxlen : Nat) → Nat
  | 0 => 0
  | n + 1 => if string 0 = '\x00' then 0 else strnlen (fun i => string (i + 1)) n + 1

/-! ## `__vprintf` -/

/-- The argument of a signed conversion. -/
def signedArg (type : ArgType) (args : VaList) : BitVec 64 × VaList :=
  let (w, rest) := vaArg args
  match type with
  | .char => ((w.setWidth 8).signExtend 64, rest)
  | .short => ((w.setWidth 16).signExtend 64, rest)
  | .int | .long | .ptrdifft => (w.signExtend 64, rest)
  | .intmax | .longlong => vaArg64 args
  | .sizet =>
    let value : BitVec 64 := w.setWidth 64
    (if (2 ^ 32 - 1) / 2 < value.toInt then value - 0xffffffff#64 - 1#64 else value, rest)

/-- The argument of an unsigned conversion. -/
def unsignedArg (type : ArgType) (args : VaList) : BitVec 64 × VaList :=
  let (w, rest) := vaArg args
  match type with
  | .char => ((w.setWidth 8).setWidth 64, rest)
  | .short => ((w.setWidth 16).setWidth 64, rest)
  | .int | .long | .sizet => (w.setWidth 64, rest)
  | .intmax | .longlong => vaArg64 args
  | .ptrdifft => (w.signExtend 64 &&& (0x7fffffff#64 <<< 1 ||| 1#64), rest)

/-- The memory that string arguments point into. -/
abbrev Memory := BitVec 32 → Char

/-- A string argument; a null pointer is the string `(null)`. -/
def stringArg (mem : Memory) (s : BitVec 32) : Nat → Char :=
  if s = 0 then fun i => "(null)".toList.getD i '\x00' else fun i => mem (s + BitVec.ofNat 32 i)

/-- The conversions that are supported. -/
inductive Conv where
  | signed
  | unsigned (b : IntegerBase)
  | char
  | string
  | pointer
  deriving DecidableEq, Repr

/-- The cases of the `switch`. -/
def convOf (ch : Char) : Option Conv :=
  if ch = 'd' ∨ ch = 'i' then some .signed
  else if ch = 'o' then some (.unsigned baseO)
  else if ch = 'u' then some (.unsigned baseD)
  else if ch = 'x' then some (.unsigned baseX)
  else if ch = 'X' then some (.unsigned baseUpperX)
  else if ch = 'c' then some .char
  else if ch = 's' then some .string
  else if ch = 'p' then some .pointer
  else none

/-- What a supported conversion outputs, and the arguments left. -/
def convert (mem : Memory) (c : Conversion) (args : VaList) : Conv → Except Stop (List Char) × VaList
  | .signed =>
    let (value, args) := signedArg c.type args
    let negative := decide (value.toInt < 0)
    (formatInteger (if negative then -value else value) true negative baseD c, args)
  | .unsigned b =>
    let (value, args) := unsignedArg c.type args
    (formatInteger value false false b c, args)
  | .char =>
    let (w, args) := vaArg args
    (pure (formatString (fun _ => Char.ofNat (w.toNat % 256)) 1 c), args)
  | .string =>
    let (s, args) := vaArg args
    let string := stringArg mem s
    let length := strnlen string (c.precision % 2 ^ 32).toNat
    (pure (formatString string (asInt length) c), args)
  | .pointer =>
    let (p, args) := vaArg args
    (formatInteger (p.setWidth 64) false false baseX
      { c with flags := { Flags.none with pound := true } }, args)

/-- The format that `__printf` is called with for a conversion that is not supported. -/
def noConversion (ch : Char) : List Char :=
  if ch = 'f' ∨ ch = 'e' ∨ ch = 'E' ∨ ch = 'g' ∨ ch = 'G' ∨ ch = 'n' then "<<no %%%c in kernel>>".toList
  else "<<no %%%c conversion>>".toList

/-- What a conversion outputs, and the arguments left; `nested` is the call of `__printf`. -/
def convertRound (mem : Memory) (nested : List Char → VaList → Except Stop (List Char)) (ch : Char)
    (c : Conversion) (args : VaList) : Except Stop (List Char × VaList) :=
  match convOf ch with
  | some k => (convert mem c args k).1.map (·, (convert mem c args k).2)
  | none => (nested (noConversion ch) fun _ => BitVec.ofNat 32 ch.toNat).map (·, args)

/-- `format++` in front of the test of the loop. -/
def advance (format : List Char) : Except Stop (List Char) :=
  match format with
  | [] => .error .pastTerminator
  | _ :: format => .ok format

/-- The loop of `__vprintf`, at most `n` times. -/
def vprintfLoop (mem : Memory) : (n : Nat) → List Char → VaList → Except Stop (List Char)
  | 0, _, _ => .error .diverges
  | _ + 1, [], _ => pure []
  | n + 1, ch :: format, args =>
    if ch ≠ '%' then do
      let rest ← vprintfLoop mem n format args
      pure (ch :: rest)
    else if format.head? = some '%' then do
      let rest ← vprintfLoop mem n format.tail args
      pure ('%' :: rest)
    else do
      let (c, format, args) := parseConversion format args
      let (out, args) ← convertRound mem (vprintfLoop mem n) (format.headD '\x00') c args
      let format ← advance format
      let rest ← vprintfLoop mem n format args
      pure (out ++ rest)

/-- `__vprintf`. The rounds allowed are those of the format and of one message. -/
def vprintf (mem : Memory) (format : List Char) (args : VaList) : Except Stop (List Char) :=
  vprintfLoop mem (format.length + 32) format args

/-! ## Rounds of the loop -/

section

variable {mem : Memory} {n : Nat} {ch : Char} {format rest : List Char} {args args' args'' : VaList}
  {c : Conversion}

theorem loop_literal (h : ch ≠ '%') : vprintfLoop mem (n + 1) (ch :: format) args =
    (vprintfLoop mem n format args).bind fun out => .ok (ch :: out) := by
  rw [vprintfLoop, if_pos h]
  rfl

theorem loop_percent : vprintfLoop mem (n + 1) ('%' :: '%' :: format) args =
    (vprintfLoop mem n format args).bind fun out => .ok ('%' :: out) := by
  rw [vprintfLoop, if_neg (by decide), if_pos (show ('%' :: format).head? = some '%' from rfl)]
  rfl

theorem loop_conversion (h : format.head? ≠ some '%')
    (hp : parseConversion format args = (c, rest, args')) :
    vprintfLoop mem (n + 1) ('%' :: format) args =
      (convertRound mem (vprintfLoop mem n) (rest.headD '\x00') c args').bind fun p =>
        (advance rest).bind fun rest => (vprintfLoop mem n rest p.2).bind fun out => .ok (p.1 ++ out) := by
  rw [vprintfLoop, if_neg (by decide), if_neg h, hp]
  rfl

end

end Pintos.Lib.Stdio
