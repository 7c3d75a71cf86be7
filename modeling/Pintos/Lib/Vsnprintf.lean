import Pintos.Base.Prog
import Pintos.Lib.FormatScan

/-!
# Output through a callback (lib/stdio.c)

The functions of `Pintos.Lib.Stdio` again, as they pass their characters to `output` one by one, with
the auxiliary data as a state. What they output is the list that the functions there return, so
`vsnprintf` is its helper applied to that list. The buffer has `buf_size` characters, and a store
behind it stops the program.
-/

namespace Pintos.Lib.Stdio

open Pintos.Base

/-- `output`, which changes its auxiliary data. -/
abbrev Output (σ : Type) : Type := Char → Prog σ Stop Unit

section

variable {σ : Type} (mem : Memory) (output : Output σ)

/-- The characters of a buffer, as in `while (cp > buf) output (*--cp, aux);`. -/
def emit : List Char → Prog σ Stop Unit
  | [] => pure ()
  | ch :: buf => do
    output ch
    emit buf

def outputDup (ch : Char) : (cnt : Nat) → Prog σ Stop Unit
  | 0 => pure ()
  | cnt + 1 => do
    output ch
    outputDup ch cnt

/-- `output_dup` behind an `if`. -/
def pad (p : Bool) (ch : Char) (cnt : Nat) : Prog σ Stop Unit :=
  if p then outputDup output ch cnt else pure ()

/-- `if (sign) output (sign, aux);` -/
def outputSign : (sign : Option Char) → Prog σ Stop Unit
  | none => pure ()
  | some sign => output sign

/-- `if (x)` with the output of `0x` or `0X`. -/
def outputPrefix : (x : Option Char) → Prog σ Stop Unit
  | none => pure ()
  | some x => do
    output '0'
    output x

/-- The padding and the output of `format_integer`. -/
def outputIntegerTo (sign x : Option Char) (c : Conversion) (buf : Buf) : Prog σ Stop Unit := do
  let padCnt := (asInt (c.width - buf.length - (prefixOf x).length - sign.toList.length)).toNat
  pad output (!c.flags.minus && !c.flags.zero) ' ' padCnt
  outputSign output sign
  outputPrefix output x
  pad output c.flags.zero '0' padCnt
  emit output buf
  pad output c.flags.minus ' ' padCnt

/-- `format_integer` -/
def formatIntegerTo (value : BitVec 64) (isSigned negative : Bool) (b : IntegerBase) (c : Conversion) :
    Prog σ Stop Unit := do
  let sign := signOf isSigned negative c.flags
  let x := if c.flags.pound && value != 0 then b.x else none
  let buf ← digitLoop b c.flags.group 64 value.toNat 0 []
  let buf ← zeroLoop (if c.precision < 0 then 1 else c.precision) 64 buf
  let buf ← octalZero b c buf
  outputIntegerTo output sign x c buf

/-- `for (i = 0; i < length; i++) output (string[i], aux);` with `cnt` characters to go. -/
def outputString (string : Nat → Char) : (cnt : Nat) → (i : Nat) → Prog σ Stop Unit
  | 0, _ => pure ()
  | cnt + 1, i => do
    output (string i)
    outputString string cnt (i + 1)

/-- `format_string` -/
def formatStringTo (string : Nat → Char) (length : Int) (c : Conversion) : Prog σ Stop Unit := do
  pad output (length < c.width && !c.flags.minus) ' ' ((c.width - length) % 2 ^ 32).toNat
  outputString output string length.toNat 0
  pad output (length < c.width && c.flags.minus) ' ' ((c.width - length) % 2 ^ 32).toNat

/-- The supported conversions, with the arguments left. -/
def convertTo (c : Conversion) (args : VaList) : Conv → Prog σ Stop VaList
  | .signed => do
    let (value, args) := signedArg c.type args
    let negative := decide (value.toInt < 0)
    formatIntegerTo output (if negative then -value else value) true negative baseD c
    pure args
  | .unsigned b => do
    let (value, args) := unsignedArg c.type args
    formatIntegerTo output value false false b c
    pure args
  | .char => do
    let (w, args) := vaArg args
    formatStringTo output (fun _ => Char.ofNat (w.toNat % 256)) 1 c
    pure args
  | .string => do
    let (s, args) := vaArg args
    let string := stringArg mem s
    formatStringTo output string (asInt (strnlen string (c.precision % 2 ^ 32).toNat)) c
    pure args
  | .pointer => do
    let (p, args) := vaArg args
    formatIntegerTo output (p.setWidth 64) false false baseX
      { c with flags := { Flags.none with pound := true } }
    pure args

/-- The `switch`, with `nested` for the call of `__printf`. -/
def convertRoundTo (nested : List Char → VaList → Prog σ Stop Unit) (ch : Char) (c : Conversion)
    (args : VaList) : Prog σ Stop VaList :=
  match convOf ch with
  | some k => convertTo mem output c args k
  | none => do
    nested (noConversion ch) fun _ => BitVec.ofNat 32 ch.toNat
    pure args

/-- The loop of `__vprintf`, at most `n` times. -/
def vprintfLoopTo : (n : Nat) → List Char → VaList → Prog σ Stop Unit
  | 0, _, _ => throw .diverges
  | _ + 1, [], _ => pure ()
  | n + 1, ch :: format, args =>
    if ch ≠ '%' then do
      output ch
      vprintfLoopTo n format args
    else if format.head? = some '%' then do
      output '%'
      vprintfLoopTo n format.tail args
    else do
      let (c, format, args) := parseConversion format args
      let args ← convertRoundTo mem output (vprintfLoopTo n) (format.headD '\x00') c args
      let format ← advance format
      vprintfLoopTo n format args

/-- `__vprintf` with its callback. -/
def vprintfTo (format : List Char) (args : VaList) : Prog σ Stop Unit :=
  vprintfLoopTo mem output (format.length + 32) format args

end

section

variable {σ : Type} {mem : Memory} {output : Output σ} {args : VaList} {c : Conversion}

theorem emit_append (l l' : List Char) :
    emit output (l ++ l') = (emit output l >>= fun _ => emit output l') := by
  induction l with
  | nil => rfl
  | cons ch l ih => rw [List.cons_append, emit, ih, emit, bind_assoc]

theorem emit_singleton (ch : Char) : emit output [ch] = output ch := by
  show (output ch >>= fun _ => pure ()) = output ch
  exact bind_pure (output ch)

theorem outputDup_eq (ch : Char) (cnt : Nat) :
    outputDup output ch cnt = emit output (List.replicate cnt ch) := by
  induction cnt with
  | zero => rfl
  | succ cnt ih => rw [outputDup, ih, List.replicate_succ, emit]

theorem outputString_eq (string : Nat → Char) (cnt i : Nat) :
    outputString output string cnt i = emit output ((List.range' i cnt).map string) := by
  induction cnt generalizing i with
  | zero => rfl
  | succ cnt ih => rw [outputString, ih, List.range'_succ, List.map_cons, emit]

theorem pad_eq (p : Bool) (ch : Char) (cnt : Nat) :
    pad output p ch cnt = emit output (if p then List.replicate cnt ch else []) := by
  cases p with
  | false => rfl
  | true => exact outputDup_eq ch cnt

theorem outputSign_eq (sign : Option Char) : outputSign output sign = emit output sign.toList := by
  cases sign with
  | none => rfl
  | some sign => exact (emit_singleton sign).symm

theorem outputPrefix_eq (x : Option Char) : outputPrefix output x = emit output (prefixOf x) := by
  cases x with
  | none => rfl
  | some x =>
    show _ = (output '0' >>= fun _ => emit output [x])
    rw [emit_singleton]
    rfl

theorem outputIntegerTo_eq (sign x : Option Char) (c : Conversion) (buf : Buf) :
    outputIntegerTo output sign x c buf = emit output (outputInteger sign x c buf) := by
  unfold outputIntegerTo outputInteger
  simp only [pad_eq, outputSign_eq, outputPrefix_eq, emit_append, bind_assoc]

/-- A part of an `Except` block that returns. -/
theorem except_bind_ok {α β : Type} {m : Except Stop α} {f : α → Except Stop β} {b : β}
    (h : m >>= f = .ok b) : ∃ a, m = .ok a ∧ f a = .ok b := by
  cases m with
  | error e => cases h
  | ok a => exact ⟨a, rfl, h⟩

/-- A part that returns and outputs nothing. -/
theorem lift_bind {α β : Type} {m : Except Stop α} {a : α} (h : m = .ok a) (f : α → Prog σ Stop β) :
    ((m : Prog σ Stop α) >>= f) = f a := by
  rw [h]
  rfl

theorem formatIntegerTo_eq {value : BitVec 64} {isSigned negative : Bool} {b : IntegerBase} {o : List Char}
    (h : formatInteger value isSigned negative b c = .ok o) :
    formatIntegerTo output value isSigned negative b c = emit output o := by
  obtain ⟨buf₁, hdigits, h⟩ := except_bind_ok h
  obtain ⟨buf₂, hzeros, h⟩ := except_bind_ok h
  obtain ⟨buf, hoctal, h⟩ := except_bind_ok h
  obtain rfl := Except.ok.inj h
  unfold formatIntegerTo
  dsimp only
  rw [lift_bind hdigits, lift_bind hzeros, lift_bind hoctal, outputIntegerTo_eq]

theorem formatStringTo_eq (string : Nat → Char) (length : Int) (c : Conversion) :
    formatStringTo output string length c = emit output (formatString string length c) := by
  have hpad : ∀ p : Bool, (if (decide (length < c.width) && p) = true then
      List.replicate ((c.width - length) % 2 ^ 32).toNat ' ' else []) = if p then stringPad length c else [] := by
    intro p
    unfold stringPad
    cases p <;> simp
  unfold formatStringTo formatString
  rw [pad_eq, pad_eq, hpad, hpad, outputString_eq, ← List.range_eq_range', List.append_assoc, emit_append,
    emit_append]
  cases c.flags.minus <;> rfl

/-- A conversion outputs what `convert` says. -/
theorem convertTo_eq {k : Conv} {o : List Char} (h : (convert mem c args k).1 = .ok o) :
    convertTo mem output c args k = (emit output o >>= fun _ => pure (convert mem c args k).2) := by
  have hrun : ∀ m : Prog σ Stop Unit, m = emit output o →
      (m >>= fun _ => pure (convert mem c args k).2) = (emit output o >>= fun _ => pure (convert mem c args k).2) :=
    fun m hm => by rw [hm]
  cases k with
  | signed => exact hrun _ (formatIntegerTo_eq h)
  | unsigned b => exact hrun _ (formatIntegerTo_eq h)
  | char =>
    obtain rfl := Except.ok.inj h
    exact hrun _ (formatStringTo_eq _ _ c)
  | string =>
    obtain rfl := Except.ok.inj h
    exact hrun _ (formatStringTo_eq _ _ c)
  | pointer => exact hrun _ (formatIntegerTo_eq h)

/-- A round of the loop outputs what `convertRound` says, if the nested call does. -/
theorem convertRoundTo_eq {nested : List Char → VaList → Except Stop (List Char)}
    {nestedTo : List Char → VaList → Prog σ Stop Unit}
    (hn : ∀ format args o, nested format args = .ok o → nestedTo format args = emit output o) {ch : Char}
    {p : List Char × VaList} (h : convertRound mem nested ch c args = .ok p) :
    convertRoundTo mem output nestedTo ch c args = (emit output p.1 >>= fun _ => pure p.2) := by
  unfold convertRound at h
  unfold convertRoundTo
  cases hk : convOf ch with
  | none =>
    rw [hk] at h
    dsimp only at h ⊢
    cases hm : nested (noConversion ch) (fun _ => BitVec.ofNat 32 ch.toNat) with
    | error e =>
      rw [hm] at h
      cases h
    | ok o =>
      rw [hm] at h
      obtain rfl := Except.ok.inj h
      rw [hn _ _ o hm]
  | some k =>
    rw [hk] at h
    dsimp only at h ⊢
    cases hm : (convert mem c args k).1 with
    | error e =>
      rw [hm] at h
      cases h
    | ok o =>
      rw [hm] at h
      obtain rfl := Except.ok.inj h
      exact convertTo_eq hm

/-- **`__vprintf`** passes the characters of its output to the callback, in their order. -/
theorem vprintfLoopTo_eq {n : Nat} {format : List Char} {args : VaList} {o : List Char}
    (h : vprintfLoop mem n format args = .ok o) : vprintfLoopTo mem output n format args = emit output o := by
  induction n generalizing format args o with
  | zero => cases h
  | succ n ih =>
    cases format with
    | nil =>
      obtain rfl := Except.ok.inj h
      rfl
    | cons ch format =>
      rw [vprintfLoop] at h
      rw [vprintfLoopTo]
      by_cases hch : ch ≠ '%'
      · rw [if_pos hch] at h ⊢
        obtain ⟨rest, hrest, h⟩ := except_bind_ok h
        obtain rfl := Except.ok.inj h
        rw [ih hrest, emit]
      · rw [if_neg hch] at h ⊢
        by_cases hhead : format.head? = some '%'
        · rw [if_pos hhead] at h ⊢
          obtain ⟨rest, hrest, h⟩ := except_bind_ok h
          obtain rfl := Except.ok.inj h
          rw [ih hrest, emit]
        · rw [if_neg hhead] at h ⊢
          dsimp only at h ⊢
          obtain ⟨p, hround, h⟩ := except_bind_ok h
          obtain ⟨behind, hnext, h⟩ := except_bind_ok h
          obtain ⟨rest, hrest, h⟩ := except_bind_ok h
          obtain rfl := Except.ok.inj h
          rw [convertRoundTo_eq (fun _ _ _ => ih) hround, bind_assoc, pure_bind, lift_bind hnext, ih hrest,
            emit_append]

end

/-! ## `vsnprintf` -/

/-- `struct vsnprintf_aux`, with the buffer that `p` points into. -/
structure VsnprintfAux (bufSize : Nat) where
  buffer : Vector Char bufSize
  /-- The offset of `p` in the buffer. -/
  p : Nat
  length : Int
  maxLength : Int

/-- `*aux->p = ch` -/
def storeChar {bufSize : Nat} (ch : Char) : Prog (VsnprintfAux bufSize) Stop Unit := do
  let aux ← get
  if h : aux.p < bufSize then set { aux with buffer := aux.buffer.set aux.p ch }
  else throw .overflow

def vsnprintfHelper {bufSize : Nat} : Output (VsnprintfAux bufSize) := fun ch => do
  let aux ← get
  set { aux with length := asInt (aux.length + 1) }
  if aux.length < aux.maxLength then
    storeChar ch
    modify fun aux => { aux with p := aux.p + 1 }

/-- What `vsnprintf` returns, and what it leaves in the buffer. -/
def vsnprintf (mem : Memory) {bufSize : Nat} (buffer : Vector Char bufSize) (format : List Char)
    (args : VaList) : Except Stop (Int × Vector Char bufSize) := do
  let maxLength := if 0 < bufSize then asInt ((bufSize - 1 : Nat) : Int) else 0
  let (_, aux) ← vprintfTo mem vsnprintfHelper format args ⟨buffer, 0, 0, maxLength⟩
  let (_, aux) ← (if 0 < bufSize then storeChar '\x00' else pure () : Prog (VsnprintfAux bufSize) Stop Unit) aux
  pure (aux.length, aux.buffer)

section

variable {n : Nat} {buffer : Vector Char n} {done o : List Char} {aux aux' : VsnprintfAux n} {ch : Char}

/-- The auxiliary data when the characters `done` have been output: those that fit are in the buffer,
and all are counted. -/
structure AuxAt (buffer : Vector Char n) (done : List Char) (aux : VsnprintfAux n) : Prop where
  maxLength : aux.maxLength = (n - 1 : Nat)
  length : aux.length = done.length
  p : aux.p = min done.length (n - 1)
  buffer : aux.buffer.toList = done.take (n - 1) ++ buffer.toList.drop (min done.length (n - 1))

theorem asInt_of_lt {k : Nat} (h : k < 2 ^ 31) : asInt k = k := by
  rw [asInt, Int.bmod_eq_of_le_mul_two] <;> omega

theorem asInt_lt (x : Int) : asInt x < 2 ^ 31 := by
  have := Int.bmod_lt (x := x) (m := 2 ^ 32) (by decide)
  unfold asInt
  omega

theorem storeChar_run (aux : VsnprintfAux n) (ch : Char) (h : aux.p < n) :
    storeChar ch aux = .ok ((), { aux with buffer := aux.buffer.set aux.p ch }) := by
  rw [storeChar, bind_run, get_run, ok_bind, dif_pos h]
  rfl

/-- The character at the end of those that are stored. -/
theorem set_toList (hb : buffer.toList = done ++ o) (h : done.length < n) (ch : Char) :
    (buffer.set done.length ch).toList = done ++ ch :: o.drop 1 := by
  rw [Vector.toList_set, hb, List.set_append_right _ _ (Nat.le_refl _), Nat.sub_self]
  have hlen : (done ++ o).length = n := by rw [← hb, Vector.length_toList]
  cases o with
  | nil => simp at hlen; omega
  | cons a o => rfl

/-- The helper stores a character while there is room, and counts it. -/
theorem AuxAt.step (h : AuxAt buffer done aux) (hlt : done.length + 1 < 2 ^ 31) (ch : Char) :
    ∃ aux', vsnprintfHelper ch aux = .ok ((), aux') ∧ AuxAt buffer (done ++ [ch]) aux' := by
  have hcount : asInt (aux.length + 1) = (done ++ [ch]).length := by
    rw [h.length, List.length_append, List.length_singleton]
    exact asInt_of_lt (k := done.length + 1) hlt
  by_cases hroom : done.length < n - 1
  · have hp : aux.p = done.length := by rw [h.p, Nat.min_eq_left (Nat.le_of_lt hroom)]
    have hbuf : aux.buffer.toList = done ++ buffer.toList.drop done.length := by
      rw [h.buffer, List.take_of_length_le (Nat.le_of_lt hroom), Nat.min_eq_left (Nat.le_of_lt hroom)]
    have hset : aux.p < n := by omega
    refine ⟨{ aux with buffer := aux.buffer.set aux.p ch, p := aux.p + 1, length := asInt (aux.length + 1) },
      ?_, h.maxLength, hcount, ?_, ?_⟩
    · have htest : aux.length < aux.maxLength := by
        rw [h.length, h.maxLength]
        exact Int.ofNat_lt.mpr hroom
      have hstore : storeChar ch { aux with length := asInt (aux.length + 1) } = .ok ((), _) :=
        storeChar_run { aux with length := asInt (aux.length + 1) } ch hset
      unfold vsnprintfHelper
      rw [bind_run, get_run, ok_bind, bind_run, set_run, ok_bind, if_pos htest, bind_run]
      dsimp only
      rw [hstore]
      rfl
    · simp only [hp, List.length_append, List.length_singleton]
      omega
    · have hlen : (done ++ [ch]).length = done.length + 1 := List.length_append
      simp only [hp]
      rw [set_toList hbuf (by omega), List.drop_drop, hlen, Nat.min_eq_left (by omega),
        List.take_of_length_le (by omega), List.append_assoc]
      rfl
  · refine ⟨{ aux with length := asInt (aux.length + 1) }, ?_, h.maxLength, hcount, ?_, ?_⟩
    · have htest : ¬ aux.length < aux.maxLength := by
        rw [h.length, h.maxLength]
        exact fun hc => hroom (Int.ofNat_lt.mp hc)
      unfold vsnprintfHelper
      rw [bind_run, get_run, ok_bind, bind_run, set_run, ok_bind, if_neg htest]
      rfl
    · rw [h.p, List.length_append]
      omega
    · rw [h.buffer, List.length_append, List.take_append_of_le_length (by omega),
        Nat.min_eq_right (by omega), Nat.min_eq_right (by omega)]

theorem AuxAt.emit (h : AuxAt buffer done aux) (hlt : (done ++ o).length < 2 ^ 31) :
    ∃ aux', Stdio.emit vsnprintfHelper o aux = .ok ((), aux') ∧ AuxAt buffer (done ++ o) aux' := by
  induction o generalizing done aux with
  | nil => exact ⟨aux, rfl, by rwa [List.append_nil]⟩
  | cons ch o ih =>
    have hlen : (done ++ ch :: o).length = done.length + 1 + o.length := by
      rw [List.length_append, List.length_cons]
      omega
    obtain ⟨aux₁, hrun, h₁⟩ := h.step (by omega) ch
    obtain ⟨aux', hrun', h'⟩ := ih h₁ (by rw [List.length_append, List.length_append]; simp; omega)
    rw [List.append_assoc] at h'
    exact ⟨aux', by rw [Stdio.emit, bind_run, hrun, ok_bind, hrun'], h'⟩

theorem storeChar_length (h : storeChar ch aux = .ok ((), aux')) : aux'.length = aux.length := by
  by_cases hp : aux.p < n
  · rw [storeChar_run aux ch hp] at h
    obtain rfl := (Prod.mk.inj (Except.ok.inj h)).2
    rfl
  · rw [storeChar, bind_run, get_run, ok_bind, dif_neg hp] at h
    cases h

theorem vsnprintfHelper_length (h : vsnprintfHelper ch aux = .ok ((), aux')) :
    aux'.length = asInt (aux.length + 1) := by
  unfold vsnprintfHelper at h
  rw [bind_run, get_run, ok_bind, bind_run, set_run, ok_bind] at h
  dsimp only at h
  split at h
  · obtain ⟨⟨⟩, aux₁, hstore, hrest⟩ := ok_of_bind h
    obtain rfl := (Prod.mk.inj (Except.ok.inj hrest)).2
    exact storeChar_length hstore
  · obtain rfl := (Prod.mk.inj (Except.ok.inj h)).2
    rfl

/-- The count is an `int`, however much is output. -/
theorem emit_length_lt (h : emit vsnprintfHelper o aux = .ok ((), aux')) (hlt : aux.length < 2 ^ 31) :
    aux'.length < 2 ^ 31 := by
  induction o generalizing aux with
  | nil =>
    obtain rfl := (Prod.mk.inj (Except.ok.inj h)).2
    exact hlt
  | cons ch o ih =>
    obtain ⟨⟨⟩, aux₁, hrun, h'⟩ := ok_of_bind h
    apply ih h'
    rw [vsnprintfHelper_length hrun]
    exact asInt_lt _

/-- The length of the whole output is returned, and as much of it as there is room for is in the
buffer with a null character behind it. No other character is stored, in the buffer or behind it. -/
def Truncates (mem : Memory) (buffer : Vector Char n) (format : List Char) (args : VaList) (o : List Char) :
    Prop :=
  ∃ ret buffer', vsnprintf mem buffer format args = .ok (ret, buffer') ∧ ret = o.length ∧
    (0 < n → buffer'.toList = o.take (n - 1) ++ '\x00' :: buffer.toList.drop (min o.length (n - 1) + 1))

theorem vsnprintf_eq {mem : Memory} {format : List Char} {args : VaList} (h : vprintf mem format args = .ok o) :
    vsnprintf mem buffer format args =
      (emit vsnprintfHelper o ⟨buffer, 0, 0, if 0 < n then asInt ((n - 1 : Nat) : Int) else 0⟩).bind fun r =>
        ((if 0 < n then storeChar '\x00' else pure () : Prog (VsnprintfAux n) Stop Unit) r.2).bind fun r =>
          .ok (r.2.length, r.2.buffer) := by
  unfold vsnprintf vprintfTo
  rw [vprintfLoopTo_eq h]
  rfl

/-- What is returned is an `int`. -/
theorem vsnprintf_ret_lt {mem : Memory} {format : List Char} {args : VaList} {ret : Int}
    {buffer' : Vector Char n} (hv : vprintf mem format args = .ok o)
    (h : vsnprintf mem buffer format args = .ok (ret, buffer')) : ret < 2 ^ 31 := by
  rw [vsnprintf_eq hv] at h
  obtain ⟨⟨⟨⟩, aux⟩, hrun, h⟩ := except_bind_ok h
  obtain ⟨⟨⟨⟩, aux'⟩, hend, h⟩ := except_bind_ok h
  obtain rfl := (Prod.mk.inj (Except.ok.inj h)).1
  have hlen : aux'.length = aux.length := by
    dsimp only at hend
    split at hend
    · exact storeChar_length hend
    · obtain rfl := (Prod.mk.inj (Except.ok.inj hend)).2
      rfl
  show aux'.length < _
  rw [hlen]
  exact emit_length_lt hrun (show (0 : Int) < 2 ^ 31 by decide)

theorem vsnprintf_truncates {mem : Memory} {format : List Char} {args : VaList} (hn : n < 2 ^ 31)
    (hv : vprintf mem format args = .ok o) (ho : o.length < 2 ^ 31) :
    Truncates mem buffer format args o := by
  have hmax : (if 0 < n then asInt ((n - 1 : Nat) : Int) else 0) = (n - 1 : Nat) := by
    split
    · exact asInt_of_lt (by omega)
    · omega
  have hstart : AuxAt buffer [] ⟨buffer, 0, 0, ((n - 1 : Nat) : Int)⟩ :=
    ⟨rfl, rfl, (Nat.zero_min _).symm, by rw [List.take_nil, List.length_nil, Nat.zero_min]; rfl⟩
  obtain ⟨aux, hrun, haux⟩ := hstart.emit ho
  rw [List.nil_append] at haux
  unfold Truncates
  rw [vsnprintf_eq hv, hmax, hrun, ok_bind]
  by_cases hpos : 0 < n
  · have hp : aux.p < n := by
      rw [haux.p]
      omega
    have hlen : (o.take (n - 1)).length = aux.p := by
      rw [haux.p, List.length_take, Nat.min_comm]
    refine ⟨aux.length, aux.buffer.set aux.p '\x00', ?_, haux.length, fun _ => ?_⟩
    · rw [if_pos hpos]
      dsimp only
      rw [storeChar_run aux _ hp]
      rfl
    · have hset := set_toList haux.buffer (by omega) '\x00'
      rw [List.drop_drop] at hset
      simp only [hlen] at hset
      exact hset
  · rw [if_neg hpos]
    exact ⟨aux.length, aux.buffer, rfl, haux.length, fun h => absurd h hpos⟩

/-- The string in a buffer. -/
def cString (buffer : Vector Char n) : List Char := buffer.toList.takeWhile (· ≠ '\x00')

theorem takeWhile_prefix_mono {α : Type} (p : α → Bool) {l l' : List α} (h : l <+: l') :
    l.takeWhile p <+: l'.takeWhile p := by
  obtain ⟨t, rfl⟩ := h
  rw [List.takeWhile_append]
  split
  · exact (List.takeWhile_prefix p).trans (List.prefix_append l _)
  · exact List.prefix_rfl

/-- The string ends at the null character behind the output, if not before. -/
theorem cString_eq {k : Nat} {rest : List Char} (h : buffer.toList = o.take k ++ '\x00' :: rest) :
    cString buffer = (o.take k).takeWhile (· ≠ '\x00') := by
  rw [cString, h, List.takeWhile_append]
  split
  · next hlen =>
    rw [List.takeWhile_cons_of_neg (by decide), List.append_nil]
    exact ((List.takeWhile_prefix _).eq_of_length hlen).symm
  · rfl

end

/-- **`vsnprintf`** truncates the output exactly when its length is less than 2^31, since it counts in an
`int`: a larger count goes round to negative numbers, where the helper takes it for less than
`max_length`. The strings in two buffers are then prefixes of one another. -/
theorem vsnprintf_truncates_iff (mem : Memory) {format : List Char} (args : VaList) (hf : Complete format) :
    ∃ o, vprintf mem format args = .ok o ∧
      (∀ n < 2 ^ 31, ∀ buffer : Vector Char n, Truncates mem buffer format args o ↔ o.length < 2 ^ 31) ∧
      (o.length < 2 ^ 31 → ∀ n n' (buffer₁ buffer₁' : Vector Char n) (buffer₂ buffer₂' : Vector Char n') ret₁ ret₂,
        0 < n → n ≤ n' → n' < 2 ^ 31 → vsnprintf mem buffer₁ format args = .ok (ret₁, buffer₁') →
        vsnprintf mem buffer₂ format args = .ok (ret₂, buffer₂') → cString buffer₁' <+: cString buffer₂') := by
  obtain ⟨o, ho⟩ := (vprintf_returns_iff mem format args).mpr hf
  refine ⟨o, ho, fun n hn buffer => ⟨?_, vsnprintf_truncates hn ho⟩, ?_⟩
  · rintro ⟨ret, buffer', hrun, hret, -⟩
    have := vsnprintf_ret_lt ho hrun
    omega
  · intro hlt n n' buffer₁ buffer₁' buffer₂ buffer₂' ret₁ ret₂ hpos hle hn' hrun₁ hrun₂
    have htr₁ : Truncates mem buffer₁ format args o := vsnprintf_truncates (hle.trans_lt hn') ho hlt
    have htr₂ : Truncates mem buffer₂ format args o := vsnprintf_truncates hn' ho hlt
    obtain ⟨_, _, hrun, -, hb₁⟩ := htr₁
    obtain ⟨-, rfl⟩ := Prod.mk.inj (Except.ok.inj (hrun₁.symm.trans hrun))
    obtain ⟨_, _, hrun', -, hb₂⟩ := htr₂
    obtain ⟨-, rfl⟩ := Prod.mk.inj (Except.ok.inj (hrun₂.symm.trans hrun'))
    rw [cString_eq (hb₁ hpos), cString_eq (hb₂ (hpos.trans_le hle))]
    exact takeWhile_prefix_mono _ (List.take_prefix_take_left (Nat.sub_le_sub_right hle 1))

theorem percent_d_truncates : ∃ o, vprintf (fun _ => '\x00') "%d".toList (fun _ => 1234) = .ok o ∧
    (Truncates (fun _ => '\x00') (Vector.replicate 3 ' ') "%d".toList (fun _ => 1234) o ↔ o.length < 2 ^ 31) := by
  have hf : Complete "%d".toList := .conversion (by decide) rfl .nil
  obtain ⟨o, ho, hiff, -⟩ := vsnprintf_truncates_iff (fun _ => '\x00') (fun _ => 1234) hf
  exact ⟨o, ho, hiff 3 (by decide) _⟩

/-- A string that is shorter than the width is padded to it. -/
theorem formatString_length {string : Nat → Char} {length : Int} {c : Conversion} (h : 0 ≤ length)
    (hlt : length < c.width) (hw : c.width < 2 ^ 31) : (formatString string length c).length = c.width.toNat := by
  have hpad : (stringPad length c).length = (c.width - length).toNat := by
    rw [stringPad, if_pos hlt, List.length_replicate, Int.emod_eq_of_lt (by omega) (by omega)]
  unfold formatString
  rw [List.length_append, List.length_append, List.length_map, List.length_range]
  cases c.flags.minus with
  | false =>
    rw [if_neg Bool.false_ne_true, if_neg Bool.false_ne_true, hpad, List.length_nil]
    omega
  | true =>
    rw [if_pos rfl, if_pos rfl, hpad, List.length_nil]
    omega

/-- A padded character and another one are one character too many. -/
theorem wide_char_overflows :
    ¬ ∀ (mem : Memory) (format : List Char) (args : VaList) (o : List Char) (n : Nat) (buffer : Vector Char n),
      Complete format → vprintf mem format args = .ok o → n < 2 ^ 31 → Truncates mem buffer format args o := by
  intro h
  let c : Conversion := ⟨.none, 2147483647, -1, .int⟩
  let format : List Char := "%2147483647cX".toList
  let args : VaList := fun _ => 65
  have hf : Complete format := .conversion (by decide) rfl (.literal (by decide) .nil)
  have hp : parseConversion format.tail args = (c, "cX".toList, args) :=
    Prod.ext (by decide +kernel) (Prod.ext (by decide +kernel) rfl)
  have hround : convertRound (fun _ => '\x00') (vprintfLoop (fun _ => '\x00') 44) 'c' c args =
      .ok (formatString (fun _ => 'A') 1 c, args) := rfl
  have hrest : vprintfLoop (fun _ => '\x00') 44 ['X'] args = .ok ['X'] := rfl
  have hv : vprintf (fun _ => '\x00') format args = .ok (formatString (fun _ => 'A') 1 c ++ ['X']) := by
    have hloop : vprintfLoop (fun _ => '\x00') 45 format args = _ := loop_conversion (by decide) hp
    rw [show "cX".toList.headD '\x00' = 'c' from rfl, hround, ok_bind, show advance "cX".toList = .ok ['X'] from rfl,
      ok_bind, hrest, ok_bind] at hloop
    exact hloop
  obtain ⟨ret, buffer', hrun, hret, -⟩ := h _ format args _ 8 (Vector.replicate 8 ' ') hf hv (by decide)
  have hlt := vsnprintf_ret_lt hv hrun
  rw [List.length_append, formatString_length (by decide) (by decide) (by decide)] at hret
  rw [hret] at hlt
  exact absurd hlt (by decide)

end Pintos.Lib.Stdio
