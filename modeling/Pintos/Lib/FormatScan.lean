import Pintos.Base.Prog
import Pintos.Lib.FormatInteger

/-!
# Where the format ends

`__vprintf` reads past the terminator exactly when the format ends inside a conversion
specification: the cut specification is reported like an unsupported one, and the `format++` of the
loop then steps over the terminator.
-/

namespace Pintos.Lib.Stdio

open Pintos.Base

/-! ## Specifications -/

def isFlag (ch : Char) : Bool :=
  ch == '-' || ch == '+' || ch == ' ' || ch == '#' || ch == '0' || ch == '\''

/-- The format behind a number or a `*`. -/
def skipNumber (format : List Char) : List Char :=
  match format with
  | '*' :: format => format
  | _ => format.dropWhile isdigit

def skipPrecision (format : List Char) : List Char :=
  match format with
  | '.' :: format => skipNumber format
  | _ => format

/-- The format behind a length modifier. -/
def skipModifier (format : List Char) : List Char :=
  match format with
  | [] => []
  | ch :: format =>
    if (ch = 'h' ∨ ch = 'l') ∧ format.head? = some ch then format.tail
    else if ch ∈ ['h', 'j', 'l', 't', 'z'] then format
    else ch :: format

/-- The format from the conversion character on, for the format behind a `%`. -/
def skipSpec (format : List Char) : List Char :=
  skipModifier (skipPrecision (skipNumber (format.dropWhile isFlag)))

/-- No conversion specification is cut off by the end of the format. -/
inductive Complete : List Char → Prop where
  | nil : Complete []
  | literal {ch : Char} {format : List Char} (h : ch ≠ '%') (hf : Complete format) :
      Complete (ch :: format)
  | percent {format : List Char} (hf : Complete format) : Complete ('%' :: '%' :: format)
  | conversion {ch : Char} {format rest : List Char} (h : format.head? ≠ some '%')
      (hs : skipSpec format = ch :: rest) (hf : Complete rest) : Complete ('%' :: format)

variable {mem : Memory} {n : Nat} {format rest : List Char} {args : VaList}

theorem parseFlags_rest (f : Flags) (format : List Char) :
    (parseFlags f format).2 = format.dropWhile isFlag := by
  induction format generalizing f with
  | nil => rfl
  | cons ch format ih =>
    have hflag : (f.add ch).isSome = isFlag ch := by
      unfold Flags.add isFlag
      repeat' split
      all_goals simp_all
    rw [parseFlags]
    cases hf : f.add ch with
    | some f' =>
      rw [hf] at hflag
      rw [List.dropWhile_cons_of_pos hflag.symm]
      exact ih f'
    | none =>
      rw [hf] at hflag
      rw [List.dropWhile_cons_of_neg (by rw [← hflag]; decide)]

theorem parseDigits_rest (k : Int) (format : List Char) :
    (parseDigits k format).2 = format.dropWhile isdigit := by
  induction format generalizing k with
  | nil => rfl
  | cons ch format ih =>
    rw [parseDigits]
    by_cases hd : isdigit ch = true
    · rw [if_pos hd, List.dropWhile_cons_of_pos hd, ih]
    · rw [if_neg hd, List.dropWhile_cons_of_neg hd]

theorem parseNumber_rest (format : List Char) (args : VaList) :
    (parseNumber format args).2.1 = skipNumber format := by
  by_cases h : ∃ tail, format = '*' :: tail
  · obtain ⟨tail, rfl⟩ := h
    rfl
  · have hskip : skipNumber format = format.dropWhile isdigit := by
      unfold skipNumber
      split
      · exact absurd ⟨_, rfl⟩ h
      · rfl
    rw [hskip, ← parseDigits_rest 0]
    unfold parseNumber
    split
    · exact absurd ⟨_, rfl⟩ h
    · rfl

theorem parsePrecision_rest (format : List Char) (args : VaList) :
    (parsePrecision format args).2.1 = skipPrecision format := by
  by_cases h : ∃ tail, format = '.' :: tail
  · obtain ⟨tail, rfl⟩ := h
    exact parseNumber_rest tail args
  · have hskip : skipPrecision format = format := by
      unfold skipPrecision
      split
      · exact absurd ⟨_, rfl⟩ h
      · rfl
    rw [hskip]
    unfold parsePrecision
    split
    · exact absurd ⟨_, rfl⟩ h
    · rfl

/-- A modifier of one letter that could have been doubled. -/
theorem skipModifier_single {ch : Char} (hch : ch ∈ ['h', 'j', 'l', 't', 'z'])
    (h : ∀ rest, format = ch :: rest → False) : skipModifier (ch :: format) = format := by
  have hhead : format.head? ≠ some ch := by
    cases format with
    | nil => exact fun he => by cases he
    | cons a rest =>
      intro he
      obtain rfl : a = ch := Option.some.inj he
      exact h rest rfl
  rw [skipModifier, if_neg fun hc => hhead hc.2, if_pos hch]

theorem parseType_rest (format : List Char) : (parseType format).2 = skipModifier format := by
  unfold parseType
  split
  · rfl
  · next h => exact (skipModifier_single (by decide) h).symm
  · rfl
  · rfl
  · next h => exact (skipModifier_single (by decide) h).symm
  · rfl
  · rfl
  · next h1 h2 h3 h4 h5 h6 h7 =>
    cases format with
    | nil => rfl
    | cons ch format =>
      have hch : ch ∉ ['h', 'j', 'l', 't', 'z'] := by
        intro hmem
        simp only [List.mem_cons, List.not_mem_nil, or_false] at hmem
        rcases hmem with rfl | rfl | rfl | rfl | rfl
        · exact h2 _ rfl
        · exact h3 _ rfl
        · exact h5 _ rfl
        · exact h6 _ rfl
        · exact h7 _ rfl
      have hne : ¬ (ch = 'h' ∨ ch = 'l') := by
        rintro (rfl | rfl)
        · exact hch (by decide)
        · exact hch (by decide)
      rw [skipModifier, if_neg fun hc => hne hc.1, if_neg hch]

/-- What `parse_conversion` goes past. -/
theorem parseConversion_rest (format : List Char) (args : VaList) :
    (parseConversion format args).2.1 = skipSpec format := by
  show (parseType (parsePrecision (parseNumber (parseFlags .none format).2 args).2.1 _).2.1).2 = _
  rw [parseType_rest, parsePrecision_rest, parseNumber_rest, parseFlags_rest]
  rfl

theorem skipNumber_le (format : List Char) : (skipNumber format).length ≤ format.length := by
  unfold skipNumber
  split
  · rw [List.length_cons]
    omega
  · exact (List.dropWhile_sublist _).length_le

theorem skipPrecision_le (format : List Char) : (skipPrecision format).length ≤ format.length := by
  unfold skipPrecision
  split
  · exact (skipNumber_le _).trans (Nat.le_succ _)
  · exact Nat.le_refl _

theorem skipModifier_le (format : List Char) : (skipModifier format).length ≤ format.length := by
  unfold skipModifier
  split
  · exact Nat.le_refl _
  · split
    · rw [List.length_tail, List.length_cons]
      omega
    · split
      · exact Nat.le_succ _
      · exact Nat.le_refl _

theorem skipSpec_le (format : List Char) : (skipSpec format).length ≤ format.length :=
  (skipModifier_le _).trans ((skipPrecision_le _).trans ((skipNumber_le _).trans
    (List.dropWhile_sublist _).length_le))

/-! ## Rounds -/

theorem convOf_base {ch : Char} {b : IntegerBase} (h : convOf ch = some (.unsigned b)) : IsBase b := by
  unfold convOf at h
  repeat' split at h
  all_goals
    first
    | cases h; done
    | cases h; simp [IsBase]

theorem convert_ok {ch : Char} {k : Conv} (h : convOf ch = some k) (mem : Memory) (c : Conversion)
    (args : VaList) : ∃ out, (convert mem c args k).1 = .ok out := by
  cases k with
  | signed => exact ⟨_, formatInteger_eq (.inl rfl) ..⟩
  | unsigned b => exact ⟨_, formatInteger_eq (convOf_base h) ..⟩
  | char => exact ⟨_, rfl⟩
  | string => exact ⟨_, rfl⟩
  | pointer => exact ⟨_, formatInteger_eq (.inr (.inr (.inl rfl))) ..⟩

/-- The messages are printed whole. -/
theorem message_ok (mem : Memory) (k : Nat) (ch : Char) (args : VaList) :
    ∃ out, vprintfLoop mem (k + 22) (noConversion ch) args = .ok out := by
  unfold noConversion
  split
  · exact ⟨_, rfl⟩
  · exact ⟨_, rfl⟩

theorem round_ok (mem : Memory) (k : Nat) (ch : Char) (c : Conversion) (args : VaList) :
    ∃ p, convertRound mem (vprintfLoop mem (k + 22)) ch c args = .ok p := by
  unfold convertRound
  cases hk : convOf ch with
  | some k =>
    obtain ⟨out, hout⟩ := convert_ok hk mem c args
    exact ⟨_, by simp only [hout]; rfl⟩
  | none =>
    obtain ⟨out, hout⟩ := message_ok mem k ch fun _ => BitVec.ofNat 32 ch.toNat
    exact ⟨_, by simp only [hout]; rfl⟩

/-- A format with the outcome of the loop over it. -/
def Ends (mem : Memory) (n : Nat) (format : List Char) (args : VaList) : Prop :=
  Complete format ∧ (∃ out, vprintfLoop mem n format args = .ok out) ∨
    ¬ Complete format ∧ vprintfLoop mem n format args = .error .pastTerminator

/-- A round that outputs something and goes on with the rest. -/
theorem Ends.round {f : List Char → List Char} {whole : List Char} {args' : VaList}
    (h : Ends mem n rest args') (hc : Complete whole ↔ Complete rest)
    (hr : vprintfLoop mem (n + 1) whole args =
      (vprintfLoop mem n rest args').bind fun out => .ok (f out)) :
    Ends mem (n + 1) whole args := by
  unfold Ends
  rw [hc, hr]
  rcases h with ⟨hrest, out, hout⟩ | ⟨hrest, herr⟩
  · exact .inl ⟨hrest, f out, by rw [hout]; rfl⟩
  · exact .inr ⟨hrest, by rw [herr]; rfl⟩

theorem complete_literal {ch : Char} (h : ch ≠ '%') : Complete (ch :: format) ↔ Complete format := by
  refine ⟨fun hc => ?_, .literal h⟩
  cases hc with
  | literal _ hf => exact hf
  | percent => exact absurd rfl h
  | conversion => exact absurd rfl h

theorem complete_percent : Complete ('%' :: '%' :: format) ↔ Complete format := by
  refine ⟨fun hc => ?_, .percent⟩
  cases hc with
  | literal h => exact absurd rfl h
  | percent hf => exact hf
  | conversion h => exact absurd rfl h

theorem complete_conversion (h : format.head? ≠ some '%') :
    Complete ('%' :: format) ↔ ∃ ch rest, skipSpec format = ch :: rest ∧ Complete rest := by
  constructor
  · intro hc
    cases hc with
    | literal h => exact absurd rfl h
    | percent => exact absurd rfl h
    | conversion _ hs hf => exact ⟨_, _, hs, hf⟩
  · rintro ⟨ch, rest, hs, hf⟩
    exact .conversion h hs hf

/-- **The loop** ends at the terminator, or steps over it. -/
theorem loop_ends (mem : Memory) (args : VaList) (hn : format.length + 22 < n) :
    Ends mem n format args := by
  induction n generalizing format args with
  | zero => omega
  | succ n ih =>
    match format with
    | [] => exact .inl ⟨.nil, [], rfl⟩
    | ch :: format =>
      rw [List.length_cons] at hn
      by_cases hch : ch = '%'
      · subst hch
        by_cases hhead : format.head? = some '%'
        · obtain ⟨tail, rfl⟩ : ∃ tail, format = '%' :: tail := List.head?_eq_some_iff.mp hhead
          rw [List.length_cons] at hn
          exact (ih _ (by omega)).round complete_percent loop_percent
        · have hle := skipSpec_le format
          have hrest := parseConversion_rest format args
          obtain ⟨k, rfl⟩ : ∃ k, n = k + 22 := ⟨n - 22, by omega⟩
          cases hp : parseConversion format args with
          | mk c p =>
            rw [hp] at hrest
            dsimp only at hrest
            obtain ⟨⟨out, args'⟩, hround⟩ := round_ok mem k (p.1.headD '\x00') c p.2
            have hloop : vprintfLoop mem (k + 22 + 1) ('%' :: format) args =
                (convertRound mem (vprintfLoop mem (k + 22)) (p.1.headD '\x00') c p.2).bind fun q =>
                  (advance p.1).bind fun rest =>
                    (vprintfLoop mem (k + 22) rest q.2).bind fun out => .ok (q.1 ++ out) :=
              loop_conversion hhead hp
            rw [hround, ok_bind, hrest] at hloop
            rw [← hrest] at hle
            cases hs : skipSpec format with
            | nil =>
              -- the specification is cut: the loop steps over the terminator
              refine .inr ⟨fun hc => ?_, by rw [hloop, hs]; rfl⟩
              obtain ⟨ch, rest, hcons, -⟩ := (complete_conversion hhead).mp hc
              rw [hs] at hcons
              cases hcons
            | cons ch rest =>
              rw [hs] at hloop
              rw [hrest, hs, List.length_cons] at hle
              have hnext : vprintfLoop mem (k + 22 + 1) ('%' :: format) args =
                  (vprintfLoop mem (k + 22) rest args').bind fun r => .ok (out ++ r) := hloop
              refine (ih _ (by omega)).round ?_ hnext
              rw [complete_conversion hhead, hs]
              constructor
              · rintro ⟨_, _, he, hc⟩
                obtain ⟨-, rfl⟩ := List.cons.inj he
                exact hc
              · exact fun hc => ⟨ch, rest, rfl, hc⟩
      · exact (ih _ (by omega)).round (complete_literal hch) (loop_literal hch)

/-- **`__vprintf`** returns, and reads no character behind the terminator, exactly when no conversion
specification is cut off by the end of the format. -/
theorem vprintf_returns_iff (mem : Memory) (format : List Char) (args : VaList) :
    (∃ out, vprintf mem format args = .ok out) ↔ Complete format := by
  rcases loop_ends mem args (show format.length + 22 < format.length + 32 by omega) with
    ⟨hc, hok⟩ | ⟨hc, herr⟩
  · exact ⟨fun _ => hc, fun _ => hok⟩
  · refine ⟨fun h => ?_, fun h => absurd h hc⟩
    obtain ⟨out, hout⟩ := h
    rw [vprintf, herr] at hout
    cases hout

/-- A percent sign at the end. -/
theorem percent_at_end :
    ¬ ∀ (mem : Memory) (format : List Char) (args : VaList), ∃ out, vprintf mem format args = .ok out := by
  intro h
  obtain ⟨out, hout⟩ := h (fun _ => '\x00') "100%".toList fun _ => 0
  have hrun : vprintf (fun _ => '\x00') "100%".toList (fun _ => 0) = .error .pastTerminator := by decide
  rw [hrun] at hout
  cases hout

end Pintos.Lib.Stdio
