import Pintos.Kernel.Memory

/-!
# The kernel command line (utils/pintos, threads/init.c, threads/loader.h)

The host writes the number of arguments and 128 bytes of text into the boot sector;
the BIOS loads the sector at 0x7c00 and `read_command_line` breaks the text up again.

The writer bounds the bytes of the text, and the reader's array has room for arguments
of at least one character. `command_line_iff` says that this is the only difference.
-/

namespace Pintos.Threads

open Pintos.Kernel

def loaderBase : Nat := 0x7c00

def loaderEnd : Nat := loaderBase + 0x200

def loaderArgsLen : Nat := 128

/-- `LOADER_ARGS`, in front of the signature. -/
def loaderArgs : Nat := loaderEnd - 2 - loaderArgsLen

def loaderArgCnt : Nat := loaderArgs - 4

/-! ## The host -/

/-- The arguments with their terminators, one after the other. -/
def argsText (args : List CString) : List UInt8 := args.flatMap fun a => a.chars ++ [0]

/-- `write_cmd_line` into a copy of the disk; `none` is "command line exceeds 128 bytes". -/
def writeCmdLine (disk : Buffer) (args : List CString) : Option Buffer :=
  if 128 < (argsText args).length then none
  else some (memcpy (store32 disk 0x17a args.length) (0x17a + 4)
    (fun i => (argsText args).getD i 0) 0 128)

/-- Physical memory after the BIOS has loaded the boot sector. -/
def bootMemory (mem disk : Buffer) : Buffer := memcpy mem loaderBase disk 0 512

/-! ## The kernel -/

/-- The number of elements of the static array `argv`. -/
def argvLen : Nat := loaderArgsLen / 2 + 1

def strnlen (b : Buffer) : Nat → Nat
  | 0 => 0
  | n + 1 => if b 0 = 0 then 0 else strnlen (bufferAt b 1) n + 1

/-- A store of a pointer, or of the null pointer, to an element of `argv`. -/
abbrev ArgvStore := Int × Option Nat

/-- The loop of `read_command_line` with `n` iterations to go; `none` is the PANIC. -/
def readArgs (mem : Buffer) (stop : Nat) : Nat → Nat → Nat → Option (List ArgvStore)
  | 0, _, _ => some []
  | n + 1, i, p =>
    if stop ≤ p then none
    else (readArgs mem stop n (i + 1) (p + strnlen (bufferAt mem p) (stop - p) + 1)).map
      (((i : Int), some p) :: ·)

/-- `read_command_line` up to its printing: the stores to `argv` in their order. Pointers
stand for what `ptov` makes of them. -/
def readCommandLine (mem : Buffer) : Option (List ArgvStore) :=
  let argc := asInt32 (load32 mem loaderArgCnt)
  (readArgs mem (loaderArgs + loaderArgsLen) argc.toNat 0 loaderArgs).map (· ++ [(argc, none)])

/-- An element of `argv` after the stores, if there was one to it. -/
def argvAt : List ArgvStore → Int → Option (Option Nat)
  | [], _ => none
  | (j, v) :: rest, i => (argvAt rest i).or (if i = j then some v else none)

/-! ## The round trip -/

/-- The string `s` with its terminator is at `p`. -/
def StringAt (mem : Buffer) (p : Nat) (s : CString) : Prop := strEq s (bufferAt mem p) = true

/-- The kernel does not panic, stores only inside `argv`, and has `args` and a null pointer
there. -/
def CommandLineOk (mem : Buffer) (args : List CString) : Prop :=
  ∃ stores, readCommandLine mem = some stores ∧
    (∀ x ∈ stores, 0 ≤ x.1 ∧ x.1 ≤ args.length ∧ x.1 < argvLen) ∧
    (∀ i (h : i < args.length), ∃ p, argvAt stores i = some (some p) ∧ StringAt mem p args[i]) ∧
    argvAt stores args.length = some none

/-- The text is at `p`. -/
def TextAt (mem : Buffer) (p : Nat) (text : List UInt8) : Prop :=
  ∀ i (h : i < text.length), mem (p + i) = text[i]

section

variable {mem : Buffer} {p stop : Nat}

theorem TextAt.append {s t : List UInt8} (h : TextAt mem p (s ++ t)) :
    TextAt mem p s ∧ TextAt mem (p + s.length) t := by
  constructor
  · intro i hi
    rw [h i (by rw [List.length_append]; omega), List.getElem_append_left hi]
  · intro i hi
    rw [Nat.add_assoc, h (s.length + i) (by rw [List.length_append]; omega),
      List.getElem_append_right (by omega)]
    simp

theorem strnlen_text {s : List UInt8} (hs : 0 ∉ s) {n : Nat} (hn : s.length < n) :
    ∀ {b : Buffer}, TextAt b 0 (s ++ [0]) → strnlen b n = s.length := by
  induction s generalizing n with
  | nil =>
    intro b hb
    obtain ⟨n, rfl⟩ := Nat.exists_eq_add_one.mpr hn
    have h0 : b 0 = 0 := hb 0 (by simp)
    simp [strnlen, h0]
  | cons c s ih =>
    intro b hb
    simp only [List.length_cons, List.mem_cons, not_or] at hn hs
    obtain ⟨n, rfl⟩ := Nat.exists_eq_add_one.mpr (Nat.lt_of_le_of_lt (Nat.zero_le _) hn)
    have h0 : b 0 = c := hb 0 (by simp)
    have hrest : TextAt (bufferAt b 1) 0 (s ++ [0]) := by
      intro i hi
      have := hb (i + 1) (by simpa using hi)
      simpa [bufferAt, Nat.add_comm] using this
    simp only [strnlen, h0, if_neg (Ne.symm hs.1), List.length_cons]
    rw [ih hs.2 (by omega) hrest]

theorem stringAt_text {s : CString} (h : TextAt mem p (s.chars ++ [0])) : StringAt mem p s := by
  simp only [StringAt, strEq, strlen, Bool.and_eq_true, List.all_eq_true, beq_iff_eq,
    List.mem_range, bufferAt]
  refine ⟨fun i hi => ?_, ?_⟩
  · rw [h i (by rw [List.length_append]; omega), List.getElem_append_left hi,
      List.getD_eq_getElem?_getD, List.getElem?_eq_getElem hi, Option.getD_some]
  · rw [h s.chars.length (by simp)]
    simp

/-- The stores of the loop. -/
def argStores : Nat → Nat → List CString → List ArgvStore
  | _, _, [] => []
  | i, p, a :: args => (i, some p) :: argStores (i + 1) (p + strlen a + 1) args

theorem readArgs_text {args : List CString} (i : Nat) (h : TextAt mem p (argsText args))
    (hstop : p + (argsText args).length ≤ stop) :
    readArgs mem stop args.length i p = some (argStores i p args) := by
  induction args generalizing i p with
  | nil => rfl
  | cons a args ih =>
    simp only [argsText, List.flatMap_cons] at h hstop
    obtain ⟨ha, hargs⟩ := h.append
    simp only [List.length_append, List.length_singleton] at hstop hargs
    have ha' : TextAt (bufferAt mem p) 0 (a.chars ++ [0]) := by
      intro i hi
      rw [Nat.zero_add]
      exact ha i hi
    have hlen : strnlen (bufferAt mem p) (stop - p) = strlen a :=
      strnlen_text a.no_nul (by omega) ha'
    simp only [List.length_cons, readArgs, if_neg (show ¬ stop ≤ p by omega), hlen]
    rw [ih (i + 1) (by rw [Nat.add_assoc]; exact hargs)
      (by simp only [argsText, strlen]; omega)]
    rfl

theorem argStores_index {args : List CString} (i p : Nat) {x : ArgvStore}
    (h : x ∈ argStores i p args) : (i : Int) ≤ x.1 ∧ x.1 < i + args.length := by
  induction args generalizing i p with
  | nil => cases h
  | cons a args ih =>
    rcases List.mem_cons.mp h with rfl | h
    · simp only [List.length_cons]
      omega
    · have := ih (i + 1) _ h
      simp only [List.length_cons]
      omega

theorem argvAt_of_forall_ne {stores : List ArgvStore} {i : Int} (h : ∀ x ∈ stores, x.1 ≠ i) :
    argvAt stores i = none := by
  induction stores with
  | nil => rfl
  | cons x stores ih =>
    simp only [List.mem_cons, forall_eq_or_imp] at h
    simp only [argvAt, ih h.2, Option.none_or, if_neg (Ne.symm h.1)]

theorem argvAt_append_ne {stores : List ArgvStore} {i j : Int} (v : Option Nat) (h : i ≠ j) :
    argvAt (stores ++ [(j, v)]) i = argvAt stores i := by
  induction stores with
  | nil => simp [argvAt, h]
  | cons x stores ih => simp only [List.cons_append, argvAt, ih]

theorem argvAt_append_self (stores : List ArgvStore) (j : Int) (v : Option Nat) :
    argvAt (stores ++ [(j, v)]) j = some v := by
  induction stores with
  | nil => simp [argvAt]
  | cons x stores ih => simp only [List.cons_append, argvAt, ih, Option.some_or]

theorem argvAt_argStores {args : List CString} (i : Nat) (h : TextAt mem p (argsText args)) {k : Nat}
    (hk : k < args.length) :
    ∃ q, argvAt (argStores i p args) ((i + k : Nat) : Int) = some (some q) ∧
      StringAt mem q args[k] := by
  induction args generalizing i p k with
  | nil => cases hk
  | cons a args ih =>
    simp only [argsText, List.flatMap_cons] at h
    obtain ⟨ha, hargs⟩ := h.append
    simp only [List.length_append, List.length_singleton] at hargs
    cases k with
    | zero =>
      refine ⟨p, ?_, stringAt_text ha⟩
      have hrest : argvAt (argStores (i + 1) (p + strlen a + 1) args) i = none := by
        refine argvAt_of_forall_ne fun x hx => ?_
        have := argStores_index _ _ hx
        omega
      simp [argStores, argvAt, hrest]
    | succ k =>
      obtain ⟨q, hq, hs⟩ := ih (i + 1) hargs (Nat.lt_of_succ_lt_succ hk)
      refine ⟨q, ?_, hs⟩
      rw [show i + (k + 1) = i + 1 + k by omega]
      simp only [argStores, argvAt, strlen, Nat.add_assoc p, hq, Option.some_or]

end

theorem length_le_argsText (args : List CString) : args.length ≤ (argsText args).length := by
  induction args with
  | nil => simp [argsText]
  | cons a args ih =>
    simp only [argsText, List.flatMap_cons, List.length_append, List.length_cons] at ih ⊢
    omega

section

variable {disk disk' : Buffer} {args : List CString}

theorem loaderArgs_eq : loaderArgs = loaderBase + 0x17e := by decide

theorem loaderArgCnt_eq : loaderArgCnt = loaderBase + 0x17a := by decide

/-- What the kernel finds in memory. -/
theorem bootMemory_text (h : writeCmdLine disk args = some disk') (mem : Buffer) :
    (argsText args).length ≤ 128 ∧ load32 (bootMemory mem disk') loaderArgCnt = args.length ∧
      TextAt (bootMemory mem disk') loaderArgs (argsText args) := by
  simp only [writeCmdLine] at h
  split at h
  · cases h
  next hlen =>
  cases h
  have hcnt := length_le_argsText args
  refine ⟨by omega, ?_, fun i hi => ?_⟩
  · have hload : load32 (bootMemory mem (memcpy (store32 disk 0x17a args.length) (0x17a + 4)
        (fun i => (argsText args).getD i 0) 0 128)) loaderArgCnt =
        load32 (store32 disk 0x17a args.length) 0x17a := by
      apply load32_eq
      intro k hk
      rw [loaderArgCnt_eq, bootMemory, memcpy_in (by omega) (by omega), memcpy_out (by omega),
        show 0 + (loaderBase + 0x17a + k - loaderBase) = 0x17a + k by omega]
    rw [hload, load32_store32 _ _ (by omega)]
  · rw [loaderArgs_eq, bootMemory, memcpy_in (by omega) (by omega), memcpy_in (by omega) (by omega),
      List.getD_eq_getElem?_getD]
    rw [show 0 + (0 + (loaderBase + 0x17e + i - loaderBase) - (0x17a + 4)) = i by omega,
      List.getElem?_eq_getElem hi, Option.getD_some]

/-- What `read_command_line` does with what `write_cmd_line` wrote. -/
theorem readCommandLine_written (h : writeCmdLine disk args = some disk') (mem : Buffer) :
    readCommandLine (bootMemory mem disk') =
      some (argStores 0 loaderArgs args ++ [((args.length : Int), none)]) := by
  obtain ⟨hlen, hcnt, htext⟩ := bootMemory_text h mem
  have hle := length_le_argsText args
  have hint : asInt32 args.length = args.length := if_pos (by omega)
  simp only [readCommandLine, hcnt, hint, Int.toNat_natCast]
  rw [readArgs_text 0 htext (by simp only [loaderArgsLen]; omega)]
  rfl

/-- **The kernel command line.** What `write_cmd_line` accepts is read back without a
panic and inside `argv` if and only if there are at most 64 arguments. -/
theorem command_line_iff (h : writeCmdLine disk args = some disk') (mem : Buffer) :
    CommandLineOk (bootMemory mem disk') args ↔ args.length ≤ 64 := by
  obtain ⟨hlen, -, htext⟩ := bootMemory_text h mem
  have hread := readCommandLine_written h mem
  constructor
  · rintro ⟨stores, hst, hin, -, -⟩
    rw [hread] at hst
    cases hst
    have := hin _ (List.mem_append_right _ (List.mem_singleton.mpr rfl))
    simp only [argvLen, loaderArgsLen] at this
    omega
  · intro hle
    refine ⟨_, hread, fun x hx => ?_, fun i hi => ?_, argvAt_append_self ..⟩
    · rcases List.mem_append.mp hx with hx | hx
      · have := argStores_index _ _ hx
        simp only [argvLen, loaderArgsLen]
        omega
      · rw [List.mem_singleton] at hx
        subst hx
        simp only [argvLen, loaderArgsLen]
        omega
    · obtain ⟨q, hq, hs⟩ := argvAt_argStores 0 htext hi
      refine ⟨q, ?_, hs⟩
      rw [argvAt_append_ne _ (by omega)]
      simpa using hq

/-- Two arguments, one of them empty. -/
theorem two_arguments :
    ∃ disk', writeCmdLine zeros [⟨[113], by decide⟩, ⟨[], by decide⟩] = some disk' ∧
      CommandLineOk (bootMemory zeros disk') [⟨[113], by decide⟩, ⟨[], by decide⟩] :=
  ⟨_, rfl, (command_line_iff rfl zeros).mpr (by decide)⟩

/-- 65 empty arguments take 65 bytes; the null pointer goes behind the end of `argv`. -/
theorem empty_arguments_overflow :
    ∃ disk', writeCmdLine zeros (List.replicate 65 ⟨[], by decide⟩) = some disk' ∧
      ¬ CommandLineOk (bootMemory zeros disk') (List.replicate 65 ⟨[], by decide⟩) := by
  have h : writeCmdLine zeros (List.replicate 65 ⟨[], by decide⟩) = some _ := if_neg (by decide)
  refine ⟨_, h, ?_⟩
  rintro ⟨stores, hst, hin, -, -⟩
  rw [readCommandLine_written h] at hst
  cases hst
  have := hin _ (List.mem_append_right _ (List.mem_singleton.mpr rfl))
  revert this
  decide

end

end Pintos.Threads
