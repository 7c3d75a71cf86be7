import Pintos.Userprog.LoadStale

/-!
# The argument block

What the new program finds at its stack pointer when `setup_stack` succeeds, byte by byte
through the page tables, and when it succeeds.
-/

namespace Pintos.Userprog.Loader

open Pintos.Base Pintos.Kernel Pintos.Threads

/-- A null-terminated array of strings that `argv[32]` has room for. -/
structure ArgArray where
  words : List CString
  nonempty : words ≠ []
  length_le : words.length ≤ 31
  no_empty : ∀ c ∈ words, c.chars ≠ []

/-- The array in memory, with anything behind the null pointer. -/
def ArgArray.elems (args : ArgArray) (rest : List Word) : List Word :=
  args.words.map .str ++ .null :: rest

/-- The bytes of the strings with their terminators. -/
def stringBytes (L : List CString) : Nat := (L.map fun c => strlen c + 1).sum

/-- The strings, the padding, the pointers with the last word of `argv`, and the frame. -/
def blockSize (L : List CString) : Nat :=
  stringBytes L + (physBase - stringBytes L) % 4 + 4 * (L.length + 1) + 12

/-- The bytes lie at `a` in memory that the program can write. -/
def Vm.holds (s : Vm) (a : Nat) (bytes : List UInt8) : Prop :=
  ∀ i < bytes.length, s.userByte (a + i) = some (true, bytes.getD i 0)

/-- The argument block, from the stack pointer up: a return address, the number of strings,
the address of `argv`, `argv`, and after one more word the padding and the copies. -/
structure ArgBlock (s : Vm) (L : List CString) (esp : Nat) (argv : List Nat) (pad : Nat) : Prop where
  aligned : esp % 4 = 0
  base : stackBase ≤ esp
  below : esp < physBase
  returnAddress : ∃ w, s.holds esp (wordBytes w)
  argc : s.holds (esp + 4) (wordBytes L.length)
  argvPtr : s.holds (esp + 8) (wordBytes (esp + 12))
  length : argv.length = L.length
  pointer : ∀ i < L.length, s.holds (esp + 12 + 4 * i) (wordBytes (argv.getD i 0))
  copy : ∀ i (h : i < L.length), s.holds (argv.getD i 0) (L[i].chars ++ [0])
  padding : s.holds (esp + 16 + 4 * L.length) (List.replicate pad 0)
  pad_lt : pad < 4
  /-- The pointers end before the padding, and the padding before the copies. -/
  clear : ∀ i < L.length, esp + 16 + 4 * L.length + pad ≤ argv.getD i 0
  copy_below : ∀ i (h : i < L.length), argv.getD i 0 + strlen L[i] < physBase
  apart : ∀ i j (hij : i < j) (hj : j < L.length), argv.getD i 0 + strlen L[i] < argv.getD j 0

section

variable {s s0 : Vm} {pd : Nat} {m : Buffer} {esp : Nat} {L : List CString} {w : UInt32}

theorem Loading.holds (h : Loading s0 s pd (stackView m)) {a : Nat} {bytes : List UInt8}
    (hat : At m a bytes) (ha : stackBase ≤ a) (hlt : a + bytes.length ≤ physBase) :
    s.holds a bytes := by
  intro i hi
  rw [h.stack_byte rfl (by omega) (by omega), hat i hi]

theorem Block.argBlock {argv : List Nat} {pad : Nat} (hb : Block L w m esp argv pad)
    (h : Loading s0 s pd (stackView m)) : ArgBlock s L esp argv pad := by
  have hbase := hb.base
  have htop := hb.top
  have hword : ∀ {a w : Nat}, At m a (wordBytes w) → esp ≤ a → a + 4 ≤ physBase →
      s.holds a (wordBytes w) := fun hat h1 h2 =>
    h.holds hat (by omega) (by rw [wordBytes_length]; exact h2)
  refine ⟨hb.aligned, hbase, by omega, ⟨_, hword hb.sentinel (Nat.le_refl _) (by omega)⟩,
    hword hb.argc (by omega) (by omega), hword hb.argvPtr (by omega) (by omega), hb.length,
    fun i hi => hword (hb.pointer i hi) (by omega) (by omega), fun i hi => ?_, ?_, hb.pad_lt, hb.below,
    fun i hi => (hb.copy i hi).1, hb.apart⟩
  · obtain ⟨hlt, hat⟩ := hb.copy i hi
    have hlo := hb.below i hi
    refine h.holds hat (by omega) ?_
    simp only [List.length_append, List.length_singleton, strlen] at hlt ⊢
    omega
  · refine h.holds hb.padding (by omega) ?_
    rw [List.length_replicate]
    exact htop

/-! ## Room for the block -/

theorem pushBytes_fits {bytes : List UInt8} (h : stackBase + bytes.length ≤ esp) :
    ∃ m' esp', pushBytes m esp bytes = some (m', esp') ∧ esp' + bytes.length = esp :=
  ⟨_, _, if_pos h, by omega⟩

theorem pushWord_fits (m : Buffer) (h : stackBase + 4 ≤ esp) (w : Nat) :
    ∃ m' esp', pushBytes m esp (wordBytes w) = some (m', esp') ∧ esp' + 4 = esp := by
  simpa only [wordBytes_length] using
    @pushBytes_fits m esp (wordBytes w) (by rw [wordBytes_length]; exact h)

theorem stackStrings_fits (h : stackBase + stringBytes L ≤ esp) :
    ∃ m' esp' argv, stackStrings L m esp = some ((m', esp'), argv) ∧
      esp' + stringBytes L = esp ∧ argv.length = L.length := by
  induction L with
  | nil => exact ⟨m, esp, [], rfl, rfl, rfl⟩
  | cons c L ih =>
    have hsum : stringBytes (c :: L) = strlen c + 1 + stringBytes L := by simp [stringBytes]
    have hbytes : (c.chars ++ [0]).length = strlen c + 1 := by simp [strlen]
    rw [hsum] at h ⊢
    obtain ⟨m1, esp1, argv, hst, he1, hlen⟩ := ih (by omega)
    obtain ⟨m2, esp2, hpush, he2⟩ :=
      @pushBytes_fits m1 esp1 (c.chars ++ [0]) (by omega)
    refine ⟨m2, esp2, esp2 :: argv, ?_, by omega, congrArg (· + 1) hlen⟩
    simp only [stackStrings, hst, hpush, Option.bind_eq_bind, Option.bind_some]
    rfl

theorem stackWords_fits {ws : List Nat} (h : stackBase + 4 * ws.length ≤ esp) :
    ∃ m' esp', stackWords ws m esp = some (m', esp') ∧ esp' + 4 * ws.length = esp := by
  induction ws with
  | nil => exact ⟨m, esp, rfl, rfl⟩
  | cons x ws ih =>
    rw [List.length_cons] at h
    obtain ⟨m1, esp1, hst, he1⟩ := ih (by omega)
    obtain ⟨m2, esp2, hpush, he2⟩ := @pushWord_fits esp1 m1 (by omega) x
    refine ⟨m2, esp2, ?_, by rw [List.length_cons]; omega⟩
    simp only [stackWords, hst, hpush, Option.bind_eq_bind, Option.bind_some]

theorem stackImage_fits (h : blockSize L ≤ pgSize) (w : UInt32) :
    ∃ m' esp', stackImage L w = some (m', esp') := by
  unfold blockSize at h
  have hbase : stackBase + pgSize = physBase := by decide
  obtain ⟨m1, esp1, argv, h1, e1, hlen⟩ := @stackStrings_fits zeros physBase L (by omega)
  obtain ⟨m2, esp2, h2, e2⟩ := @pushBytes_fits m1 esp1 (List.replicate (esp1 % 4) 0)
    (by rw [List.length_replicate]; omega)
  rw [List.length_replicate] at e2
  obtain ⟨m3, esp3, h3, e3⟩ := @pushWord_fits esp2 m2 (by omega) w.toNat
  obtain ⟨m4, esp4, h4, e4⟩ := @stackWords_fits m3 esp3 argv (by omega)
  obtain ⟨m5, esp5, h5, e5⟩ := @pushWord_fits esp4 m4 (by omega) esp4
  obtain ⟨m6, esp6, h6, e6⟩ := @pushWord_fits esp5 m5 (by omega) L.length
  obtain ⟨m7, esp7, h7, -⟩ := @pushBytes_fits m6 esp6
    [m6 esp3, m6 (esp3 + 1), m6 (esp3 + 2), m6 (esp3 + 3)]
    (by simp only [List.length_cons, List.length_nil]; omega)
  refine ⟨m7, esp7, ?_⟩
  simp only [stackImage, h1, h2, h3, h4, h5, h6, Option.bind_eq_bind, Option.bind_some]
  exact h7

end

/-! ## `setup_stack` -/

theorem countArgs_elems (words : List CString) (rest : List Word) :
    countArgs (words.map .str ++ .null :: rest) = some words.length := by
  induction words with
  | nil => rfl
  | cons c words ih => simp [countArgs, ih]

theorem ArgArray.take_elems (args : ArgArray) (rest : List Word) :
    (args.elems rest).take args.words.length = args.words.map .str := by
  unfold ArgArray.elems
  rw [List.take_append_of_le_length (by simp), List.take_of_length_le (by simp)]

theorem stringsOf_map (L : List CString) : stringsOf (L.map .str) = some L := by
  induction L with
  | nil => rfl
  | cons c L ih => simp [stringsOf, ih]

/-- **The argument block**: with the page directory that `load` has created, a call that
succeeds leaves the block, and a call succeeds if the block fits on the page and the page
and a page table for it are there. -/
theorem argument_block {s s1 : Vm} (h : Boot s) {pd : Nat} (hcreate : pagedirCreate s = .ok (some pd, s1))
    (args : ArgArray) (rest : List Word) (stale : Stale) :
    (∀ esp s', setupStack (args.elems rest) stale { s1 with pagedir := some pd } = .ok (some esp, s') →
      ∃ argv pad, ArgBlock s' args.words esp argv pad) ∧
    (blockSize args.words ≤ pgSize → ∀ kpage s2,
      pallocGetPage .user true { s1 with pagedir := some pd } = .ok (some kpage, s2) → ¬ Refused s2 →
      ∃ esp s', setupStack (args.elems rest) stale { s1 with pagedir := some pd } =
        .ok (some esp, s')) := by
  have hload : Loading s { s1 with pagedir := some pd } pd fun _ => none := by
    rcases h.create with he | ⟨pd', s1', he, hl⟩
    · cases hcreate.symm.trans he
    · cases hcreate.symm.trans he
      exact hl
  have hcount := countArgs_elems args.words rest
  have htake := args.take_elems rest
  refine ⟨fun esp s' hrun => ?_, fun hfits kpage s2 hget hno => ?_⟩
  · obtain ⟨c, words, hwords⟩ := List.exists_cons_of_ne_nil args.nonempty
    have helems : args.elems rest = .str c :: (words.map .str ++ .null :: rest) := by
      rw [ArgArray.elems, hwords]
      rfl
    rw [helems] at hrun htake
    obtain ⟨-, hr⟩ := (setupStack_spec hload).ok hrun
    obtain ⟨argc, L, m, hc, hL, hst, hl⟩ := hr esp rfl
    rw [← helems, ArgArray.elems, hcount] at hc
    cases hc
    rw [htake, stringsOf_map] at hL
    cases hL
    obtain ⟨argv, pad, hb⟩ := stackImage_block hst
    exact ⟨argv, pad, hb.argBlock hl⟩
  · obtain ⟨m, esp, hst⟩ := stackImage_fits hfits (stale.argv args.words.length)
    obtain ⟨-, s', -, hrun, -⟩ := setupStack_ok hload hget hno hcount htake hst
    exact ⟨esp, s', hrun⟩

/-- The command line `echo x`. -/
def echoArgs : ArgArray where
  words := [echo, ⟨[120], by decide⟩]
  nonempty := by decide
  length_le := by decide
  no_empty := by decide

theorem echo_block : ∃ (s1 : Vm) (esp : Nat) (s' : Vm) (argv : List Nat) (pad : Nat),
    pagedirCreate (bootVm [some 1, some 0, some 2]) = .ok (some (physBase + 8192), s1) ∧
      setupStack (echoArgs.elems []) (nullStale fun _ => 7)
        { s1 with pagedir := some (physBase + 8192) } = .ok (some esp, s') ∧
      ArgBlock s' echoArgs.words esp argv pad := by
  have hcreate : pagedirCreate (bootVm [some 1, some 0, some 2]) =
      .ok (some (physBase + 8192), _) := rfl
  obtain ⟨hblock, hrun⟩ := argument_block (bootVm_boot _) hcreate echoArgs [] (nullStale fun _ => 7)
  obtain ⟨esp, s', hs'⟩ := hrun (by decide) _ _ rfl (not_refused (i := 2) rfl (by decide) rfl)
  obtain ⟨argv, pad, hb⟩ := hblock esp s' hs'
  exact ⟨_, esp, s', argv, pad, hcreate, hs', hb⟩

end Pintos.Userprog.Loader
