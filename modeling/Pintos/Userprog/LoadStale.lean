import Pintos.Userprog.LoadImage

/-!
# What a new process sees of the past

Two runs of `load` with the same executable and the same command line. The segments and the
stack do not depend on what was in the pages before, but `setup_stack` counts the arguments up to
the first null pointer of an array that was not initialised, and pushes an element of another
one. So the two processes see the same memory exactly if those words agree.
-/

namespace Pintos.Userprog.Loader

open Pintos.Base Pintos.Kernel Pintos.Threads

/-! ## The layout of the stack -/

/-- The bytes lie at `a`. -/
def At (m : Buffer) (a : Nat) (bytes : List UInt8) : Prop :=
  ∀ i < bytes.length, m (a + i) = bytes.getD i 0

section

variable {m m' : Buffer} {esp esp' a : Nat} {bytes : List UInt8}

theorem At.congr (h : At m a bytes) (hm : ∀ k, a ≤ k → k < a + bytes.length → m' k = m k) :
    At m' a bytes := by
  intro i hi
  rw [hm _ (by omega) (by omega)]
  exact h i hi

/-- What a push does. -/
structure Pushed (m m' : Buffer) (esp esp' : Nat) (bytes : List UInt8) : Prop where
  len : esp' + bytes.length = esp
  base : stackBase ≤ esp'
  holds : At m' esp' bytes
  above : ∀ k, esp ≤ k → m' k = m k

theorem pushBytes_pushed (h : pushBytes m esp bytes = some (m', esp')) :
    Pushed m m' esp esp' bytes := by
  obtain ⟨hle, he⟩ := pushBytes_some h
  cases he
  refine ⟨by omega, by omega, fun i hi => ?_, fun k hk => memcpy_out (by omega)⟩
  rw [putBytes, memcpy_in (by omega) (by omega)]
  congr 1
  omega

/-- A word in memory, from its bytes. -/
theorem At.word {w : Nat} (h : At m a (wordBytes w)) (hw : w < 2 ^ 32) : load32 m a = w := by
  have hb : ∀ k < 4, m (a + k) = store32 zeros 0 w (0 + k) := by
    intro k hk
    rw [h k (by rw [wordBytes_length]; exact hk), store32, memcpy_in (by omega) (by omega)]
    have : (wordBytes w).getD k 0 = wordByte w k := by
      simp [wordBytes, List.getD_eq_getElem?_getD, hk]
    rw [this]
    congr 1
    omega
  rw [load32_eq hb, load32_store32 _ _ hw]

/-- Strings at the same place are the same. -/
theorem At.string_inj {c d : List UInt8} (hc : 0 ∉ c) (hd : 0 ∉ d) (h : At m a (c ++ [0]))
    (h' : At m a (d ++ [0])) : c = d := by
  induction c generalizing d a with
  | nil =>
    cases d with
    | nil => rfl
    | cons y d =>
      have h0 := h 0 (by simp)
      rw [h' 0 (by simp)] at h0
      simp only [List.cons_append, List.getD_cons_zero, List.nil_append] at h0
      exact absurd (h0 ▸ List.mem_cons_self) hd
  | cons x c ih =>
    cases d with
    | nil =>
      have h0 := h 0 (by simp)
      rw [h' 0 (by simp)] at h0
      simp only [List.cons_append, List.getD_cons_zero, List.nil_append] at h0
      exact absurd (h0 ▸ List.mem_cons_self) hc
    | cons y d =>
      have h0 := h 0 (by simp)
      rw [h' 0 (by simp)] at h0
      simp only [List.cons_append, List.getD_cons_zero] at h0
      have htail : ∀ {z : UInt8} {e : List UInt8}, At m a (z :: e ++ [0]) → At m (a + 1) (e ++ [0]) := by
        intro z e he i hi
        have := he (i + 1) (by simpa using hi)
        rw [show a + 1 + i = a + (i + 1) by omega, this]
        rfl
      rw [h0, ih (fun hz => hc (List.mem_cons_of_mem _ hz)) (fun hz => hd (List.mem_cons_of_mem _ hz))
        (htail h) (htail h')]

/-- Where the strings are. -/
structure Strings (L : List CString) (m : Buffer) (lo hi : Nat) (argv : List Nat) : Prop where
  length : argv.length = L.length
  at_ : ∀ i (h : i < L.length), lo ≤ argv.getD i 0 ∧ argv.getD i 0 + strlen L[i] < hi ∧
    At m (argv.getD i 0) (L[i].chars ++ [0])

theorem stackStrings_at {L : List CString} {argv : List Nat}
    (h : stackStrings L m esp = some ((m', esp'), argv)) (hb : stackBase ≤ esp) :
    stackBase ≤ esp' ∧ esp' + L.length ≤ esp ∧ (∀ k, esp ≤ k → m' k = m k) ∧
      Strings L m' esp' esp argv := by
  induction L generalizing m' esp' argv with
  | nil =>
    cases h
    exact ⟨hb, by simp, fun _ _ => rfl, rfl, fun i hi => absurd hi (Nat.not_lt_zero i)⟩
  | cons c L ih =>
    simp only [stackStrings, Option.bind_eq_bind, Option.bind_eq_some_iff] at h
    obtain ⟨⟨⟨m1, esp1⟩, argv1⟩, hst, ⟨m2, esp2⟩, hpush, he⟩ := h
    cases he
    obtain ⟨-, hlen, habove, hargv⟩ := ih hst
    simp only at hpush ⊢
    have hp := pushBytes_pushed hpush
    have hesp : esp2 + (strlen c + 1) = esp1 := by
      simpa [strlen] using hp.len
    refine ⟨hp.base, ?_, fun k hk => ?_, ?_, fun i hi => ?_⟩
    · simp only [List.length_cons]
      omega
    · rw [hp.above k (by omega), habove k hk]
    · simp [hargv.length]
    · cases i with
      | zero =>
        refine ⟨le_rfl, ?_, hp.holds⟩
        simp only [List.getD_cons_zero, List.getElem_cons_zero]
        omega
      | succ i =>
        simp only [List.length_cons, Nat.add_lt_add_iff_right] at hi
        obtain ⟨h1, h2, h3⟩ := hargv.at_ i hi
        simp only [List.getD_cons_succ, List.getElem_cons_succ]
        refine ⟨by omega, h2, h3.congr fun k hk _ => hp.above k (by omega)⟩

theorem stackWords_at {ws : List Nat} (h : stackWords ws m esp = some (m', esp'))
    (hb : stackBase ≤ esp) :
    stackBase ≤ esp' ∧ esp' + 4 * ws.length = esp ∧ (∀ k, esp ≤ k → m' k = m k) ∧
      ∀ i < ws.length, At m' (esp' + 4 * i) (wordBytes (ws.getD i 0)) := by
  induction ws generalizing m' esp' with
  | nil =>
    cases h
    exact ⟨hb, rfl, fun _ _ => rfl, fun i hi => absurd hi (Nat.not_lt_zero i)⟩
  | cons w ws ih =>
    simp only [stackWords, Option.bind_eq_bind, Option.bind_eq_some_iff] at h
    obtain ⟨⟨m1, esp1⟩, hst, hpush⟩ := h
    obtain ⟨-, hlen, habove, hws⟩ := ih hst
    simp only at hpush
    have hp := pushBytes_pushed hpush
    have hesp : esp' + 4 = esp1 := by
      have := hp.len
      rwa [wordBytes_length] at this
    refine ⟨hp.base, ?_, fun k hk => ?_, fun i hi => ?_⟩
    · simp only [List.length_cons]
      omega
    · rw [hp.above k (by omega), habove k hk]
    · cases i with
      | zero => exact hp.holds
      | succ i =>
        simp only [List.length_cons, Nat.add_lt_add_iff_right] at hi
        rw [List.getD_cons_succ, show esp' + 4 * (i + 1) = esp1 + 4 * i by omega]
        exact (hws i hi).congr fun k hk _ => hp.above k (by omega)

theorem stackStrings_apart {L : List CString} {argv : List Nat}
    (h : stackStrings L m esp = some ((m', esp'), argv)) (hb : stackBase ≤ esp) :
    ∀ i j (hij : i < j) (hj : j < L.length), argv.getD i 0 + strlen L[i] < argv.getD j 0 := by
  induction L generalizing m' esp' argv with
  | nil => exact fun _ j _ hj => absurd hj (Nat.not_lt_zero j)
  | cons c L ih =>
    simp only [stackStrings, Option.bind_eq_bind, Option.bind_eq_some_iff] at h
    obtain ⟨⟨⟨m1, esp1⟩, argv1⟩, hst, ⟨m2, esp2⟩, hpush, he⟩ := h
    cases he
    obtain ⟨-, -, -, hargv⟩ := stackStrings_at hst hb
    simp only at hpush
    have hesp : esp2 + (strlen c + 1) = esp1 := by
      simpa [strlen] using (pushBytes_pushed hpush).len
    intro i j hij hj
    obtain ⟨j, rfl⟩ := Nat.exists_eq_add_one.mpr (Nat.lt_of_le_of_lt (Nat.zero_le i) hij)
    rw [List.length_cons, Nat.add_lt_add_iff_right] at hj
    cases i with
    | zero =>
      obtain ⟨hlo, -, -⟩ := hargv.at_ j hj
      simp only [List.getD_cons_zero, List.getD_cons_succ, List.getElem_cons_zero]
      omega
    | succ i =>
      simp only [List.getD_cons_succ, List.getElem_cons_succ]
      exact ih hst i j (Nat.lt_of_succ_lt_succ hij) hj

/-- The whole stack, from the stack pointer up: the last word of `argv`, the number of
strings, the address of `argv`, `argv`, the last word again, the padding and the strings. -/
structure Block (L : List CString) (w : UInt32) (m : Buffer) (esp : Nat) (argv : List Nat)
    (pad : Nat) : Prop where
  aligned : esp % 4 = 0
  base : stackBase ≤ esp
  top : esp + 16 + 4 * L.length + pad ≤ physBase
  pad_lt : pad < 4
  length : argv.length = L.length
  sentinel : At m esp (wordBytes w.toNat)
  argc : At m (esp + 4) (wordBytes L.length)
  argvPtr : At m (esp + 8) (wordBytes (esp + 12))
  pointer : ∀ i < L.length, At m (esp + 12 + 4 * i) (wordBytes (argv.getD i 0))
  padding : At m (esp + 16 + 4 * L.length) (List.replicate pad 0)
  below : ∀ i < L.length, esp + 16 + 4 * L.length + pad ≤ argv.getD i 0
  copy : ∀ i (h : i < L.length), argv.getD i 0 + strlen L[i] < physBase ∧
    At m (argv.getD i 0) (L[i].chars ++ [0])
  apart : ∀ i j (hij : i < j) (hj : j < L.length), argv.getD i 0 + strlen L[i] < argv.getD j 0

theorem stackImage_block {L : List CString} {w : UInt32} (h : stackImage L w = some (m, esp)) :
    ∃ argv pad, Block L w m esp argv pad := by
  simp only [stackImage, Option.bind_eq_bind, Option.bind_eq_some_iff] at h
  obtain ⟨⟨⟨m1, esp1⟩, argv⟩, hp1, ⟨m2, esp2⟩, hp2, ⟨m3, esp3⟩, hp3, ⟨m4, esp4⟩, hp4, ⟨m5, esp5⟩, hp5,
    ⟨m6, esp6⟩, hp6, hp7⟩ := h
  simp only at hp2 hp3 hp4 hp5 hp6 hp7
  obtain ⟨hb1, hlen, -, hargv⟩ := stackStrings_at hp1 (by decide)
  have h2 := pushBytes_pushed hp2
  have h3 := pushBytes_pushed hp3
  obtain ⟨-, hl4, ha4, hw4⟩ := stackWords_at hp4 h3.base
  have h5 := pushBytes_pushed hp5
  have h6 := pushBytes_pushed hp6
  have h7 := pushBytes_pushed hp7
  have e2 := h2.len
  have e3 := h3.len
  have e5 := h5.len
  have e6 := h6.len
  have e7 : esp + 4 = esp6 := h7.len
  rw [List.length_replicate] at e2
  rw [wordBytes_length] at e3 e5 e6
  rw [hargv.length] at hl4
  have htop1 : esp1 + L.length ≤ physBase := hlen
  -- what is above a push stays
  have habove : ∀ k, esp3 ≤ k → m k = m3 k := fun k hk => by
    rw [h7.above k (by omega), h6.above k (by omega), h5.above k (by omega), ha4 k hk]
  refine ⟨argv, esp1 % 4, by omega, h7.base, by omega, by omega, hargv.length, fun k hk => ?_,
    ?_, ?_, fun i hi => ?_, ?_, fun i hi => ?_, fun i hi => ?_, stackStrings_apart hp1 (by decide)⟩
  · rw [wordBytes_length] at hk
    rw [h7.holds k hk, ← h3.holds k (by rw [wordBytes_length]; exact hk), ← habove _ (by omega),
      h7.above _ (by omega)]
    have : k = 0 ∨ k = 1 ∨ k = 2 ∨ k = 3 := by omega
    rcases this with rfl | rfl | rfl | rfl <;> rfl
  · rw [e7]
    exact h6.holds.congr fun k hk _ => h7.above k (by omega)
  · rw [show esp + 8 = esp5 by omega, show esp + 12 = esp4 by omega]
    exact h5.holds.congr fun k hk _ => by rw [h7.above k (by omega), h6.above k (by omega)]
  · rw [show esp + 12 + 4 * i = esp4 + 4 * i by omega]
    refine (hw4 i (by rw [hargv.length]; exact hi)).congr fun k hk _ => ?_
    rw [h7.above k (by omega), h6.above k (by omega), h5.above k (by omega)]
  · rw [show esp + 16 + 4 * L.length = esp2 by omega]
    exact h2.holds.congr fun k hk _ => by rw [habove k (by omega), h3.above k (by omega)]
  · obtain ⟨hlo, -, -⟩ := hargv.at_ i hi
    omega
  · obtain ⟨hlo, hhi, hstr⟩ := hargv.at_ i hi
    refine ⟨hhi, hstr.congr fun k hk _ => ?_⟩
    rw [habove k (by omega), h3.above k (by omega), h2.above k (by omega)]

/-- The stack of a new process: under the stack pointer the last word of `argv`, the number of
strings, the address of `argv`, and `argv` with the addresses of the strings. -/
structure Stack (L : List CString) (w : UInt32) (m : Buffer) (esp : Nat) : Prop where
  base : stackBase ≤ esp
  top : esp + 12 + 4 * L.length ≤ physBase
  sentinel : load32 m esp = w.toNat
  argc : load32 m (esp + 4) = L.length
  argv : ∀ i (h : i < L.length), ∃ a, load32 m (esp + 12 + 4 * i) = a ∧ esp ≤ a ∧
    a + strlen L[i] < physBase ∧ At m a (L[i].chars ++ [0])

theorem stackImage_stack {L : List CString} {w : UInt32} (h : stackImage L w = some (m, esp)) :
    Stack L w m esp := by
  obtain ⟨argv, pad, hb⟩ := stackImage_block h
  have htop := hb.top
  have hphys : physBase < 2 ^ 32 := by decide
  refine ⟨hb.base, by omega, hb.sentinel.word w.toNat_lt, hb.argc.word (by omega), fun i hi => ?_⟩
  have hlo := hb.below i hi
  obtain ⟨hhi, hstr⟩ := hb.copy i hi
  exact ⟨argv.getD i 0, (hb.pointer i hi).word (by omega), by omega, hhi, hstr⟩

/-- The strings and the last word of `argv` can be read off the stack. -/
theorem Stack.inj {L L' : List CString} {w w' : UInt32} (h : Stack L w m esp)
    (h' : Stack L' w' m' esp) (hm : ∀ k, stackBase ≤ k → k < physBase → m k = m' k) :
    L = L' ∧ w = w' := by
  have hword : ∀ a, esp ≤ a → a + 4 ≤ physBase → load32 m a = load32 m' a :=
    fun a h1 h2 => load32_congr fun k hk => hm _ (Nat.le_trans h.base (by omega)) (by omega)
  have htop := h.top
  have hlen : L.length = L'.length := by
    rw [← h.argc, ← h'.argc]
    exact hword _ (by omega) (by omega)
  refine ⟨List.ext_getElem hlen fun i hi hi' => ?_, ?_⟩
  · obtain ⟨a, ha, hle, hend, hs⟩ := h.argv i hi
    obtain ⟨a', ha', -, -, hs'⟩ := h'.argv i hi'
    rw [← hword _ (by omega) (by omega), ha] at ha'
    subst ha'
    have hchars : L[i].chars = L'[i].chars := by
      refine At.string_inj L[i].no_nul L'[i].no_nul (hs.congr fun k h1 h2 => ?_) hs'
      refine (hm k (Nat.le_trans h.base (by omega)) ?_).symm
      simp only [List.length_append, List.length_singleton, strlen] at h2 hend
      omega
    have hext : ∀ c d : CString, c.chars = d.chars → c = d := by
      rintro ⟨c, hc⟩ ⟨d, hd⟩ rfl
      rfl
    exact hext _ _ hchars
  · apply UInt32.toNat_inj.mp
    rw [← h.sentinel, ← h'.sentinel]
    exact hword _ le_rfl (by omega)

end

/-! ## What `setup_stack` finds in `arguments` -/

/-- The pointers behind the first `n`, up to a null pointer. -/
def Stale.behind (stale : Stale) (n : Nat) : List Word :=
  ((List.range (32 - n)).map fun i => stale.arguments (n + i)).takeWhile (· ≠ .null)

theorem countArgs_take {ws : List Word} {argc : Nat} (h : countArgs ws = some argc) :
    ws.take argc = ws.takeWhile (· ≠ .null) := by
  induction ws generalizing argc with
  | nil => cases h
  | cons w ws ih =>
    cases w with
    | null =>
      cases h
      rfl
    | str c =>
      simp only [countArgs, Option.map_eq_some_iff] at h
      obtain ⟨n, hn, rfl⟩ := h
      simp [ih hn]
    | wild =>
      simp only [countArgs, Option.map_eq_some_iff] at h
      obtain ⟨n, hn, rfl⟩ := h
      simp [ih hn]

theorem stringsOf_eq {ws : List Word} {L : List CString} (h : stringsOf ws = some L) :
    ws = L.map .str := by
  induction ws generalizing L with
  | nil =>
    cases h
    rfl
  | cons w ws ih =>
    cases w with
    | str c =>
      simp only [stringsOf, Option.map_eq_some_iff] at h
      obtain ⟨L', hL', rfl⟩ := h
      rw [List.map_cons, ← ih hL']
    | null => cases h
    | wild => cases h

/-- The words of the command line come first. -/
theorem takeWhile_argumentsOf (words : List CString) (stale : Stale) :
    (argumentsOf words stale).takeWhile (· ≠ .null) =
      words.map .str ++ stale.behind words.length := by
  unfold argumentsOf Stale.behind
  rw [List.takeWhile_append_of_pos]
  intro w hw
  obtain ⟨c, -, rfl⟩ := List.mem_map.mp hw
  simp

section

variable {s s' s0 : Vm} {pd : Nat} {V : View} {f : Image} {words : List CString} {stale : Stale}
  {eip esp : Nat} {L : List CString} {m : Buffer}

theorem Loaded.found (h : Loaded s0 s pd words stale f eip esp L m V) :
    L.map .str = words.map .str ++ stale.behind words.length ∧
      L.length = words.length + (stale.behind words.length).length := by
  obtain ⟨argc, hc, hL⟩ := h.strings
  have heq : L.map .str = words.map .str ++ stale.behind words.length := by
    rw [← takeWhile_argumentsOf, ← countArgs_take hc, stringsOf_eq hL]
  refine ⟨heq, ?_⟩
  have := congrArg List.length heq
  simpa using this

/-! ## What the program sees -/

/-- A byte of user memory and whether it is writable. -/
def Vm.userByte (s : Vm) (a : Nat) : Option (Bool × UInt8) :=
  (s.translate a).map fun r => (r.2, s.mem r.1 (pgOfs a))

theorem Loading.userByte (h : Loading s0 s pd V) {a : Nat} (hu : isUserVaddr a = true) :
    s.userByte a = (V (pgNo a)).map fun r => (r.1, r.2 (pgOfs a)) := by
  cases hV : V (pgNo a) with
  | some r =>
    obtain ⟨k, htr, hk⟩ := h.byte hu hV
    rw [Vm.userByte, htr]
    simp [hk]
  | none =>
    obtain ⟨⟨T, held, hs, -, hsh⟩, hpd⟩ := h
    rw [Vm.userByte, hs.translate hpd hu, (hsh.none_iff _).mp hV]
    rfl

/-- The bytes of the stack page. -/
theorem Loading.stack_byte (h : Loading s0 s pd V) (hV : V stackNo = stackView m stackNo) {a : Nat}
    (ha : stackBase ≤ a) (hlt : a < physBase) : s.userByte a = some (true, m a) := by
  have hu : isUserVaddr a = true := decide_eq_true hlt
  have hadd : stackBase + pgOfs a = a := by
    simp only [pgOfs, stackBase, physBase, pgSize] at *
    omega
  rw [h.userByte hu, (stackNo_iff hu).mpr ha, hV, stackView, if_pos rfl]
  show some (true, m (stackBase + pgOfs a)) = _
  rw [hadd]

/-- The stack is still there when the segments are loaded. -/
theorem Loaded.stack_byte (h : Loaded s0 s pd words stale f eip esp L m V) {a : Nat}
    (ha : stackBase ≤ a) (hlt : a < physBase) : s.userByte a = some (true, m a) := by
  obtain ⟨hkeep, -, -⟩ := headersView_some h.view
  have hstack : stackView m stackNo ≠ none := by simp [stackView]
  exact h.loading.stack_byte (hkeep stackNo hstack) ha hlt

/-- **What a new process sees of the past.** Two loads of the same executable with the same command
line give the same stack pointer and the same user memory if and only if the pointers that lie
behind the command line in `arguments`, up to the first null pointer, and the word that lies behind
the last element of `argv` are the same. -/
theorem load_agree_iff {s t s' t' : Vm} {x : CString} {words : List CString} {stale stale' : Stale}
    {f : Image} {eip esp eip' esp' : Nat} (hs : Boot s) (ht : Boot t)
    (h : load (x :: words) stale (some f) s = .ok (some (eip, esp), s'))
    (h' : load (x :: words) stale' (some f) t = .ok (some (eip', esp'), t')) :
    (esp = esp' ∧ ∀ a, isUserVaddr a = true → s'.userByte a = t'.userByte a) ↔
      stale.behind (words.length + 1) = stale'.behind (words.length + 1) ∧
      stale.argv (words.length + 1 + (stale.behind (words.length + 1)).length) =
        stale'.argv (words.length + 1 + (stale.behind (words.length + 1)).length) := by
  rcases (load_spec hs).ok h with ⟨hr, -, -⟩ | ⟨pd, -, hr⟩
  · cases hr
  rcases (load_spec ht).ok h' with ⟨hr', -, -⟩ | ⟨pd', -, hr'⟩
  · cases hr'
  obtain ⟨f1, L, m, V, hf, hl⟩ := hr eip esp rfl
  cases hf
  obtain ⟨f2, L', m', V', hf', hl'⟩ := hr' eip' esp' rfl
  cases hf'
  obtain ⟨hL, hlen⟩ := hl.found
  obtain ⟨hL', hlen'⟩ := hl'.found
  rw [List.length_cons] at hL hL' hlen hlen'
  rw [← hlen]
  -- the strings are those of the command line and those found behind it
  have hiff : L = L' ↔ stale.behind (words.length + 1) = stale'.behind (words.length + 1) := by
    constructor
    · rintro rfl
      rw [hL] at hL'
      exact List.append_cancel_left hL'
    · intro hb
      rw [hb, ← hL'] at hL
      exact List.map_injective_iff.mpr (fun _ _ he => Word.str.inj he) hL
  rw [← hiff]
  have hst := hl.stack
  have hst' := hl'.stack
  constructor
  · rintro ⟨rfl, hbytes⟩
    have hm : ∀ k, stackBase ≤ k → k < physBase → m k = m' k := by
      intro k h1 h2
      have := hbytes k (decide_eq_true h2)
      rw [hl.stack_byte h1 h2, hl'.stack_byte h1 h2] at this
      simpa using this
    obtain ⟨rfl, hw⟩ := (stackImage_stack hst).inj (stackImage_stack hst') hm
    exact ⟨rfl, hw⟩
  · rintro ⟨rfl, hw⟩
    rw [← hw, hst] at hst'
    cases hst'
    have hV := hl.view
    rw [hl'.view] at hV
    cases hV
    refine ⟨rfl, fun a hu => ?_⟩
    rw [hl.loading.userByte hu, hl'.loading.userByte hu]

end

/-- Null pointers behind the command line, and the same word behind `argv`. -/
theorem tinyElf_agree : ∃ (s' t' : Vm) (esp : Nat),
    load [echo] (nullStale fun _ => 7) (some tinyElf)
      (bootVm [some 1, some 0, some 2, some 1, some 3]) = .ok (some (0x08048054, esp), s') ∧
    load [echo] (nullStale fun i => if i = 1 then 7 else 8) (some tinyElf)
      (bootVm [some 1, some 0, some 2, some 1, some 3]) = .ok (some (0x08048054, esp), t') ∧
    ∀ a, isUserVaddr a = true → s'.userByte a = t'.userByte a := by
  obtain ⟨s', h⟩ := tinyElf_loads fun _ => 7
  obtain ⟨t', h'⟩ := tinyElf_loads fun i => if i = 1 then 7 else 8
  have hagree := (load_agree_iff (bootVm_boot _) (bootVm_boot _) h h').mpr ⟨rfl, rfl⟩
  exact ⟨s', t', _, h, h', hagree.2⟩

/-- The word behind the last element of `argv` is what was on the kernel stack. -/
theorem tinyElf_differs : ∃ (s' t' : Vm) (esp a : Nat),
    load [echo] (nullStale fun _ => 0) (some tinyElf)
      (bootVm [some 1, some 0, some 2, some 1, some 3]) = .ok (some (0x08048054, esp), s') ∧
    load [echo] (nullStale fun _ => 1) (some tinyElf)
      (bootVm [some 1, some 0, some 2, some 1, some 3]) = .ok (some (0x08048054, esp), t') ∧
    isUserVaddr a = true ∧ s'.userByte a ≠ t'.userByte a := by
  obtain ⟨s', h⟩ := tinyElf_loads fun _ => 0
  obtain ⟨t', h'⟩ := tinyElf_loads fun _ => 1
  -- the last word that `setup_stack` pushes is the word
  have hword : ∀ (w : UInt32) (s : Vm), load [echo] (nullStale fun _ => w) (some tinyElf)
      (bootVm [some 1, some 0, some 2, some 1, some 3]) = .ok (some (0x08048054, 0xbfffffe4), s) →
      ∃ m : Buffer, (∀ k < 4, s.userByte (0xbfffffe4 + k) = some (true, m (0xbfffffe4 + k))) ∧
        load32 m 0xbfffffe4 = w.toNat := by
    intro w s hload
    rcases (load_spec (bootVm_boot _)).ok hload with ⟨hr, -, -⟩ | ⟨pd, -, hr⟩
    · cases hr
    obtain ⟨f, L, m, V, hf, hl⟩ := hr _ _ rfl
    refine ⟨m, fun k hk => hl.stack_byte ?_ ?_, (stackImage_stack hl.stack).sentinel⟩
    · simp only [stackBase, physBase, pgSize]
      omega
    · simp only [physBase]
      omega
  obtain ⟨m, hm, hw⟩ := hword 0 s' h
  obtain ⟨m', hm', hw'⟩ := hword 1 t' h'
  by_contra hno
  push Not at hno
  have heq : load32 m 0xbfffffe4 = load32 m' 0xbfffffe4 := by
    refine load32_congr fun k hk => ?_
    have hbyte := hno s' t' _ (0xbfffffe4 + k) h h' (decide_eq_true (by simp only [physBase]; omega))
    rw [hm k hk, hm' k hk] at hbyte
    simpa using hbyte
  rw [hw, hw'] at heq
  cases heq

end Pintos.Userprog.Loader
