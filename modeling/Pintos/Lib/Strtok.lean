import Pintos.Base.MaximalRuns
import Pintos.Lib.ByteMemory

/-!
# Tokens of a string (lib/string.c)

`strtok_r` keeps its place in a pointer between the calls and writes a terminator behind each token.
The loops take a bound on their rounds. The variable that `save_ptr` points to is an argument and
part of the result.
-/

namespace Pintos.Lib

open Pintos.Base

/-- The loop of `strchr`, at most `n` times; a null pointer says that there is no `c`. -/
def strchrLoop (c : UInt8) : (n : Nat) → (string : Nat) → RamM Nat
  | 0, _ => throw .unfinished
  | n + 1, string => do
    let b ← load string
    if b = c then pure string
    else if b = 0 then pure 0
    else strchrLoop c n (ptrAdd string 1)

def strchr (n string : Nat) (c : UInt8) : RamM Nat := do
  assertThat (string != 0)
  strchrLoop c n string

/-- The loop over delimiters, at most `k` times: where it ends, and whether that is at the terminator. -/
def skipDelimiters (n delimiters : Nat) : (k : Nat) → (s : Nat) → RamM (Nat × Bool)
  | 0, _ => throw .unfinished
  | k + 1, s => do
    let b ← load s
    let d ← strchr n delimiters b
    if d = 0 then pure (s, false)
    else do
      let b ← load s
      if b = 0 then pure (s, true) else skipDelimiters n delimiters k (ptrAdd s 1)

/-- The loop over other characters, at most `k` times. -/
def skipToken (n delimiters : Nat) : (k : Nat) → (s : Nat) → RamM Nat
  | 0, _ => throw .unfinished
  | k + 1, s => do
    let b ← load s
    let d ← strchr n delimiters b
    if d = 0 then skipToken n delimiters k (ptrAdd s 1) else pure s

/-- `strtok_r`: the token, or a null pointer, and the new `*save_ptr`. -/
def strtokR (n s delimiters savePtr : Nat) : RamM (Nat × Nat) := do
  assertThat (delimiters != 0)
  let s := if s = 0 then savePtr else s
  assertThat (s != 0)
  let (s, ended) ← skipDelimiters n delimiters n s
  if ended then pure (0, s)
  else do
    let token := s
    let s ← skipToken n delimiters n s
    let b ← load s
    if b = 0 then pure (token, s)
    else do
      store s 0
      pure (token, ptrAdd s 1)

/-- The calls of `strtok_r` up to the first null pointer, at most `k` of them: the tokens, and
`*save_ptr` at the end. -/
def tokenize (n delimiters : Nat) : (k : Nat) → (s savePtr : Nat) → RamM (List Nat × Nat)
  | 0, _, _ => throw .unfinished
  | k + 1, s, savePtr => do
    let (token, savePtr) ← strtokR n s delimiters savePtr
    if token = 0 then pure ([], savePtr)
    else do
      let (tokens, savePtr) ← tokenize n delimiters k 0 savePtr
      pure (token :: tokens, savePtr)

/-- The string `chars` is at `p`. -/
structure StringAt (m : Ram) (p : Nat) (chars : List UInt8) : Prop where
  bytes : BytesAt m p (chars ++ [0])
  no_nul : 0 ∉ chars

section

variable {m m' : Ram} {p d n k : Nat} {c : UInt8} {chars delims ds w rest : List UInt8}

theorem StringAt.ne_null (h : StringAt m p chars) : p ≠ 0 := by
  have h0 := h.bytes 0 (by simp)
  exact Nat.ne_of_gt (m.range p (by rw [Nat.add_zero] at h0; rw [h0]; rfl)).1

theorem StringAt.congr (h : StringAt m p chars) (hm : ∀ i ≤ chars.length, m'.byte (p + i) = m.byte (p + i)) :
    StringAt m' p chars := by
  refine ⟨h.bytes.congr fun i hi => hm i ?_, h.no_nul⟩
  rw [List.length_append, List.length_singleton] at hi
  omega

/-- The pointer behind a byte that is not the last one. -/
theorem BytesAt.next (h : BytesAt m p (c :: chars)) (hne : chars ≠ []) : ptrAdd p 1 = p + 1 := by
  have hlen := List.length_pos_iff.mpr hne
  have h1 := h 1 (Nat.succ_lt_succ hlen)
  exact ptrAdd_eq (by rw [h1]; rfl)

theorem strchrLoop_run (h : BytesAt m p (chars ++ [0])) (hz : 0 ∉ chars) (hn : chars.length < n) :
    ∃ r, strchrLoop c n p m = .ok (r, m) ∧ (r = 0 ↔ c ∉ chars ∧ c ≠ 0) := by
  induction chars generalizing p n with
  | nil =>
    obtain ⟨n, rfl⟩ := Nat.exists_eq_add_one.mpr hn
    have h0 := h.head
    have hp : p ≠ 0 := Nat.ne_of_gt (m.range p (by rw [h0]; rfl)).1
    by_cases hc : 0 = c
    · subst hc
      refine ⟨p, ?_, iff_of_false hp fun hc => hc.2 rfl⟩
      rw [strchrLoop, bind_run, load_run h0, ok_bind, if_pos rfl]
      rfl
    · refine ⟨0, ?_, iff_of_true rfl ⟨List.not_mem_nil, fun he => hc he.symm⟩⟩
      rw [strchrLoop, bind_run, load_run h0, ok_bind, if_neg hc, if_pos rfl]
      rfl
  | cons b chars ih =>
    obtain ⟨n, rfl⟩ := Nat.exists_eq_add_one.mpr (Nat.lt_of_le_of_lt (Nat.zero_le _) hn)
    have h0 := h.head
    have hp : p ≠ 0 := Nat.ne_of_gt (m.range p (by rw [h0]; rfl)).1
    have hb : b ≠ 0 := fun he => hz (he ▸ List.mem_cons_self)
    by_cases hc : b = c
    · subst hc
      refine ⟨p, ?_, iff_of_false hp fun hc => hc.1 List.mem_cons_self⟩
      rw [strchrLoop, bind_run, load_run h0, ok_bind, if_pos rfl]
      rfl
    · obtain ⟨r, hrun, hr⟩ := ih h.tail (fun hm => hz (List.mem_cons_of_mem b hm)) (Nat.lt_of_succ_lt_succ hn)
      refine ⟨r, ?_, ?_⟩
      · rw [strchrLoop, bind_run, load_run h0, ok_bind, if_neg hc, if_neg hb, h.next (by simp)]
        exact hrun
      · rw [hr, List.mem_cons, not_or]
        exact ⟨fun hm => ⟨⟨fun he => hc he.symm, hm.1⟩, hm.2⟩, fun hm => ⟨hm.1.2, hm.2⟩⟩

/-- **`strchr`** finds the characters of the string and its terminator. -/
theorem strchr_run (hd : StringAt m d delims) (hn : delims.length < n) (c : UInt8) :
    ∃ r, strchr n d c m = .ok (r, m) ∧ (r = 0 ↔ c ∉ delims ∧ c ≠ 0) := by
  obtain ⟨r, hrun, hr⟩ := strchrLoop_run (c := c) hd.bytes hd.no_nul hn
  refine ⟨r, ?_, hr⟩
  rw [strchr, bind_run, assertThat_run m (by simpa using hd.ne_null), ok_bind]
  exact hrun

section

variable (hd : StringAt m d delims) (hn : delims.length < n)
include hd hn

/-- The loop over the delimiters `ds`, up to a character that is none. -/
theorem skipDelimiters_run (h : BytesAt m p (ds ++ c :: rest)) (hds : ∀ b ∈ ds, b ∈ delims)
    (hc : c ∉ delims) (hk : ds.length < k) :
    skipDelimiters n d k p m = .ok ((p + ds.length, decide (c = 0)), m) := by
  induction ds generalizing p k with
  | nil =>
    obtain ⟨k, rfl⟩ := Nat.exists_eq_add_one.mpr hk
    obtain ⟨r, hrun, hr⟩ := strchr_run hd hn c
    have h0 := h.head
    by_cases hz : c = 0
    · have hne : r ≠ 0 := fun he => (hr.mp he).2 hz
      rw [skipDelimiters, bind_run, load_run h0, ok_bind, bind_run, hrun, ok_bind, if_neg hne, bind_run,
        load_run h0, ok_bind, if_pos hz, decide_eq_true hz]
      rfl
    · rw [skipDelimiters, bind_run, load_run h0, ok_bind, bind_run, hrun, ok_bind, if_pos (hr.mpr ⟨hc, hz⟩),
        decide_eq_false hz]
      rfl
  | cons b ds ih =>
    obtain ⟨k, rfl⟩ := Nat.exists_eq_add_one.mpr (Nat.lt_of_le_of_lt (Nat.zero_le _) hk)
    obtain ⟨r, hrun, hr⟩ := strchr_run hd hn b
    have h0 := h.head
    have hb : b ∈ delims := hds b List.mem_cons_self
    have hne : r ≠ 0 := fun he => (hr.mp he).1 hb
    have hbz : b ≠ 0 := fun he => hd.no_nul (he ▸ hb)
    have hrest := ih h.tail (fun x hx => hds x (List.mem_cons_of_mem b hx)) (Nat.lt_of_succ_lt_succ hk)
    rw [skipDelimiters, bind_run, load_run h0, ok_bind, bind_run, hrun, ok_bind, if_neg hne, bind_run,
      load_run h0, ok_bind, if_neg hbz, h.next (by simp), hrest, List.length_cons, Nat.add_right_comm]
    rfl

/-- The loop over the characters `w` of a token, up to a delimiter or the terminator. -/
theorem skipToken_run (h : BytesAt m p (w ++ c :: rest)) (hw : ∀ b ∈ w, b ∉ delims) (hz : 0 ∉ w)
    (hc : c ∈ delims ∨ c = 0) (hk : w.length < k) : skipToken n d k p m = .ok (p + w.length, m) := by
  induction w generalizing p k with
  | nil =>
    obtain ⟨k, rfl⟩ := Nat.exists_eq_add_one.mpr hk
    obtain ⟨r, hrun, hr⟩ := strchr_run hd hn c
    have h0 := h.head
    have hne : r ≠ 0 := fun he => hc.elim (hr.mp he).1 (hr.mp he).2
    rw [skipToken, bind_run, load_run h0, ok_bind, bind_run, hrun, ok_bind, if_neg hne]
    rfl
  | cons b w ih =>
    obtain ⟨k, rfl⟩ := Nat.exists_eq_add_one.mpr (Nat.lt_of_le_of_lt (Nat.zero_le _) hk)
    obtain ⟨r, hrun, hr⟩ := strchr_run hd hn b
    have h0 := h.head
    have hb : b ∉ delims := hw b List.mem_cons_self
    have hbz : b ≠ 0 := fun he => hz (he ▸ List.mem_cons_self)
    have hrest := ih h.tail (fun x hx => hw x (List.mem_cons_of_mem b hx))
      (fun hm => hz (List.mem_cons_of_mem b hm)) (Nat.lt_of_succ_lt_succ hk)
    rw [skipToken, bind_run, load_run h0, ok_bind, bind_run, hrun, ok_bind, if_pos (hr.mpr ⟨hb, hbz⟩), h.next (by simp),
      hrest, List.length_cons, Nat.add_right_comm]
    rfl

/-! ## One call -/

variable {s savePtr : Nat}

theorem strtokR_skip (hs : (if s = 0 then savePtr else s) = p) (hp : p ≠ 0)
    (h : BytesAt m p (ds ++ c :: rest)) (hds : ∀ b ∈ ds, b ∈ delims) (hc : c ∉ delims) (hk : ds.length < n) :
    strtokR n s d savePtr m = (if c = 0 then pure (0, p + ds.length)
      else do
        let s ← skipToken n d n (p + ds.length)
        let b ← load s
        if b = 0 then pure (p + ds.length, s)
        else do
          store s 0
          pure (p + ds.length, ptrAdd s 1) : RamM (Nat × Nat)) m := by
  have hskip := skipDelimiters_run hd hn h hds hc hk
  rw [strtokR, bind_run, assertThat_run m (by simpa using hd.ne_null), ok_bind]
  simp only [hs]
  rw [bind_run, assertThat_run m (by simpa using hp), ok_bind, bind_run, hskip, ok_bind]
  by_cases hz : c = 0
  · simp only [hz, decide_true, ↓reduceIte]
  · simp only [hz, decide_false, Bool.false_eq_true, ↓reduceIte]

/-- Only delimiters are left: a null pointer. -/
theorem strtokR_null (hs : (if s = 0 then savePtr else s) = p) (h : StringAt m p ds)
    (hds : ∀ b ∈ ds, b ∈ delims) (hk : ds.length < n) :
    strtokR n s d savePtr m = .ok ((0, p + ds.length), m) := by
  rw [strtokR_skip hd hn hs h.ne_null h.bytes hds hd.no_nul hk, if_pos rfl]
  rfl

/-- The last token, with the terminator of the string behind it. -/
theorem strtokR_last (hs : (if s = 0 then savePtr else s) = p) (h : StringAt m p (ds ++ w))
    (hds : ∀ b ∈ ds, b ∈ delims) (hw : ∀ b ∈ w, b ∉ delims) (hne : w ≠ []) (hk : (ds ++ w).length < n) :
    strtokR n s d savePtr m = .ok ((p + ds.length, p + ds.length + w.length), m) := by
  obtain ⟨c, w', hcw⟩ := List.exists_cons_of_ne_nil hne
  have hz : 0 ∉ w := fun hm => h.no_nul (List.mem_append_right ds hm)
  have hcz : c ≠ 0 := fun he => hz (by rw [hcw, he]; exact List.mem_cons_self)
  rw [List.length_append] at hk
  have hbytes := h.bytes
  rw [List.append_assoc] at hbytes
  have hfirst : BytesAt m p (ds ++ c :: (w' ++ [0])) := by
    rw [hcw] at hbytes
    exact hbytes
  have hword : BytesAt m (p + ds.length) (w ++ 0 :: []) := hbytes.append.2
  have hskip := skipToken_run hd hn hword hw hz (.inr rfl) (k := n) (by omega)
  have hend : m.byte (p + ds.length + w.length) = some 0 := hbytes.append.2.append.2.head
  rw [strtokR_skip hd hn hs h.ne_null hfirst hds (hw c (by rw [hcw]; exact List.mem_cons_self)) (by omega),
    if_neg hcz, bind_run, hskip, ok_bind, bind_run, load_run hend, ok_bind, if_pos rfl]
  rfl

/-- A token with a delimiter behind it, which becomes its terminator. -/
theorem strtokR_token (hs : (if s = 0 then savePtr else s) = p) (h : StringAt m p (ds ++ (w ++ c :: rest)))
    (hds : ∀ b ∈ ds, b ∈ delims) (hw : ∀ b ∈ w, b ∉ delims) (hne : w ≠ []) (hc : c ∈ delims)
    (hk : (ds ++ (w ++ c :: rest)).length < n) :
    strtokR n s d savePtr m =
      .ok ((p + ds.length, p + ds.length + w.length + 1), m.set (p + ds.length + w.length) 0) := by
  obtain ⟨b, w', hbw⟩ := List.exists_cons_of_ne_nil hne
  have hz : 0 ∉ w := fun hm => h.no_nul (List.mem_append_right ds (List.mem_append_left _ hm))
  have hbz : b ≠ 0 := fun he => hz (by rw [hbw, he]; exact List.mem_cons_self)
  have hcz : c ≠ 0 := fun he => hd.no_nul (he ▸ hc)
  simp only [List.length_append, List.length_cons] at hk
  have hbytes := h.bytes
  rw [List.append_assoc, List.append_assoc, List.cons_append] at hbytes
  have hfirst : BytesAt m p (ds ++ b :: (w' ++ c :: (rest ++ [0]))) := by
    rw [hbw] at hbytes
    exact hbytes
  have hskip := skipToken_run hd hn hbytes.append.2 hw hz (.inl hc) (k := n) (by omega)
  have hend : BytesAt m (p + ds.length + w.length) (c :: (rest ++ [0])) := hbytes.append.2.append.2
  have hnext : ptrAdd (p + ds.length + w.length) 1 = p + ds.length + w.length + 1 := hend.next (by simp)
  have hstore : store (p + ds.length + w.length) 0 m = .ok ((), m.set (p + ds.length + w.length) 0) :=
    store_run (by rw [hend.head]; rfl) 0
  rw [strtokR_skip hd hn hs h.ne_null hfirst hds (hw b (by rw [hbw]; exact List.mem_cons_self)) (by omega),
    if_neg hbz, bind_run, hskip, ok_bind, bind_run, load_run hend.head, ok_bind, if_neg hcz, bind_run, hstore,
    ok_bind, hnext]
  rfl

/-- **A call** that finds a token: where it is, what is left of the string, and the one byte that it
may change. -/
theorem strtokR_first (hs : (if s = 0 then savePtr else s) = p) (h : StringAt m p (ds ++ (w ++ rest)))
    (hds : ∀ b ∈ ds, b ∈ delims) (hw : ∀ b ∈ w, b ∉ delims) (hne : w ≠ []) (hrest : ∀ b ∈ rest.head?, b ∈ delims)
    (hk : (ds ++ (w ++ rest)).length < n) :
    ∃ m₁, strtokR n s d savePtr m =
        .ok ((p + ds.length, p + ds.length + w.length + (rest.take 1).length), m₁) ∧
      StringAt m₁ (p + ds.length) w ∧ StringAt m₁ (p + ds.length + w.length + (rest.take 1).length) rest.tail ∧
      ∀ q, m₁.byte q = m.byte q ∨ q = p + ds.length + w.length ∧ rest ≠ [] ∧ m₁.byte q = some 0 := by
  have hz : 0 ∉ w := fun hm => h.no_nul (List.mem_append_right ds (List.mem_append_left _ hm))
  have hbytes := h.bytes
  rw [List.append_assoc, List.append_assoc] at hbytes
  cases rest with
  | nil =>
    have h' : StringAt m p (ds ++ w) := by rwa [List.append_nil] at h
    refine ⟨m, strtokR_last hd hn hs h' hds hw hne (by rwa [List.append_nil] at hk), ⟨hbytes.append.2, hz⟩,
      ⟨?_, List.not_mem_nil⟩, fun _ => .inl rfl⟩
    exact hbytes.append.2.append.2
  | cons c rest =>
    have hzr : 0 ∉ rest := fun hm =>
      h.no_nul (List.mem_append_right ds (List.mem_append_right w (List.mem_cons_of_mem c hm)))
    have hend : BytesAt m (p + ds.length + w.length) (c :: (rest ++ [0])) := hbytes.append.2.append.2
    have hself : (m.set (p + ds.length + w.length) 0).byte (p + ds.length + w.length) = some 0 :=
      byte_set_self (by rw [hend.head]; rfl)
    refine ⟨_, strtokR_token hd hn hs h hds hw hne (hrest c rfl) hk, ⟨?_, hz⟩, ⟨?_, hzr⟩, fun q => ?_⟩
    · have hbefore : BytesAt (m.set (p + ds.length + w.length) 0) (p + ds.length) w :=
        hbytes.append.2.append.1.congr fun i hi => byte_set_of_ne (by omega)
      refine hbefore.join fun i hi => ?_
      obtain rfl : i = 0 := by simpa using hi
      exact hself
    · show BytesAt _ (p + ds.length + w.length + 1) (rest ++ [0])
      exact hend.tail.congr fun i hi => byte_set_of_ne (by omega)
    · by_cases hq : q = p + ds.length + w.length
      · exact .inr ⟨hq, List.cons_ne_nil c rest, hq ▸ hself⟩
      · exact .inl (byte_set_of_ne hq)

end

/-! ## All calls -/

/-- A string is delimiters only, or ends in its first token, or has a delimiter behind it. -/
theorem first_token (delims l : List UInt8) :
    (∀ b ∈ l, b ∈ delims) ∨
    ∃ ds w rest, l = ds ++ (w ++ rest) ∧ (∀ b ∈ ds, b ∈ delims) ∧ (∀ b ∈ w, b ∉ delims) ∧ w ≠ [] ∧
      ∀ b ∈ rest.head?, b ∈ delims := by
  obtain ⟨ds, v, rfl, hds, hv⟩ := exists_prefix (· ∈ delims) l
  obtain ⟨w, rest, rfl, hw, hrest⟩ := exists_prefix (· ∉ delims) v
  have hrest' : ∀ b ∈ rest.head?, b ∈ delims := fun b hb => not_not.mp (hrest b hb)
  cases w with
  | cons c w => exact .inr ⟨ds, c :: w, rest, rfl, hds, hw, List.cons_ne_nil c w, hrest'⟩
  | nil =>
    cases rest with
    | nil => exact .inl (by simpa using hds)
    | cons c rest => exact absurd (hrest' c rfl) (hv c rfl)

/-- What the calls from the position `o` of the string at `p` return and leave in memory. -/
structure Tokenized (m m' : Ram) (p o : Nat) (chars delims : List UInt8) (runs : List (Nat × Nat)) : Prop where
  maximal : ∀ a b, (a, b) ∈ runs ↔ MaximalRun (· ∉ delims) chars a b ∧ o ≤ a
  order : runs.Pairwise fun x y => x.2 < y.1
  token : ∀ a b, (a, b) ∈ runs → StringAt m' (p + a) ((chars.take b).drop a)
  frame : ∀ q, m'.byte q = m.byte q ∨
    ∃ i c, q = p + i ∧ o ≤ i ∧ chars[i]? = some c ∧ c ∈ delims ∧ m'.byte q = some 0

/-- Nothing but delimiters behind the position. -/
theorem Tokenized.nil {pre : List UInt8} (hds : ∀ b ∈ ds, b ∈ delims) :
    Tokenized m m p pre.length (pre ++ ds) delims [] where
  maximal a b := by
    refine iff_of_false List.not_mem_nil fun ⟨h, ha⟩ => ?_
    have h' : MaximalRun (· ∉ delims) (pre ++ (ds ++ [])) a b := by rwa [List.append_nil]
    have hskip := h'.skip (fun c hc hn => hn (hds c hc)) ha
    have hend := h.le_length
    have := h.nonempty
    rw [List.length_append] at hend
    omega
  order := .nil
  token _ _ h := absurd h List.not_mem_nil
  frame _ := .inl rfl

/-- **A token** in front of the others. Its terminator is the one of the string or was a delimiter. -/
theorem Tokenized.cons {m₁ : Ram} {pre : List UInt8} {o : Nat} {runs : List (Nat × Nat)}
    (hpre : ∀ b ∈ (pre ++ ds).getLast?, b ∈ delims) (hds : ∀ b ∈ ds, b ∈ delims) (hw : ∀ b ∈ w, b ∉ delims)
    (hne : w ≠ []) (hrest : ∀ b ∈ rest.head?, b ∈ delims)
    (ho : o = (pre ++ ds).length + w.length + min 1 rest.length)
    (hstr : StringAt m₁ (p + (pre ++ ds).length) w)
    (hframe : ∀ q, m₁.byte q = m.byte q ∨ q = p + ((pre ++ ds).length + w.length) ∧ rest ≠ [] ∧ m₁.byte q = some 0)
    (ht : Tokenized m₁ m' p o (pre ++ (ds ++ (w ++ rest))) delims runs) :
    Tokenized m m' p pre.length (pre ++ (ds ++ (w ++ rest))) delims
      (((pre ++ ds).length, (pre ++ ds).length + w.length) :: runs) := by
  have hassoc : pre ++ (ds ++ (w ++ rest)) = (pre ++ ds) ++ (w ++ rest) := (List.append_assoc ..).symm
  have hlen : (pre ++ ds).length = pre.length + ds.length := List.length_append
  have hnot : ∀ b ∈ ds, ¬ b ∉ delims := fun b hb hn => hn (hds b hb)
  have hrest' : ∀ b ∈ rest.head?, ¬ b ∉ delims := fun b hb hn => hn (hrest b hb)
  have htotal : (pre ++ (ds ++ (w ++ rest))).length = (pre ++ ds).length + w.length + rest.length := by
    simp only [List.length_append]
    omega
  -- a run that begins at or behind the next position is inside the rest
  have hbehind : ∀ a b, (a, b) ∈ runs → (pre ++ ds).length + w.length < a := by
    intro a b hab
    obtain ⟨hrun, ha⟩ := (ht.maximal a b).mp hab
    have hend := hrun.le_length
    have := hrun.nonempty
    omega
  refine ⟨fun a b => ⟨fun hab => ?_, fun ⟨hrun, ha⟩ => ?_⟩, ?_, fun a b hab => ?_, fun q => ?_⟩
  · rcases List.mem_cons.mp hab with heq | hab
    · cases heq
      refine ⟨?_, by omega⟩
      rw [hassoc]
      exact maximalRun_here (fun b hb hn => hn (hpre b hb)) hw hne hrest'
    · exact ⟨((ht.maximal a b).mp hab).1, by have := hbehind a b hab; omega⟩
  · have hskip := hrun.skip hnot ha
    rw [hassoc] at hrun
    rcases hrun.first hw hrest' (by omega) with ⟨rfl, rfl⟩ | hle
    · exact List.mem_cons_self
    · refine List.mem_cons_of_mem _ ((ht.maximal a b).mpr ⟨by rwa [hassoc], ?_⟩)
      cases rest with
      | nil => simpa [ho] using hle
      | cons c rest =>
        have hsplit : (pre ++ ds) ++ (w ++ c :: rest) = ((pre ++ ds) ++ w) ++ ([c] ++ rest) := by simp
        rw [hsplit] at hrun
        have hskip' := hrun.skip (w := [c]) (fun b hb hn => hn (hrest b (by simpa using (List.mem_singleton.mp hb).symm)))
          (by rw [List.length_append]; exact hle)
        rw [List.length_append, List.length_singleton] at hskip'
        rw [ho, List.length_cons]
        omega
  · exact List.pairwise_cons.mpr ⟨fun y hy => hbehind y.1 y.2 hy, ht.order⟩
  · rcases List.mem_cons.mp hab with heq | hab
    · cases heq
      have hword : ((pre ++ (ds ++ (w ++ rest))).take ((pre ++ ds).length + w.length)).drop (pre ++ ds).length = w := by
        rw [hassoc, ← List.append_assoc, ← List.length_append, List.take_left, List.drop_left]
      rw [hword]
      refine hstr.congr fun i hi => ?_
      rcases ht.frame (p + (pre ++ ds).length + i) with heq | ⟨j, c, hq, hj, hc, -, -⟩
      · exact heq
      · have hjlen := (List.getElem?_eq_some_iff.mp hc).1
        omega
    · exact ht.token a b hab
  · rcases ht.frame q with hq | ⟨i, c, hq, hi, hc, hcd, h0⟩
    · rcases hframe q with hq' | ⟨rfl, hr, h0⟩
      · exact .inl (hq.trans hq')
      · obtain ⟨c, rest, rfl⟩ := List.exists_cons_of_ne_nil hr
        have hget : (((pre ++ ds) ++ w) ++ c :: rest)[((pre ++ ds) ++ w).length]? = some c := by
          rw [List.getElem?_append_right (Nat.le_refl _), Nat.sub_self]
          rfl
        rw [List.length_append] at hget
        refine .inr ⟨_, c, rfl, by omega, ?_, hrest c rfl, hq.trans h0⟩
        rwa [hassoc, ← List.append_assoc]
    · exact .inr ⟨i, c, hq, by omega, hc, hcd, h0⟩

theorem tokenize_null {s savePtr t : Nat} (h : strtokR n s d savePtr m = .ok ((0, t), m')) :
    tokenize n d (k + 1) s savePtr m = .ok (([], t), m') := by
  rw [tokenize, bind_run, h]
  rfl

theorem tokenize_token {s savePtr a t last : Nat} {ts : List Nat} {m₁ : Ram}
    (h : strtokR n s d savePtr m = .ok ((a, t), m₁)) (ha : a ≠ 0)
    (hts : tokenize n d k 0 t m₁ = .ok ((ts, last), m')) :
    tokenize n d (k + 1) s savePtr m = .ok ((a :: ts, last), m') := by
  rw [tokenize, bind_run, h]
  show (if a = 0 then pure ([], t) else do
    let (tokens, savePtr) ← tokenize n d k 0 t
    pure (a :: tokens, savePtr) : RamM (List Nat × Nat)) m₁ = _
  rw [if_neg ha, bind_run, hts]
  rfl

/-- The calls from a position on, where the string is as it was. -/
theorem tokenize_from {chars : List UInt8} {s savePtr : Nat} {pre l : List UInt8} (hd : StringAt m d delims)
    (hapart : ∀ i ≤ chars.length, ∀ j ≤ delims.length, p + i ≠ d + j) (hn : delims.length < n)
    (hcn : chars.length < n) (hchars : chars = pre ++ l) (hpre : l ≠ [] → ∀ b ∈ pre.getLast?, b ∈ delims)
    (h : StringAt m (p + pre.length) l) (hs : (if s = 0 then savePtr else s) = p + pre.length)
    (hk : l.length < k) :
    ∃ runs last m', tokenize n d k s savePtr m = .ok ((runs.map (p + ·.1), last), m') ∧
      Tokenized m m' p pre.length chars delims runs ∧ strtokR n 0 d last m' = .ok ((0, last), m') := by
  induction k generalizing m s savePtr pre l with
  | zero => omega
  | succ k ih =>
    have hlen : chars.length = pre.length + l.length := by rw [hchars, List.length_append]
    rcases first_token delims l with hall | ⟨ds, w, rest, rfl, hds, hw, hne, hrest⟩
    · have hend : StringAt m (p + pre.length + l.length) [] := ⟨h.bytes.append.2, List.not_mem_nil⟩
      refine ⟨[], p + pre.length + l.length, m, tokenize_null (strtokR_null hd hn hs h hall (by omega)),
        hchars ▸ .nil hall, ?_⟩
      have hsave : (if 0 = 0 then p + pre.length + l.length else 0) = p + pre.length + l.length := if_pos rfl
      have hnull := strtokR_null hd hn hsave hend (fun b hb => absurd hb List.not_mem_nil)
        (Nat.lt_of_le_of_lt (Nat.zero_le _) hn)
      exact hnull
    · obtain ⟨m₁, hcall, hword, hleft, hframe⟩ := strtokR_first hd hn hs h hds hw hne hrest (by omega)
      simp only [List.length_append] at hlen hk
      have hwlen := List.length_pos_iff.mpr hne
      have htail : rest = rest.take 1 ++ rest.tail := by rw [← List.drop_one, List.take_append_drop]
      have hd₁ : StringAt m₁ d delims := by
        refine hd.congr fun j hj => (hframe (d + j)).resolve_right fun hq => ?_
        exact hapart (pre.length + ds.length + w.length) (by omega) j hj (by omega)
      have hpos : p + pre.length + ds.length + w.length + (rest.take 1).length =
          p + (pre ++ ds ++ w ++ rest.take 1).length := by
        simp only [List.length_append]
        omega
      rw [hpos] at hleft hcall
      have hsplit : chars = (pre ++ ds ++ w ++ rest.take 1) ++ rest.tail := by
        rw [hchars, List.append_assoc _ _ rest.tail, ← htail]
        simp only [List.append_assoc]
      have hbound : rest.tail ≠ [] → ∀ b ∈ (pre ++ ds ++ w ++ rest.take 1).getLast?, b ∈ delims := by
        intro hr b hb
        obtain ⟨c, rest, rfl⟩ := List.exists_cons_of_ne_nil (fun he => hr (by rw [he]; rfl) : rest ≠ [])
        rw [List.take_succ_cons, List.take_zero, List.getLast?_concat] at hb
        cases hb
        exact hrest _ rfl
      have hpre' : ∀ b ∈ (pre ++ ds).getLast?, b ∈ delims := by
        intro b hb
        rw [List.getLast?_append] at hb
        rcases Option.or_eq_some_iff.mp hb with hb | ⟨-, hb⟩
        · exact hds b (List.mem_of_getLast? hb)
        · refine hpre (fun he => hne ?_) b hb
          exact (List.append_eq_nil_iff.mp (List.append_eq_nil_iff.mp he).2).1
      obtain ⟨runs, last, m', hrun, ht, hagain⟩ := ih hd₁ hsplit hbound hleft (if_pos rfl)
        (by rw [List.length_tail]; omega)
      have hfirst : p + pre.length + ds.length = p + (pre ++ ds).length := by
        rw [List.length_append, Nat.add_assoc]
      refine ⟨((pre ++ ds).length, (pre ++ ds).length + w.length) :: runs, last, m', ?_, ?_, hagain⟩
      · rw [List.map_cons, ← hfirst]
        exact tokenize_token hcall hword.ne_null hrun
      · rw [hchars] at ht ⊢
        refine ht.cons hpre' hds hw hne hrest ?_ (hfirst ▸ hword) fun q => ?_
        · simp only [List.length_append, List.length_take]
        · rw [← Nat.add_assoc, ← hfirst]
          exact hframe q

/-- **`strtok_r`**, called until it returns a null pointer, returns the maximal runs of other
characters, in order and with a terminator behind each, writes to delimiters of the string only, and
goes on returning a null pointer. The memory need have no other bytes than those of the two strings.
More rounds than there are characters are enough for every loop. -/
theorem strtok_tokens {chars : List UInt8} {s : Nat} (h : StringAt m s chars) (hd : StringAt m d delims)
    (hapart : ∀ i ≤ chars.length, ∀ j ≤ delims.length, s + i ≠ d + j) (hn : chars.length < n)
    (hdn : delims.length < n) (savePtr : Nat) :
    ∃ (runs : List (Nat × Nat)) (last : Nat) (m' : Ram),
      tokenize n d n s savePtr m = .ok ((runs.map (s + ·.1), last), m') ∧
      (∀ a b, (a, b) ∈ runs ↔ MaximalRun (· ∉ delims) chars a b) ∧
      (runs.Pairwise fun x y => x.2 < y.1) ∧
      (∀ a b, (a, b) ∈ runs → StringAt m' (s + a) ((chars.take b).drop a)) ∧
      (∀ q, m'.byte q = m.byte q ∨
        ∃ i c, q = s + i ∧ chars[i]? = some c ∧ c ∈ delims ∧ m'.byte q = some 0) ∧
      strtokR n 0 d last m' = .ok ((0, last), m') := by
  have hs : (if s = 0 then savePtr else s) = s := if_neg h.ne_null
  obtain ⟨runs, last, m', hrun, ht, hagain⟩ := tokenize_from hd hapart hdn hn (List.nil_append chars).symm
    (fun _ b hb => by cases hb) h hs hn
  refine ⟨runs, last, m', hrun, fun a b => ?_, ht.order, ht.token, fun q => ?_, hagain⟩
  · rw [ht.maximal]
    exact and_iff_left (Nat.zero_le a)
  · rcases ht.frame q with hq | ⟨i, c, hq, -, hc⟩
    · exact .inl hq
    · exact .inr ⟨i, c, hq, hc⟩

end

/-- The string " a b", and " " behind it. -/
def blankWords : Ram := Ram.ofList 16 [32, 97, 32, 98, 0, 32, 0] (by decide)

theorem blankWords_tokens : ∃ (runs : List (Nat × Nat)) (last : Nat) (m' : Ram), tokenize 8 21 8 16 0 blankWords =
      .ok ((runs.map (16 + ·.1), last), m') ∧ (1, 2) ∈ runs ∧ StringAt m' 17 [97] ∧
      strtokR 8 0 21 last m' = .ok ((0, last), m') := by
  have h : StringAt blankWords 16 [32, 97, 32, 98] := ⟨by decide, by decide⟩
  have hd : StringAt blankWords 21 [32] := ⟨by decide, by decide⟩
  obtain ⟨runs, last, m', hrun, hmax, -, htoken, -, hagain⟩ :=
    strtok_tokens (n := 8) h hd (by decide) (by decide) (by decide) 0
  have hmem : (1, 2) ∈ runs :=
    (hmax 1 2).mpr (@maximalRun_here _ (· ∉ [32]) [32] [97] [32, 98] (by simp) (by simp) (by simp) (by simp))
  exact ⟨runs, last, m', hrun, hmem, htoken 1 2 hmem, hagain⟩

end Pintos.Lib
