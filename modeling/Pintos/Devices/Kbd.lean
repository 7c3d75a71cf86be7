import Pintos.Base.Reach
import Pintos.Base.RingBuffer
import Pintos.Devices.Intq

/-!
# The keyboard (devices/kbd.c)

`keyboard_interrupt` and the keys it takes scancodes for. What comes in at the data port is a list of
bytes, of which a handler reads the first one or two.
-/

namespace Pintos.Devices.Kbd

open Pintos.Base

/-! ## The code -/

/-- `struct keymap`, of which the end of an array has none. -/
structure Keymap where
  firstScancode : Nat
  chars : List UInt8

def invariantKeymap : List Keymap :=
  [ ⟨0x01, [0x1b]⟩,
    ⟨0x0e, [0x08]⟩,
    -- "\tQWERTYUIOP"
    ⟨0x0f, [0x09, 0x51, 0x57, 0x45, 0x52, 0x54, 0x59, 0x55, 0x49, 0x4f, 0x50]⟩,
    ⟨0x1c, [0x0d]⟩,
    -- "ASDFGHJKL"
    ⟨0x1e, [0x41, 0x53, 0x44, 0x46, 0x47, 0x48, 0x4a, 0x4b, 0x4c]⟩,
    -- "ZXCVBNM"
    ⟨0x2c, [0x5a, 0x58, 0x43, 0x56, 0x42, 0x4e, 0x4d]⟩,
    -- "*"
    ⟨0x37, [0x2a]⟩,
    -- " "
    ⟨0x39, [0x20]⟩ ]

def unshiftedKeymap : List Keymap :=
  [ -- "1234567890-="
    ⟨0x02, [0x31, 0x32, 0x33, 0x34, 0x35, 0x36, 0x37, 0x38, 0x39, 0x30, 0x2d, 0x3d]⟩,
    -- "[]"
    ⟨0x1a, [0x5b, 0x5d]⟩,
    -- ";'`"
    ⟨0x27, [0x3b, 0x27, 0x60]⟩,
    -- "\\"
    ⟨0x2b, [0x5c]⟩,
    -- ",./"
    ⟨0x33, [0x2c, 0x2e, 0x2f]⟩ ]

def shiftedKeymap : List Keymap :=
  [ -- "!@#$%^&*()_+"
    ⟨0x02, [0x21, 0x40, 0x23, 0x24, 0x25, 0x5e, 0x26, 0x2a, 0x28, 0x29, 0x5f, 0x2b]⟩,
    -- "{}"
    ⟨0x1a, [0x7b, 0x7d]⟩,
    -- ":\"~"
    ⟨0x27, [0x3a, 0x22, 0x7e]⟩,
    -- "|"
    ⟨0x2b, [0x7c]⟩,
    -- "<>?"
    ⟨0x33, [0x3c, 0x3e, 0x3f]⟩ ]

def mapKey : List Keymap → Nat → Option UInt8
  | [], _ => none
  | k :: ks, scancode =>
    if k.firstScancode ≤ scancode ∧ scancode < k.firstScancode + k.chars.length then
      k.chars[scancode - k.firstScancode]?
    else mapKey ks scancode

/-- The variables of the shift keys. -/
inductive ShiftVar where
  | leftShift | rightShift | leftAlt | rightAlt | leftCtrl | rightCtrl
  deriving DecidableEq, Repr

/-- `shift_keys` -/
def shiftKeys : List (Nat × ShiftVar) :=
  [ (0x2a, .leftShift), (0x36, .rightShift), (0x38, .leftAlt), (0xe038, .rightAlt),
    (0x1d, .leftCtrl), (0xe01d, .rightCtrl) ]

/-- The state of kbd.c and the input buffer. -/
structure KbdState where
  down : ShiftVar → Bool
  capsLock : Bool
  keyCnt : Nat
  buffer : Intq

def tolower (c : UInt8) : UInt8 := if 0x41 ≤ c ∧ c ≤ 0x5a then c - 0x41 + 0x61 else c

/-- `input_full` -/
def inputFull (s : KbdState) : Bool := intqFull s.buffer

/-- `input_putc` for the buffer, past its ASSERTs. -/
def inputPutc (s : KbdState) (key : UInt8) : KbdState :=
  { s with buffer := (IntqCall.putc key).transfer s.buffer }

/-- What a press of an ordinary key adds to the buffer. -/
def typeChar (s : KbdState) (shift alt ctrl : Bool) (c : UInt8) : KbdState :=
  let c := if ctrl ∧ 0x40 ≤ c ∧ c < 0x60 then c - 0x40
    else if shift = s.capsLock then tolower c else c
  let c := if alt then c + 0x80 else c
  if inputFull s then s else inputPutc { s with keyCnt := s.keyCnt + 1 } c

/-- `keyboard_interrupt` from the scancode on. -/
def interpretKey (s : KbdState) (code : Nat) (release : Bool) : KbdState :=
  let shift := s.down .leftShift || s.down .rightShift
  let alt := s.down .leftAlt || s.down .rightAlt
  let ctrl := s.down .leftCtrl || s.down .rightCtrl
  if code = 0x3a then
    if release then s else { s with capsLock := !s.capsLock }
  else
    match (mapKey invariantKeymap code).or
      (if shift then mapKey shiftedKeymap code else mapKey unshiftedKeymap code) with
    | some c => if release then s else typeChar s shift alt ctrl c
    | none =>
      match shiftKeys.lookup code with
      | some v => { s with down := Function.update s.down v (!release) }
      | none => s

/-- `keyboard_interrupt`, with the bytes at the data port and what it leaves of them. -/
def keyboardInterrupt (s : KbdState) : List UInt8 → Option (KbdState × List UInt8)
  | [] => none
  | b :: bs =>
    if b = 0xe0 then
      match bs with
      | [] => none
      | b' :: bs =>
        let code := b.toNat <<< 8 ||| b'.toNat
        some (interpretKey s (code &&& 0xffffff7f) (code &&& 0x80 != 0), bs)
    else some (interpretKey s (b.toNat &&& 0xffffff7f) (b.toNat &&& 0x80 != 0), bs)

/-! ## Keys -/

/-- A key, by the number in its scancode, before which there may be the prefix 0xe0. -/
structure Key where
  ext : Bool
  code : Fin 128
  /-- With the bit for a release this would be the prefix. -/
  sound : ext = true ∨ code ≠ 0x60
  deriving DecidableEq

/-- What the keyboard sends for a press or a release. -/
def Key.scancode (k : Key) (release : Bool) : List UInt8 :=
  let b := UInt8.ofNat (if release then k.code.val + 0x80 else k.code.val)
  if k.ext then [0xe0, b] else [b]

def Key.number (k : Key) : Nat := (if k.ext then 0xe000 else 0) + k.code.val

/-- What is printed on a key. -/
inductive Legend where
  | letter (upper : UInt8)
  | symbol (plain shifted : UInt8)
  deriving DecidableEq, Repr

/-- The American layout, row by row. -/
def layout : List (Nat × Legend) :=
  [ (0x01, .symbol 0x1b 0x1b), (0x02, .symbol 0x31 0x21), (0x03, .symbol 0x32 0x40),
    (0x04, .symbol 0x33 0x23), (0x05, .symbol 0x34 0x24), (0x06, .symbol 0x35 0x25),
    (0x07, .symbol 0x36 0x5e), (0x08, .symbol 0x37 0x26), (0x09, .symbol 0x38 0x2a),
    (0x0a, .symbol 0x39 0x28), (0x0b, .symbol 0x30 0x29), (0x0c, .symbol 0x2d 0x5f),
    (0x0d, .symbol 0x3d 0x2b), (0x0e, .symbol 0x08 0x08),
    (0x0f, .symbol 0x09 0x09), (0x10, .letter 0x51), (0x11, .letter 0x57), (0x12, .letter 0x45),
    (0x13, .letter 0x52), (0x14, .letter 0x54), (0x15, .letter 0x59), (0x16, .letter 0x55),
    (0x17, .letter 0x49), (0x18, .letter 0x4f), (0x19, .letter 0x50), (0x1a, .symbol 0x5b 0x7b),
    (0x1b, .symbol 0x5d 0x7d), (0x1c, .symbol 0x0d 0x0d),
    (0x1e, .letter 0x41), (0x1f, .letter 0x53), (0x20, .letter 0x44), (0x21, .letter 0x46),
    (0x22, .letter 0x47), (0x23, .letter 0x48), (0x24, .letter 0x4a), (0x25, .letter 0x4b),
    (0x26, .letter 0x4c), (0x27, .symbol 0x3b 0x3a), (0x28, .symbol 0x27 0x22),
    (0x29, .symbol 0x60 0x7e), (0x2b, .symbol 0x5c 0x7c),
    (0x2c, .letter 0x5a), (0x2d, .letter 0x58), (0x2e, .letter 0x43), (0x2f, .letter 0x56),
    (0x30, .letter 0x42), (0x31, .letter 0x4e), (0x32, .letter 0x4d), (0x33, .symbol 0x2c 0x3c),
    (0x34, .symbol 0x2e 0x3e), (0x35, .symbol 0x2f 0x3f), (0x37, .symbol 0x2a 0x2a),
    (0x39, .symbol 0x20 0x20) ]

def Key.legend (k : Key) : Option Legend := if k.ext then none else layout.lookup k.code.val

def capsLockKey : Key := ⟨false, 0x3a, by decide⟩

/-- The key of a shift key variable. -/
def ShiftVar.key : ShiftVar → Key
  | .leftShift => ⟨false, 0x2a, by decide⟩
  | .rightShift => ⟨false, 0x36, by decide⟩
  | .leftAlt => ⟨false, 0x38, by decide⟩
  | .rightAlt => ⟨true, 0x38, by decide⟩
  | .leftCtrl => ⟨false, 0x1d, by decide⟩
  | .rightCtrl => ⟨true, 0x1d, by decide⟩

/-- Shift gives the upper symbol, and with caps lock it turns round the case of letters; Ctrl makes a
control character where there is one, and Alt sets the highest bit. -/
def Legend.char (l : Legend) (shift ctrl alt caps : Bool) : UInt8 :=
  let c := match l with
    | .letter u => if ctrl then u - 0x40 else if shift = caps then u + 0x20 else u
    | .symbol plain shifted =>
      let c := if shift then shifted else plain
      if ctrl ∧ 0x40 ≤ c ∧ c < 0x60 then c - 0x40 else c
  if alt then c + 0x80 else c

/-! ## The keyboard for its users -/

structure Keyboard where
  held : Key → Bool
  caps : Bool
  /-- Typed and not yet taken. -/
  pending : List UInt8
  taken : List UInt8

inductive KeyAct where
  | key (k : Key) (release : Bool)
  /-- `input_getc` -/
  | getc

namespace Keyboard

def start : Keyboard := ⟨fun _ => false, false, [], []⟩

/-- One of the two keys is held. -/
def holds (s : Keyboard) (l r : ShiftVar) : Bool := s.held l.key || s.held r.key

/-- The character that the key with this legend types now. -/
def char (s : Keyboard) (l : Legend) : UInt8 :=
  l.char (s.holds .leftShift .rightShift) (s.holds .leftCtrl .rightCtrl)
    (s.holds .leftAlt .rightAlt) s.caps

/-- A character is typed if there is room for it. -/
def type (s : Keyboard) (c : UInt8) : Keyboard :=
  if s.pending.length + 1 < intqBufsize then { s with pending := s.pending ++ [c] } else s

def act (s : Keyboard) : KeyAct → Keyboard
  | .key k release =>
    let s' := { s with held := Function.update s.held k (!release) }
    if release then s'
    else if k = capsLockKey then { s' with caps := !s.caps }
    else match k.legend with
      | some l => s'.type (s.char l)
      | none => s'
  | .getc => { s with pending := s.pending.drop 1, taken := s.taken ++ s.pending.take 1 }

end Keyboard

/-! ## Lookups -/

/-- The handler reads exactly what the keyboard has sent for a key. -/
theorem interrupt_scancode (s : KbdState) (k : Key) (release : Bool) (bs : List UInt8) :
    keyboardInterrupt s (k.scancode release ++ bs) = some (interpretKey s k.number release, bs) := by
  have hbits : ∀ code : Fin 128, ∀ release : Bool,
      let b := UInt8.ofNat (if release then code.val + 0x80 else code.val)
      (b.toNat &&& 0xffffff7f = code.val ∧ (b.toNat &&& 0x80 != 0) = release) ∧
      (code ≠ 0x60 → b ≠ 0xe0) ∧
      ((0xe0 : UInt8).toNat <<< 8 ||| b.toNat) &&& 0xffffff7f = 0xe000 + code.val ∧
      (((0xe0 : UInt8).toNat <<< 8 ||| b.toNat) &&& 0x80 != 0) = release := by decide
  obtain ⟨ext, code, sound⟩ := k
  obtain ⟨⟨h₁, h₂⟩, h₃, h₄, h₅⟩ := hbits code release
  cases ext with
  | false =>
    have hne := h₃ (sound.resolve_left Bool.false_ne_true)
    simp only [Key.scancode, Key.number, Bool.false_eq_true, if_false, List.cons_append, List.nil_append,
      keyboardInterrupt, if_neg hne, h₁, h₂, Nat.zero_add]
  | true =>
    simp only [Key.scancode, Key.number, if_true, List.cons_append, List.nil_append, keyboardInterrupt,
      h₄, h₅]

theorem number_capsLock (k : Key) : k.number = 0x3a ↔ k = capsLockKey := by
  have h : ∀ ext : Bool, ∀ code : Fin 128, (if ext then 0xe000 else 0) + code.val = 0x3a ↔
      ext = false ∧ code = 0x3a := by decide
  obtain ⟨ext, code, sound⟩ := k
  rw [Key.number, h, capsLockKey, Key.mk.injEq]

/-- What `map_key` finds for a legend. -/
def Legend.raw (l : Legend) (shift : Bool) : UInt8 :=
  match l with
  | .letter u => u
  | .symbol plain shifted => if shift then shifted else plain

theorem mapKey_legend (k : Key) (shift : Bool) :
    (mapKey invariantKeymap k.number).or
      (if shift then mapKey shiftedKeymap k.number else mapKey unshiftedKeymap k.number) =
      k.legend.map fun l => l.raw shift := by
  have h : ∀ ext : Bool, ∀ code : Fin 128, ∀ shift : Bool,
      let n := (if ext then 0xe000 else 0) + code.val
      (mapKey invariantKeymap n).or
        (if shift then mapKey shiftedKeymap n else mapKey unshiftedKeymap n) =
        (if ext then none else layout.lookup code.val).map fun l => l.raw shift := by decide
  exact h k.ext k.code shift

theorem lookup_shiftKeys (k : Key) (v : ShiftVar) : shiftKeys.lookup k.number = some v ↔ k = v.key := by
  have h : ∀ ext : Bool, ∀ code : Fin 128,
      shiftKeys.lookup ((if ext then 0xe000 else 0) + code.val) = some v ↔
        ext = v.key.ext ∧ code = v.key.code := by
    cases v <;> decide
  rw [Key.number, h]
  obtain ⟨ext, code, sound⟩ := k
  cases hv : v.key
  rw [Key.mk.injEq]

theorem shiftVar_legend (v : ShiftVar) : v.key.legend = none := by cases v <;> decide

theorem shiftVar_ne (v : ShiftVar) : v.key ≠ capsLockKey := by cases v <;> decide

theorem key_inj {v v' : ShiftVar} (h : v.key = v'.key) : v = v' := by
  revert h
  cases v <;> cases v' <;> decide

/-- The arithmetic of `keyboard_interrupt` on what `map_key` finds. -/
theorem legend_char {k : Key} {l : Legend} (hl : k.legend = some l) (shift ctrl alt caps : Bool) :
    (let c := l.raw shift
     let c := if ctrl ∧ 0x40 ≤ c ∧ c < 0x60 then c - 0x40 else if shift = caps then tolower c else c
     if alt then c + 0x80 else c) = l.char shift ctrl alt caps := by
  have h : ∀ e ∈ layout, ∀ shift ctrl alt caps : Bool,
      (let c := e.2.raw shift
       let c := if ctrl ∧ 0x40 ≤ c ∧ c < 0x60 then c - 0x40 else if shift = caps then tolower c else c
       if alt then c + 0x80 else c) = e.2.char shift ctrl alt caps := by decide
  unfold Key.legend at hl
  split at hl
  · cases hl
  · obtain ⟨before, behind, he, -⟩ := List.lookup_eq_some_iff.mp hl
    exact h (k.code.val, l) (he ▸ List.mem_append_right _ (List.mem_cons_self ..)) shift ctrl alt caps

/-! ## The two of them -/

/-- The keyboard has sent `events`, of which the bytes at the port have yet to be read. -/
structure KbdSys where
  kbd : KbdState
  port : List UInt8
  events : List (Key × Bool)
  got : List UInt8

inductive KbdAct where
  /-- A key is pressed, or held on, or released. -/
  | key (k : Key) (release : Bool)
  /-- `keyboard_interrupt` -/
  | interrupt
  /-- `input_getc`, when there is something in the buffer. -/
  | getc

def kbdStep (s : KbdSys) : KbdAct → Option KbdSys
  | .key k release =>
    some { s with port := s.port ++ k.scancode release, events := s.events ++ [(k, release)] }
  | .interrupt => (keyboardInterrupt s.kbd s.port).map fun (kbd, port) => { s with kbd, port }
  | .getc =>
    if intqEmpty s.kbd.buffer then none
    else some { s with
      kbd.buffer := IntqCall.getc.transfer s.kbd.buffer
      got := s.got ++ IntqCall.getc.result s.kbd.buffer }

/-- The driver knows of the keys that it matters for, and has in its buffer what was typed. -/
structure Knows (s : KbdState) (got : List UInt8) (K : Keyboard) : Prop where
  down : ∀ v, s.down v = K.held v.key
  caps : s.capsLock = K.caps
  buffer : Holds intqBufsize s.buffer.buf s.buffer.head s.buffer.tail K.pending
  got : got = K.taken

section

variable {s : KbdState} {got : List UInt8} {K : Keyboard}

theorem Knows.inputFull_iff (h : Knows s got K) :
    inputFull s = true ↔ ¬ K.pending.length + 1 < intqBufsize := by
  have hroom := h.buffer.room
  unfold inputFull intqFull next
  rw [decide_eq_true_iff, h.buffer.full_iff]
  omega

theorem Knows.type (h : Knows s got K) (c : UInt8) (n : Nat) :
    Knows (if inputFull s then s else inputPutc { s with keyCnt := n } c) got (K.type c) := by
  unfold Keyboard.type
  by_cases hroom : K.pending.length + 1 < intqBufsize
  · have hfull : ¬ inputFull s = true := fun hf => h.inputFull_iff.mp hf hroom
    rw [if_neg hfull, if_pos hroom]
    exact ⟨h.down, h.caps, h.buffer.push hroom c, h.got⟩
  · rw [if_pos (h.inputFull_iff.mpr hroom), if_neg hroom]
    exact h

/-- A key that is no shift key leaves them as they are. -/
theorem Knows.other (h : Knows s got K) {k : Key} (hk : ∀ v : ShiftVar, v.key ≠ k) (b : Bool) :
    Knows s got { K with held := Function.update K.held k b } :=
  ⟨fun v => (h.down v).trans (Function.update_of_ne (hk v) ..).symm, h.caps, h.buffer, h.got⟩

theorem Knows.shift (h : Knows s got K) (v : ShiftVar) (b : Bool) :
    Knows { s with down := Function.update s.down v b } got
      { K with held := Function.update K.held v.key b } := by
  refine ⟨fun v' => ?_, h.caps, h.buffer, h.got⟩
  show Function.update s.down v b v' = Function.update K.held v.key b v'.key
  by_cases hv : v' = v
  · subst hv
    rw [Function.update_self, Function.update_self]
  · rw [Function.update_of_ne hv, Function.update_of_ne fun hk => hv (key_inj hk), h.down]

theorem Knows.typeChar (h : Knows s got K) {k : Key} {l : Legend} (hl : k.legend = some l) :
    typeChar s (s.down .leftShift || s.down .rightShift) (s.down .leftAlt || s.down .rightAlt)
      (s.down .leftCtrl || s.down .rightCtrl) (l.raw (s.down .leftShift || s.down .rightShift)) =
    if inputFull s then s else inputPutc { s with keyCnt := s.keyCnt + 1 } (K.char l) := by
  have hchar : K.char l = l.char (s.down .leftShift || s.down .rightShift)
      (s.down .leftCtrl || s.down .rightCtrl) (s.down .leftAlt || s.down .rightAlt) s.capsLock := by
    unfold Keyboard.char Keyboard.holds
    rw [h.caps, h.down, h.down, h.down, h.down, h.down, h.down]
  rw [hchar, ← legend_char hl]
  rfl

/-- **An interrupt for a key.** -/
theorem Knows.interpretKey (h : Knows s got K) (k : Key) (release : Bool) :
    Knows (interpretKey s k.number release) got (K.act (.key k release)) := by
  unfold Kbd.interpretKey Keyboard.act
  by_cases hcaps : k = capsLockKey
  · have hother := h.other (k := k) (fun v hv => shiftVar_ne v (hv.trans hcaps)) (!release)
    simp only [if_pos ((number_capsLock k).mpr hcaps), if_pos hcaps]
    cases release with
    | true => exact hother
    | false => exact ⟨hother.down, congrArg (!·) hother.caps, hother.buffer, hother.got⟩
  · simp only [if_neg (mt (number_capsLock k).mp hcaps), if_neg hcaps, mapKey_legend]
    cases hl : k.legend with
    | some l =>
      have hother := h.other (k := k) (fun v hv => by
        rw [← hv, shiftVar_legend] at hl
        cases hl) (!release)
      cases release with
      | true => exact hother
      | false =>
        have htype := hother.type (K.char l) (s.keyCnt + 1)
        rw [← h.typeChar hl] at htype
        exact htype
    | none =>
      cases hv : shiftKeys.lookup k.number with
      | some v =>
        obtain rfl := (lookup_shiftKeys k v).mp hv
        have hshift := h.shift v (!release)
        cases release <;> exact hshift
      | none =>
        have hother := h.other (k := k) (fun v hk => by
          rw [(lookup_shiftKeys k v).mpr hk.symm] at hv
          cases hv) (!release)
        cases release <;> exact hother

theorem Knows.getc (h : Knows s got K) (hne : intqEmpty s.buffer = false) :
    Knows { s with buffer := IntqCall.getc.transfer s.buffer }
      (got ++ IntqCall.getc.result s.buffer) (K.act .getc) := by
  have hpend : K.pending ≠ [] := fun hp => by
    unfold intqEmpty at hne
    rw [decide_eq_false_iff_not, h.buffer.empty_iff] at hne
    exact hne hp
  obtain ⟨c, cs, hcs⟩ := List.exists_cons_of_ne_nil hpend
  obtain ⟨hc, hpop⟩ := (hcs ▸ h.buffer).pop
  refine ⟨h.down, h.caps, ?_, ?_⟩
  · show Holds _ _ _ (next s.buffer.tail) (K.pending.drop 1)
    rw [hcs]
    exact hpop
  · show got ++ [s.buffer.buf s.buffer.tail] = K.taken ++ K.pending.take 1
    rw [h.got, hcs, hc]
    rfl

end

/-! ## Every run -/

/-- The presses and releases that interrupts have been handled for. -/
def keyEvents (done : List KeyAct) : List (Key × Bool) :=
  done.filterMap fun
    | .key k release => some (k, release)
    | .getc => none

/-- What has been handled, and what has been sent and is still at the port. -/
structure Follows (s : KbdSys) (done : List KeyAct) (queued : List (Key × Bool)) : Prop where
  events : s.events = keyEvents done ++ queued
  port : s.port = queued.flatMap fun e => e.1.scancode e.2
  knows : Knows s.kbd s.got (done.foldl Keyboard.act .start)

section

variable {s s' : KbdSys} {done : List KeyAct} {queued : List (Key × Bool)}

theorem scancode_ne_nil (k : Key) (release : Bool) : k.scancode release ≠ [] := by
  unfold Key.scancode
  cases k.ext <;> simp

theorem keyEvents_append (done : List KeyAct) (a : KeyAct) :
    keyEvents (done ++ [a]) = keyEvents done ++ keyEvents [a] := List.filterMap_append ..

/-- The first key at the port is handled. -/
theorem Follows.interrupt {k : Key} {release : Bool} (h : Follows s done ((k, release) :: queued)) :
    ∃ s', kbdStep s .interrupt = some s' ∧ Follows s' (done ++ [.key k release]) queued := by
  have hport : s.port = k.scancode release ++ queued.flatMap fun e => e.1.scancode e.2 := h.port
  refine ⟨{ s with
    kbd := interpretKey s.kbd k.number release
    port := queued.flatMap fun e => e.1.scancode e.2 }, ?_, ?_, rfl, ?_⟩
  · show (keyboardInterrupt s.kbd s.port).map _ = some _
    rw [hport, interrupt_scancode]
    rfl
  · rw [keyEvents_append, List.append_assoc]
    exact h.events
  · rw [List.foldl_append]
    exact h.knows.interpretKey k release

theorem Follows.step (h : Follows s done queued) {a : KbdAct} (hs : kbdStep s a = some s') :
    ∃ done queued, Follows s' done queued := by
  cases a with
  | key k release =>
    obtain rfl := Option.some.inj hs
    refine ⟨done, queued ++ [(k, release)], ?_, ?_, h.knows⟩
    · show s.events ++ [(k, release)] = _
      rw [h.events, List.append_assoc]
    · show s.port ++ k.scancode release = _
      rw [h.port, List.flatMap_append, List.flatMap_singleton]
  | interrupt =>
    cases queued with
    | nil =>
      have hnil : kbdStep s .interrupt = none := by
        show (keyboardInterrupt s.kbd s.port).map _ = none
        rw [h.port]
        rfl
      rw [hnil] at hs
      cases hs
    | cons e queued =>
      obtain ⟨s₁, hs₁, h₁⟩ := h.interrupt
      rw [hs₁] at hs
      obtain rfl := Option.some.inj hs
      exact ⟨_, _, h₁⟩
  | getc =>
    obtain ⟨hne, hs⟩ := Option.ite_none_left_eq_some.mp hs
    obtain rfl := Option.some.inj hs
    refine ⟨done ++ [.getc], queued, ?_, h.port, ?_⟩
    · show s.events = _
      rw [keyEvents_append, h.events]
      exact congrArg (· ++ queued) (List.append_nil _).symm
    · rw [List.foldl_append]
      exact h.knows.getc (Bool.eq_false_iff.mpr hne)

end

end Pintos.Devices.Kbd
