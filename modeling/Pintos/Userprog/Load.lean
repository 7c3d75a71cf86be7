import Pintos.Userprog.Pagedir

/-!
# The loader (userprog/process.c)

`load` with its helpers, and the end of `process_exit`. The executable is what the file
layer reads: its length and its bytes. `arguments[32]` in `load` and `argv[32]` in
`setup_stack` are local arrays without initialisers, so what the code finds behind the
words of the command line is an input of the model.

A store through a user address goes through the page tables; one to an unmapped address
is a page fault in kernel mode, which stops the kernel.
-/

namespace Pintos.Userprog.Loader

open Pintos.Base Pintos.Kernel Pintos.Threads

/-! ## The executable -/

structure Image where
  length : Nat
  byte : Buffer
  length_lt : length < 2 ^ 31

/-- `file_read` into `dst`: the bytes and their number. -/
def fileRead (f : Image) (dst : Buffer) (size : Nat) : M (Buffer × Nat) := do
  let s ← get
  let n := min (min size (f.length - s.pos)) (s.reads.headD size)
  set { s with pos := s.pos + n, reads := s.reads.tail }
  pure (memcpy dst 0 f.byte s.pos n, n)

/-- `file_seek` past its ASSERT. -/
def fileSeek (pos : Nat) : M Unit := modify fun s => { s with pos := pos }

/-- A 16-bit word. -/
def load16 (b : Buffer) (i : Nat) : Nat := (b i).toNat + 2 ^ 8 * (b (i + 1)).toNat

/-- `sizeof (struct Elf32_Ehdr)` -/
def ehdrSize : Nat := 52

/-- `sizeof (struct Elf32_Phdr)` -/
def phdrSize : Nat := 32

/-- The tests of the executable header. -/
def ehdrOk (e : Buffer) : Bool :=
  e 0 == 0x7f && e 1 == 0x45 && e 2 == 0x4c && e 3 == 0x46 && e 4 == 1 && e 5 == 1 && e 6 == 1 &&
    load16 e 16 == 2 && load16 e 18 == 3 && load32 e 20 == 1 && load16 e 42 == phdrSize &&
    decide (load16 e 44 ≤ 1024)

def ehdrEntry (e : Buffer) : Nat := load32 e 24

def ehdrPhoff (e : Buffer) : Nat := load32 e 28

def ehdrPhnum (e : Buffer) : Nat := load16 e 44

/-- `struct Elf32_Phdr`, without the fields that `load` does not read. -/
structure Phdr where
  type : Nat
  offset : Nat
  vaddr : Nat
  filesz : Nat
  memsz : Nat
  flags : Nat
  deriving DecidableEq, Repr

def phdrOf (b : Buffer) : Phdr where
  type := load32 b 0
  offset := load32 b 4
  vaddr := load32 b 8
  filesz := load32 b 16
  memsz := load32 b 20
  flags := load32 b 24

/-- `PF_W` -/
def Phdr.writable (ph : Phdr) : Bool := ph.flags &&& 2 != 0

/-- `validate_segment` -/
def validateSegment (ph : Phdr) (f : Image) : Bool :=
  ph.offset % pgSize == ph.vaddr % pgSize &&
    decide (ph.offset ≤ f.length) &&
    decide (ph.filesz ≤ ph.memsz) &&
    ph.memsz != 0 &&
    isUserVaddr ph.vaddr &&
    isUserVaddr ((ph.vaddr + ph.memsz) % 2 ^ 32) &&
    decide (ph.vaddr ≤ (ph.vaddr + ph.memsz) % 2 ^ 32) &&
    decide (pgSize ≤ ph.vaddr)

/-! ## Segments -/

/-- `install_page` -/
def installPage (upage kpage : Nat) (writable : Bool) : M Bool := do
  let s ← get
  match s.pagedir with
  | none => throw .assertion
  | some pd => do
    match ← pagedirGetPage pd upage with
    | some _ => pure false
    | none => pagedirSetPage pd upage kpage writable

/-- One round of the loop of `load_segment`. -/
def loadPage (f : Image) (upage readBytes : Nat) (writable : Bool) : M Bool := do
  match ← pallocGetPage .user false with
  | none => pure false
  | some kpage => do
    let s ← get
    let (bytes, n) ← fileRead f (s.mem kpage) readBytes
    modify fun s => s.setPage kpage bytes
    if n ≠ readBytes then do
      pallocFreePage kpage
      pure false
    else do
      modify fun s => s.setPage kpage (memcpy (s.mem kpage) readBytes zeros 0 (pgSize - readBytes))
      if ← installPage upage kpage writable then pure true
      else do
        pallocFreePage kpage
        pure false

/-- The loop of `load_segment`, for at most the given number of rounds. -/
def loadPages (f : Image) (writable : Bool) : Nat → Nat → Nat → Nat → M Bool
  | 0, _, _, _ => throw .assertion
  | fuel + 1, upage, readBytes, zeroBytes =>
    if readBytes = 0 ∧ zeroBytes = 0 then pure true
    else do
      let pageReadBytes := min readBytes pgSize
      if ← loadPage f upage pageReadBytes writable then
        loadPages f writable fuel (upage + pgSize) (readBytes - pageReadBytes)
          (zeroBytes - (pgSize - pageReadBytes))
      else pure false

/-- `load_segment` -/
def loadSegment (f : Image) (ofs upage readBytes zeroBytes : Nat) (writable : Bool) : M Bool := do
  assert ((readBytes + zeroBytes) % pgSize == 0)
  assert (pgOfs upage == 0)
  assert (ofs % pgSize == 0)
  fileSeek ofs
  loadPages f writable ((readBytes + zeroBytes) / pgSize + 1) upage readBytes zeroBytes

/-- `ROUND_UP` -/
def roundUp (x step : Nat) : Nat := divRoundUp x step * step

/-- The case `PT_LOAD`. -/
def loadHeader (f : Image) (ph : Phdr) : M Bool :=
  if validateSegment ph f then
    let pageOffset := ph.vaddr % pgSize
    let readBytes := if 0 < ph.filesz then pageOffset + ph.filesz else 0
    let zeroBytes := roundUp (pageOffset + ph.memsz) pgSize - readBytes
    loadSegment f (ph.offset - ph.offset % pgSize) (ph.vaddr - pageOffset) readBytes zeroBytes
      ph.writable
  else pure false

/-- The loop over the program headers, with the number of them to go. -/
def loadHeaders (f : Image) : Nat → Int → M Bool
  | 0, _ => pure true
  | n + 1, ofs =>
    if ofs < 0 ∨ (f.length : Int) < ofs then pure false
    else do
      fileSeek ofs.toNat
      let (b, got) ← fileRead f zeros phdrSize
      if got ≠ phdrSize then pure false
      else
        let ph := phdrOf b
        if ph.type = 2 ∨ ph.type = 3 ∨ ph.type = 5 then pure false
        else if ph.type = 1 then do
          if ← loadHeader f ph then loadHeaders f n (ofs + phdrSize) else pure false
        else loadHeaders f n (ofs + phdrSize)

/-! ## The stack -/

/-- The frame of a user page and whether it is writable: what the MMU finds. -/
def Vm.translate (s : Vm) (a : Nat) : Option (Nat × Bool) :=
  match s.pagedir with
  | none => none
  | some pd =>
    if isUserVaddr a ∧ present (s.entry pd (pdNo a)) then
      let pte := s.entry (pdeGetPt (s.entry pd (pdNo a))) (ptNo a)
      if present pte then some (pteGetPage pte, pte &&& 2 != 0) else none
    else none

/-- A store in kernel mode through a user address. The addresses that `setup_stack` uses
are below `PHYS_BASE`, or far above the memory that the kernel maps. -/
def userStore (a : Nat) (b : UInt8) : M Unit := do
  let s ← get
  match s.translate a with
  | none => throw .fault
  | some (page, _) => set (s.setPage page (memcpy (s.mem page) (pgOfs a) (fun _ => b) 0 1))

/-- A load in kernel mode through a user address. -/
def userLoad (a : Nat) : M UInt8 := do
  let s ← get
  match s.translate a with
  | none => throw .fault
  | some (page, _) => pure (s.mem page (pgOfs a))

/-- `memcpy` to user addresses. -/
def copyOut : Nat → List UInt8 → M Unit
  | _, [] => pure ()
  | a, b :: bs => do
    userStore a b
    copyOut (a + 1) bs

/-- Pointer arithmetic: `a - n`. -/
def sub32 (a n : Nat) : Nat := (a + 2 ^ 32 - n) % 2 ^ 32

/-- `*esp -= n` and a copy of the bytes to there. -/
def push (esp : Nat) (bytes : List UInt8) : M Nat := do
  copyOut (sub32 esp bytes.length) bytes
  pure (sub32 esp bytes.length)

/-- The bytes of a word. -/
def wordBytes (w : Nat) : List UInt8 := (List.range 4).map (wordByte w)

/-- An element of `arguments`. -/
inductive Word where
  | null
  /-- A pointer to a string. -/
  | str (s : CString)
  /-- A pointer that cannot be followed. -/
  | wild
  deriving DecidableEq

/-- The index of the first null pointer. -/
def countArgs : List Word → Option Nat
  | [] => none
  | .null :: _ => some 0
  | _ :: ws => (countArgs ws).map (· + 1)

/-- The loop that pushes the arguments, the last one first: the stack pointer and where each
string is. -/
def pushStrings : List Word → Nat → M (Nat × List Nat)
  | [], esp => pure (esp, [])
  | w :: ws, esp => do
    let (esp, argv) ← pushStrings ws esp
    match w with
    | .str s =>
      -- a string that does not end in the memory there is runs into unmapped addresses
      if 2 ^ 26 ≤ strlen s then throw .fault
      else do
        let esp ← push esp (s.chars ++ [0])
        pure (esp, esp :: argv)
    | _ => throw .fault

/-- The loop that pushes the elements of `argv`, the last one first. -/
def pushWords : List Nat → Nat → M Nat
  | [], esp => pure esp
  | w :: ws, esp => do
    let esp ← pushWords ws esp
    push esp (wordBytes w)

/-- What lies in the two local arrays before they are written. -/
structure Stale where
  arguments : Nat → Word
  argv : Nat → UInt32

/-- The stack pointer is rounded down to a multiple of four. -/
def roundEsp (esp : Nat) : M Nat :=
  if 0 < esp % 4 then push esp (List.replicate (esp % 4) 0) else pure esp

/-- The pushes of `setup_stack`, for the first `argc` words of `arguments`. -/
def pushArguments (words : List Word) (stale : Stale) (esp : Nat) : M Nat := do
  let (esp, argv) ← pushStrings words esp
  let esp ← roundEsp esp
  -- the element `argv[argc]` was never stored to
  let esp ← push esp (wordBytes (stale.argv words.length).toNat)
  let sentinel := esp
  let esp ← pushWords argv esp
  let esp ← push esp (wordBytes esp)
  let esp ← push esp (wordBytes words.length)
  let b0 ← userLoad sentinel
  let b1 ← userLoad (sentinel + 1)
  let b2 ← userLoad (sentinel + 2)
  let b3 ← userLoad (sentinel + 3)
  push esp [b0, b1, b2, b3]

/-- `setup_stack`: the stack pointer, or `none` for false. When there is no page the code
goes on with the stack pointer 0 of the empty interrupt frame. -/
def setupStack (arguments : List Word) (stale : Stale) : M (Option Nat) := do
  match ← pallocGetPage .user true with
  | none => go 0 false
  | some kpage => do
    if ← installPage (physBase - pgSize) kpage true then go physBase true
    else do
      pallocFreePage kpage
      pure none
where
  go (esp : Nat) (success : Bool) : M (Option Nat) := do
    match countArgs arguments with
    | none => throw .undefined
    | some argc => do
      let esp ← pushArguments (arguments.take argc) stale esp
      pure (if success then some esp else none)

/-! ## `load` -/

/-- The array `arguments` once the words of the command line are in it. -/
def argumentsOf (words : List CString) (stale : Stale) : List Word :=
  words.map .str ++ (List.range (32 - words.length)).map fun i => stale.arguments (words.length + i)

/-- `load` for a command line of the given words: the entry point and the stack pointer, or
`none` for false. There is a first word: `thread_create` has asserted it. -/
def load (words : List CString) (stale : Stale) (file : Option Image) : M (Option (Nat × Nat)) := do
  if words = [] ∨ 32 < words.length then throw .undefined
  else do
    let pd ← pagedirCreate
    modify fun s => { s with pagedir := pd }
    match pd with
    | none => pure none
    | some _ => do
      match ← setupStack (argumentsOf words stale) stale with
      | none => pure none
      | some esp => do
        match file with
        | none => pure none
        | some f => do
          fileSeek 0
          let (e, got) ← fileRead f zeros ehdrSize
          if got ≠ ehdrSize ∨ ehdrOk e = false then pure none
          else do
            if ← loadHeaders f (ehdrPhnum e) (asInt32 (ehdrPhoff e)) then
              pure (some (ehdrEntry e, esp))
            else pure none

/-- The end of `process_exit`. -/
def processExit : M Unit := do
  let s ← get
  match s.pagedir with
  | none => pure ()
  | some pd => do
    set { s with pagedir := none }
    pagedirDestroy pd

end Pintos.Userprog.Loader
