import Pintos.Base.Reach
import Pintos.Threads.MallocFree

/-!
# Runs of the allocator

Calls of `malloc`, `calloc`, `realloc` and `free` follow one another; between them other code
uses its own blocks and pages. The free lists, the counters and the blocks in use stay
consistent as long as every number of pages is computed without wrapping.
-/

namespace Pintos.Threads.Malloc

open Pintos.Base Pintos.Kernel

/-- A call with the answers of the page allocator to it, or what other code does meanwhile
to memory and to the pages. -/
inductive HeapAct where
  | malloc (size : Nat) (answers : List (Option Nat))
  | calloc (a b : Nat) (answers : List (Option Nat))
  | realloc (old : Option Nat) (newSize : Nat) (answers : List (Option Nat))
  | free (p : Option Nat)
  | other (mem : Buffer) (usedMap : Bitmap)

structure HeapSys where
  heap : Heap
  /-- The blocks that callers have, with the sizes they asked for. -/
  live : List (Nat × Nat)
  /-- The kernel has stopped. -/
  stopped : Option HeapStop

namespace HeapSys

def call {α : Type} (s : HeapSys) (m : M α) (answers : List (Option Nat))
    (live : α → List (Nat × Nat)) : HeapSys :=
  match m { s.heap with answers := answers } with
  | .ok (r, h) => ⟨h, live r, none⟩
  | .error e => { s with stopped := some e }

def step (s : HeapSys) (a : HeapAct) : Option HeapSys :=
  if s.stopped.isSome then none
  else some <| match a with
    | .malloc size answers => s.call (Malloc.malloc size) answers fun r => lend s.live r size
    | .calloc a b answers =>
      s.call (Malloc.calloc a b) answers fun r => lend s.live r (a * b % 2 ^ 32)
    | .realloc old newSize answers =>
      s.call (Malloc.realloc old newSize) answers fun r => resize s.live old r newSize
    | .free p => s.call (Malloc.free p) [] fun _ => p.elim s.live (release s.live)
    | .other mem usedMap =>
      { s with heap := { s.heap with mem := mem, pool := { s.heap.pool with usedMap := usedMap } } }

/-- After `malloc_init`, with the kernel pool and the size of memory. -/
def boot (pool : Pool) (ramPages : Nat) (mem : Buffer) : HeapSys where
  heap := ⟨pool, ptov (ramPages * pgSize), mem, fun _ => [], [], []⟩
  live := []
  stopped := none

end HeapSys

/-- What callers and other code may do: a size is a `size_t`, a block is given back by who has
it, and only bytes of blocks that were handed out are written in the arenas, whose pages stay
marked. -/
def Client (s : HeapSys) : HeapAct → Prop
  | .malloc size _ => size < 2 ^ 32
  | .calloc a b _ => a < 2 ^ 32 ∧ b < 2 ^ 32
  | .realloc old newSize _ => newSize < 2 ^ 32 ∧ ∀ b ∈ old, b ∈ addrs s.live
  | .free p => ∀ b ∈ p, b ∈ addrs s.live
  | .other mem usedMap =>
    (∀ g ∈ s.heap.groups, ∀ x, g.1 ≤ x → x < g.1 + pgSize * g.2 →
      (∀ l ∈ s.live, x < l.1 ∨ l.1 + l.2 ≤ x) → mem x = s.heap.mem x) ∧
    bitmapSize usedMap = bitmapSize s.heap.pool.usedMap ∧
    ∀ g ∈ s.heap.groups, ∀ j < g.2, bitmapTest usedMap (pgNo g.1 - pgNo s.heap.pool.base + j) = true

/-- The number of pages for the request does not wrap, or there is no page for it. -/
def Served (s : HeapSys) : HeapAct → Prop
  | .malloc size answers => { s.heap with answers := answers }.Serves size
  | .calloc a b answers => { s.heap with answers := answers }.Serves (a * b % 2 ^ 32)
  | .realloc _ newSize answers => { s.heap with answers := answers }.Serves newSize
  | .free _ | .other _ _ => True

/-- The free lists hold the free blocks, the counters count them, and the blocks in use lie
apart from one another, from the headers and from the free blocks. -/
structure Consistent (s : Heap) (live : List (Nat × Nat)) : Prop where
  freeList : ∀ d desc, descs[d]? = some desc → (s.freeList d).Nodup ∧
    ∀ b, b ∈ s.freeList d ↔ s.Block d desc b ∧ b ∉ addrs live
  freeCnt : ∀ g ∈ s.groups, ∀ d, s.descOf g.1 = some d → ∃ desc, descs[d]? = some desc ∧ g.2 = 1 ∧
    s.freeCnt g.1 = (s.freeBlocks g.1 d desc).card ∧ s.freeCnt g.1 < desc.blocksPerArena
  lent : (addrs live).Nodup ∧ ∀ l ∈ live, s.Lent l.1 l.2
  apart : ∀ l ∈ live, ∀ l' ∈ live, l ≠ l' → ∀ n n', s.Lent l.1 n → s.Lent l'.1 n' →
    l.1 + n ≤ l'.1 ∨ l'.1 + n' ≤ l.1
  header : ∀ l ∈ live, ∀ n, s.Lent l.1 n → ∀ g ∈ s.groups, l.1 + n ≤ g.1 ∨ g.1 + arenaSize ≤ l.1
  free : ∀ l ∈ live, ∀ n, s.Lent l.1 n → ∀ d desc, descs[d]? = some desc → ∀ b ∈ s.freeList d,
    l.1 + n ≤ b ∨ b + desc.blockSize ≤ l.1

section

variable {s : Heap} {live : List (Nat × Nat)} {b b' n n' : Nat}

theorem HeapInv.consistent (hi : HeapInv s live) (hf : NoneFree s) : Consistent s live where
  freeList d desc hd := ⟨hi.nodup d, hi.free d desc hd⟩
  freeCnt g hg d hd := by
    obtain ⟨desc, h1, h2, h3⟩ := hi.small g hg d hd
    exact ⟨desc, h1, h2, h3, hf g hg d desc hd h1⟩
  lent := ⟨hi.lentNodup, hi.lent⟩
  apart l hl l' hl' hne n n' h h' := by
    refine hi.lent_apart h h' fun he => hne ?_
    exact List.inj_on_of_nodup_map hi.lentNodup hl hl' he
  header l hl n h g hg := by
    obtain ⟨g', hg', h1, h2⟩ := h.within
    by_cases he : g' = g
    · subst he
      exact .inr h1
    · have := hi.apart g' hg' g hg he
      have hpos := hi.group_page hg
      simp only [arenaSize, pgSize] at *
      omega
  free l hl n h d desc hd b hb := by
    obtain ⟨hblock, hno⟩ := (hi.free d desc hd b).mp hb
    refine hi.lent_apart h (.inr ⟨d, desc, hd, hblock, le_rfl⟩) fun he => hno ?_
    rw [← he]
    exact List.mem_map_of_mem hl

/-- Other pages may be marked or not. -/
theorem HeapInv.marks (hi : HeapInv s live) {usedMap : Bitmap}
    (hsize : bitmapSize usedMap = bitmapSize s.pool.usedMap)
    (hbits : ∀ g ∈ s.groups, ∀ j < g.2,
      bitmapTest usedMap (pgNo g.1 - pgNo s.pool.base + j) = true) :
    HeapInv { s with pool := { s.pool with usedMap := usedMap } } live :=
  { hi with
    top := hsize ▸ hi.top
    group := by
      intro g hg
      obtain ⟨h0, i, h1, h2, -⟩ := hi.group g hg
      refine ⟨h0, i, h1, hsize ▸ h2, fun j hj => ?_⟩
      have hidx : pgNo g.1 - pgNo s.pool.base = i := by
        have := hi.aligned
        simp only [pgNo, pgSize] at *
        omega
      rw [← hidx]
      exact hbits g hg j hj }

/-- Stores of other code do not reach the headers. -/
theorem HeapInv.other_headers (hi : HeapInv s live) {mem : Buffer}
    (h : ∀ g ∈ s.groups, ∀ x, g.1 ≤ x → x < g.1 + pgSize * g.2 →
      (∀ l ∈ live, x < l.1 ∨ l.1 + l.2 ≤ x) → mem x = s.mem x) :
    s.SameHeaders { s with mem := mem } := by
  refine .of_mem fun g hg k hk => ?_
  obtain ⟨-, -, hpos, -⟩ := hi.group_page hg
  refine h g hg _ (Nat.le_add_right ..) ?_ fun l hl => ?_
  · simp only [arenaSize, pgSize] at *
    omega
  · obtain ⟨g', hg', h1, h2⟩ := (hi.lent l hl).within
    by_cases he : g' = g
    · subst he
      omega
    · have := hi.apart g' hg' g hg he
      simp only [arenaSize, pgSize] at *
      omega

end

/-! ## The claim -/

/-- What every run keeps. -/
structure SysInv (s : HeapSys) : Prop where
  running : s.stopped = none
  heap : HeapInv s.heap s.live
  noneFree : NoneFree s.heap

/-- A call that returns and keeps the invariant of the heap. -/
theorem SysInv.call {s : HeapSys} (hi : SysInv s) {α : Type} {m : M α} {answers : List (Option Nat)}
    {live : α → List (Nat × Nat)}
    (h : ∃ r s', m { s.heap with answers := answers } = .ok (r, s') ∧ HeapInv s' (live r) ∧
      (NoneFree { s.heap with answers := answers } → NoneFree s')) :
    SysInv (s.call m answers live) := by
  obtain ⟨r, s', hrun, hinv, hfree⟩ := h
  unfold HeapSys.call
  rw [hrun]
  exact ⟨rfl, hinv, hfree hi.noneFree⟩

theorem SysInv.step {s s' : HeapSys} {a : HeapAct} (hi : SysInv s) (hc : Client s a) (ha : Served s a)
    (h : s.step a = some s') : SysInv s' := by
  unfold HeapSys.step at h
  rw [hi.running, Option.isSome_none, if_neg Bool.false_ne_true, Option.some.injEq] at h
  subst h
  cases a with
  | malloc size answers => exact hi.call (malloc_run (hi.heap.answers answers) ha)
  | calloc a b answers => exact hi.call (calloc_run (hi.heap.answers answers) ha)
  | realloc old newSize answers => exact hi.call (realloc_run (hi.heap.answers answers) hc.2 ha)
  | free p =>
    apply hi.call
    cases p with
    | none => exact ⟨(), _, rfl, hi.heap.answers [], fun hf => hf⟩
    | some b =>
      obtain ⟨t, hrun, hinv, hfree⟩ := free_run (hi.heap.answers []) (hc b rfl)
      exact ⟨(), t, hrun, hinv, hfree⟩
  | other mem usedMap =>
    obtain ⟨h1, h2, h3⟩ := hc
    have hsame := hi.heap.other_headers h1
    refine ⟨rfl, (hi.heap.congr hsame rfl rfl rfl rfl).marks h2 h3, ?_⟩
    exact hsame.none_free rfl hi.noneFree

theorem initPools_kernel {start kernelPages userPages : Nat} {pool : PoolId → Pool}
    (h : initPools start kernelPages userPages = some pool) :
    0 < kernelPages ∧ start ≤ (pool .kernel).base ∧ (pool .kernel).base +
      pgSize * bitmapSize (pool .kernel).usedMap = start + pgSize * kernelPages := by
  unfold initPools at h
  split at h
  · next k u hk hu =>
    cases h
    obtain ⟨n, m, hnm, hfit, rfl⟩ := initPool_some hk
    simp only [bitmapSize_create, bitmapBufSize, pgSize] at *
    omega
  · cases h

/-- The kernel pool lies in memory. -/
theorem pallocInit_kernel {kernelEnd ramPages userPageLimit : Nat} {pool : PoolId → Pool}
    (h : pallocInit kernelEnd ramPages userPageLimit = some pool) :
    kernelEnd ≤ (pool .kernel).base ∧ (pool .kernel).base +
      pgSize * bitmapSize (pool .kernel).usedMap ≤ ptov (ramPages * pgSize) := by
  unfold pallocInit at h
  obtain ⟨h1, h2, h3⟩ := initPools_kernel h
  simp only [pgRoundUp, pgSize] at *
  omega

theorem SysInv.boot {kernelEnd ramPages userPageLimit : Nat} {pool : PoolId → Pool}
    (hinit : pallocInit kernelEnd ramPages userPageLimit = some pool) (hk : physBase ≤ kernelEnd)
    (hram : ramPages ≤ 2 ^ 18) (mem : Buffer) :
    SysInv (HeapSys.boot (pool .kernel) ramPages mem) := by
  obtain ⟨h1, h2⟩ := pallocInit_kernel hinit
  have hal := (pallocInit_layout hinit).1.aligned .kernel
  refine ⟨rfl, ?_, fun g hg => absurd hg List.not_mem_nil⟩
  refine ⟨hal, ?_, h2, ?_, fun g hg => absurd hg List.not_mem_nil, List.nodup_nil,
    fun g hg => absurd hg List.not_mem_nil, fun g hg => absurd hg List.not_mem_nil,
    fun g hg => absurd hg List.not_mem_nil, fun g hg => absurd hg List.not_mem_nil,
    fun d => List.nodup_nil, fun d desc hd b => ?_, List.nodup_nil,
    fun l hl => absurd hl List.not_mem_nil⟩
  · exact Nat.lt_of_lt_of_le (by decide) (hk.trans h1)
  · simp only [HeapSys.boot, ptov, pgSize, physBase]
    omega
  · apply iff_of_false List.not_mem_nil
    rintro ⟨⟨a, i, hg, -⟩, -⟩
    exact List.not_mem_nil hg

/-- **The allocator stays consistent**, and none of its ASSERTs fails, in every run in which
the number of pages for each request that gets pages is computed without wrapping. -/
theorem malloc_consistent {kernelEnd ramPages userPageLimit : Nat} {pool : PoolId → Pool}
    (hinit : pallocInit kernelEnd ramPages userPageLimit = some pool) (hk : physBase ≤ kernelEnd)
    (hram : ramPages ≤ 2 ^ 18) (mem : Buffer) {s : HeapSys}
    (h : Reach HeapSys.step (fun s a => Client s a ∧ Served s a)
      (.boot (pool .kernel) ramPages mem) s) : s.stopped = none ∧ Consistent s.heap s.live := by
  have hi : SysInv s := h.invariant (.boot hinit hk hram mem) fun t a t' ht hok hs =>
    ht.step hok.1 hok.2 hs
  exact ⟨hi.running, hi.heap.consistent hi.noneFree⟩

/-- The start with eight pages of memory, three of them for the kernel pool. -/
def HeapSys.eightPages : HeapSys :=
  .boot ⟨bitmapCreate 3, physBase, physBase + pgSize⟩ 8 zeros

theorem eightPages_init : ∃ pool, pallocInit physBase 8 100 = some pool ∧
    HeapSys.boot (pool .kernel) 8 zeros = .eightPages := ⟨_, rfl, rfl⟩

/-- A first request and the move of its block by `realloc`. -/
def HeapSys.moved (size newSize b : Nat) (page newPage : Nat) : HeapSys :=
  let s := HeapSys.eightPages.call (Malloc.malloc size) [some page] fun r => lend [] r size
  s.call (Malloc.realloc (some b) newSize) [some newPage] fun r => resize s.live (some b) r newSize

/-- The two steps to it. -/
theorem reach_moved {ok : HeapSys → HeapAct → Prop} {size newSize b page newPage : Nat}
    (h1 : ok .eightPages (.malloc size [some page]))
    (hs1 : (HeapSys.eightPages.call (Malloc.malloc size) [some page]
      fun r => lend [] r size).stopped = none)
    (h2 : ok (HeapSys.eightPages.call (Malloc.malloc size) [some page] fun r => lend [] r size)
      (.realloc (some b) newSize [some newPage])) :
    Reach HeapSys.step ok .eightPages (.moved size newSize b page newPage) := by
  refine .next (.next .refl h1 rfl) h2 ?_
  show (if (HeapSys.eightPages.call (Malloc.malloc size) [some page]
    fun r => lend [] r size).stopped.isSome then none else some _) = _
  rw [hs1]
  rfl

/-- A small block moves to pages of its own, and its arena goes back. -/
theorem small_to_big : ∃ pool s, pallocInit physBase 8 100 = some pool ∧
    Reach HeapSys.step (fun s a => Client s a ∧ Served s a) (.boot (pool .kernel) 8 zeros) s ∧
    s.live = [(0xc000200c, 5000)] ∧ s.stopped = none ∧ Consistent s.heap s.live := by
  obtain ⟨pool, hpool, hboot⟩ := eightPages_init
  have hlive : addrs (HeapSys.eightPages.call (Malloc.malloc 600) [some 0]
      fun r => lend [] r 600).live = [0xc000100c] := by decide
  have h : Reach HeapSys.step (fun s a => Client s a ∧ Served s a) (.boot (pool .kernel) 8 zeros)
      (.moved 600 5000 0xc000100c 0 1) := by
    rw [hboot]
    refine reach_moved ⟨?_, .inl ?_⟩ ?_ ⟨⟨?_, fun b hb => ?_⟩, .inl ?_⟩
    · show 600 < 2 ^ 32
      decide
    · decide
    · decide
    · decide
    · cases hb
      rw [hlive]
      exact List.mem_singleton.mpr rfl
    · decide
  refine ⟨pool, _, hpool, h, ?_, malloc_consistent hpool le_rfl (by decide) zeros h⟩
  decide

/-- **A request for nearly 4 GB gets one page**: `realloc` copies the old block over the
header of its own arena. -/
theorem wrapped_request : ∃ pool s, pallocInit physBase 8 100 = some pool ∧
    Reach HeapSys.step Client (.boot (pool .kernel) 8 zeros) s ∧ s.stopped = some .assertion := by
  obtain ⟨pool, hpool, hboot⟩ := eightPages_init
  have hlive : addrs (HeapSys.eightPages.call (Malloc.malloc 5000) [some 1]
      fun r => lend [] r 5000).live = [0xc000200c] := by decide
  refine ⟨pool, .moved 5000 0xffffffff 0xc000200c 1 0, hpool, ?_, ?_⟩
  · rw [hboot]
    refine reach_moved ?_ ?_ ⟨?_, fun b hb => ?_⟩
    · show 5000 < 2 ^ 32
      decide
    · decide
    · decide
    · cases hb
      rw [hlive]
      exact List.mem_singleton.mpr rfl
  · decide

end Pintos.Threads.Malloc
