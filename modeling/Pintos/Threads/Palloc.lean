import Pintos.Base.Owns
import Pintos.Kernel.Bitmap
import Pintos.Threads.Lock
import Pintos.Threads.Vaddr

/-!
# The page allocator (threads/palloc.c)

Each pool has a bitmap, stored in the pages in front of it, and a lock.
`palloc_get_multiple` scans and flips under the lock, `palloc_free_multiple` clears
without it; a thread moves by one statement, which is one test or store of a bit or
one statement of the lock functions.

A bit is only set by the holder of the lock, at a page that nobody has, and only
cleared by the thread that frees the page. Memory is capped at 64 MB by the loader,
so that no address leaves 32 bits.
-/

namespace Pintos.Threads

open Pintos.Base Pintos.Kernel

inductive PoolId where
  | kernel
  | user
  deriving DecidableEq, Repr

structure Pool where
  usedMap : Bitmap
  /-- Where `used_map` points. -/
  mapAddr : Nat
  base : Nat

/-- `bitmap_buf_size`: the structure and one word for each 32 bits. -/
def bitmapBufSize (bitCnt : Nat) : Nat := 8 + 4 * divRoundUp bitCnt 32

/-- `init_pool`; `none` is the PANIC, or the ASSERT in `bitmap_create_in_buf`. -/
def initPool (base pageCnt : Nat) : Option Pool :=
  let bmPages := divRoundUp (bitmapBufSize pageCnt) pgSize
  if pageCnt < bmPages then none
  else if bmPages * pgSize < bitmapBufSize (pageCnt - bmPages) then none
  else some ⟨bitmapCreate (pageCnt - bmPages), base, base + bmPages * pgSize⟩

/-- The two pools, one after the other. -/
def initPools (start kernelPages userPages : Nat) : Option (PoolId → Pool) :=
  match initPool start kernelPages, initPool (start + kernelPages * pgSize) userPages with
  | some k, some u => some fun
    | .kernel => k
    | .user => u
  | _, _ => none

/-- `palloc_init`, with the end of the kernel image. -/
def pallocInit (kernelEnd ramPages userPageLimit : Nat) : Option (PoolId → Pool) :=
  let freeStart := pgRoundUp kernelEnd
  let freeEnd := ptov (ramPages * pgSize)
  let freePages := (freeEnd - freeStart) / pgSize
  let userPages := min (freePages / 2) userPageLimit
  let kernelPages := freePages - userPages
  initPools freeStart kernelPages userPages

/-- `page_from_pool` -/
def pageFromPool (pool : Pool) (page : Nat) : Bool :=
  pgNo pool.base ≤ pgNo page && pgNo page < pgNo pool.base + bitmapSize pool.usedMap

/-- The arguments of `palloc_get_multiple`. `PAL_ZERO` only concerns the contents. -/
structure PageReq where
  pool : PoolId
  cnt : Nat
  /-- `PAL_ASSERT` -/
  must : Bool
  deriving DecidableEq, Repr

/-- A group of pages that a caller has. -/
structure Group where
  pool : PoolId
  pages : Nat
  cnt : Nat
  deriving DecidableEq, Repr

inductive PallocPc where
  | out
  /-- In `lock_acquire`. -/
  | acquire (r : PageReq)
  /-- `bitmap_scan`, about to test bit `i + j` of the group at `i`. -/
  | scan (r : PageReq) (i j : Nat)
  /-- `bitmap_set_multiple`, about to set bit `idx + j`. -/
  | flip (r : PageReq) (idx j : Nat)
  /-- About to call `lock_release`. -/
  | unlock (r : PageReq) (idx : Option Nat)
  /-- In `lock_release`. -/
  | release (r : PageReq) (idx : Option Nat)
  /-- `bitmap_all`, about to test bit `idx + j`. -/
  | check (p : PoolId) (idx cnt j : Nat)
  /-- `bitmap_set_multiple`, about to clear bit `idx + j`. -/
  | clear (p : PoolId) (idx cnt j : Nat)
  deriving DecidableEq, Repr

/-- What can stop the kernel. -/
inductive PallocPanic where
  /-- `PANIC ("palloc_get: out of pages")` -/
  | outOfPages
  /-- An ASSERT on the holder of a lock. -/
  | lock
  /-- The page to free is not aligned. -/
  | unaligned
  /-- The page to free is from no pool. -/
  | notReached
  /-- `ASSERT (bitmap_all (...))` -/
  | notUsed
  deriving DecidableEq, Repr

structure PallocSys where
  pool : PoolId → Pool
  lock : PoolId → LockSys
  pc : Tid → PallocPc
  /-- The groups handed out. -/
  groups : List Group
  panic : Option PallocPanic

namespace PallocSys

def goto (s : PallocSys) (t : Tid) (pc : PallocPc) : PallocSys :=
  { s with pc := Function.update s.pc t pc }

def setBit (s : PallocSys) (p : PoolId) (i : Nat) (v : Bool) : PallocSys :=
  { s with
    pool := Function.update s.pool p
      { s.pool p with usedMap := bitmapSet (s.pool p).usedMap i v } }

/-- One statement of a lock function. -/
def lockDo (s : PallocSys) (p : PoolId) (a : LockOp) (pc : LockSys → PallocPc) (t : Tid) :
    Option PallocSys :=
  match lockStep (s.lock p) a with
  | none => none
  | some l =>
    if l.failed.isSome then some { s with panic := some .lock }
    else some ({ s with lock := Function.update s.lock p l }.goto t (pc l))

/-- `palloc_get_multiple` up to the ASSERT of `lock_acquire`. -/
def get (s : PallocSys) (t : Tid) (r : PageReq) : Option PallocSys :=
  if r.cnt = 0 then some s
  else s.lockDo r.pool (.call t .acquire) (fun _ => .acquire r) t

/-- The start of `bitmap_scan`, once the lock is held. -/
def scanStart (s : PallocSys) (r : PageReq) : PallocPc :=
  if r.cnt ≤ bitmapSize (s.pool r.pool).usedMap then .scan r 0 0 else .unlock r none

/-- The end of `palloc_get_multiple`. -/
def handOut (s : PallocSys) (t : Tid) (r : PageReq) : Option Nat → PallocSys
  | some idx => { s.goto t .out with
      groups := s.groups ++ [⟨r.pool, (s.pool r.pool).base + pgSize * idx, r.cnt⟩] }
  | none => if r.must then { s with panic := some .outOfPages } else s.goto t .out

/-- `palloc_free_multiple` up to its memset. The group is no longer the caller's. -/
def free (s : PallocSys) (t : Tid) (g : Group) : Option PallocSys :=
  if g ∈ s.groups then
    let s := { s with groups := s.groups.erase g }
    if pgOfs g.pages ≠ 0 then some { s with panic := some .unaligned }
    else if g.pages = 0 ∨ g.cnt = 0 then some s
    else if pageFromPool (s.pool .kernel) g.pages then
      some (s.goto t (.check .kernel (pgNo g.pages - pgNo (s.pool .kernel).base) g.cnt 0))
    else if pageFromPool (s.pool .user) g.pages then
      some (s.goto t (.check .user (pgNo g.pages - pgNo (s.pool .user).base) g.cnt 0))
    else some { s with panic := some .notReached }
  else none

/-- The next statement of a thread. -/
def advance (s : PallocSys) (t : Tid) : PallocPc → Option PallocSys
  | .out => none
  | .acquire r =>
    s.lockDo r.pool (.next t)
      (fun l => if l.pc t = .held then s.scanStart r else .acquire r) t
  | .scan r i j =>
    let map := (s.pool r.pool).usedMap
    if j = r.cnt then some (s.goto t (.flip r i 0))
    else if bitmapTest map (i + j) then
      if i + 1 ≤ bitmapSize map - r.cnt then some (s.goto t (.scan r (i + 1) 0))
      else some (s.goto t (.unlock r none))
    else some (s.goto t (.scan r i (j + 1)))
  | .flip r idx j =>
    if j = r.cnt then some (s.goto t (.unlock r (some idx)))
    else some ((s.setBit r.pool (idx + j) true).goto t (.flip r idx (j + 1)))
  | .unlock r idx => s.lockDo r.pool (.call t .release) (fun _ => .release r idx) t
  | .release r idx =>
    match lockStep (s.lock r.pool) (.next t) with
    | none => none
    | some l =>
      let s := { s with lock := Function.update s.lock r.pool l }
      if l.pc t = .out then some (s.handOut t r idx) else some s
  | .check p idx cnt j =>
    if j = cnt then some (s.goto t (.clear p idx cnt 0))
    else if bitmapTest (s.pool p).usedMap (idx + j) then some (s.goto t (.check p idx cnt (j + 1)))
    else some { s with panic := some .notUsed }
  | .clear p idx cnt j =>
    if j = cnt then some (s.goto t .out)
    else some ((s.setBit p (idx + j) false).goto t (.clear p idx cnt (j + 1)))

end PallocSys

inductive PallocOp where
  /-- A thread calls `palloc_get_multiple`. -/
  | get (t : Tid) (r : PageReq)
  /-- A thread calls `palloc_free_multiple` for a group that was handed out. -/
  | free (t : Tid) (g : Group)
  | next (t : Tid)
  deriving DecidableEq, Repr

def pallocStep (s : PallocSys) (a : PallocOp) : Option PallocSys :=
  if s.panic.isSome then none
  else match a with
  | .get t r => if s.pc t = .out then s.get t r else none
  | .free t g => if s.pc t = .out then s.free t g else none
  | .next t => s.advance t (s.pc t)

def pallocStart (pool : PoolId → Pool) : PallocSys where
  pool := pool
  lock _ := lockStart
  pc _ := .out
  groups := []
  panic := none

/-! ## The layout of memory -/

/-- The pools and their bitmaps lie apart, in the order kernel map, kernel pool, user map,
user pool. -/
structure Layout (pool : PoolId → Pool) : Prop where
  map : ∀ p, (pool p).mapAddr + bitmapBufSize (bitmapSize (pool p).usedMap) ≤ (pool p).base
  apart : (pool .kernel).base + pgSize * bitmapSize (pool .kernel).usedMap ≤ (pool .user).mapAddr
  aligned : ∀ p, (pool p).base % pgSize = 0

theorem initPool_some {base pageCnt : Nat} {q : Pool} (h : initPool base pageCnt = some q) :
    ∃ n m, pageCnt = n + m ∧ bitmapBufSize m ≤ n * pgSize ∧
      q = ⟨bitmapCreate m, base, base + n * pgSize⟩ := by
  simp only [initPool] at h
  split at h
  · cases h
  next h1 =>
  split at h
  · cases h
  next h2 =>
  cases h
  exact ⟨_, _, (Nat.add_sub_cancel' (Nat.le_of_not_lt h1)).symm, Nat.le_of_not_lt h2, rfl⟩

/-- The size that `init_pool` sets aside suffices: its ASSERT holds. -/
theorem initPool_isSome {base pageCnt : Nat}
    (h : divRoundUp (bitmapBufSize pageCnt) pgSize ≤ pageCnt) :
    (initPool base pageCnt).isSome = true := by
  have h2 : ¬ divRoundUp (bitmapBufSize pageCnt) pgSize * pgSize <
      bitmapBufSize (pageCnt - divRoundUp (bitmapBufSize pageCnt) pgSize) := by
    simp only [divRoundUp, bitmapBufSize, pgSize] at *
    omega
  simp only [initPool, if_neg (Nat.not_lt.mpr h), if_neg h2, Option.isSome_some]

theorem pgRoundUp_aligned (va : Nat) : pgRoundUp va % pgSize = 0 := by
  simp only [pgRoundUp, pgSize]
  omega

theorem initPools_layout {start kernelPages userPages : Nat} {pool : PoolId → Pool}
    (hstart : start % pgSize = 0) (h : initPools start kernelPages userPages = some pool) :
    Layout pool ∧ ∀ p i, bitmapTest (pool p).usedMap i = false := by
  unfold initPools at h
  split at h
  · next k u hk hu =>
    cases h
    obtain ⟨n, m, hnm, hfit, rfl⟩ := initPool_some hk
    obtain ⟨n', m', hnm', hfit', rfl⟩ := initPool_some hu
    refine ⟨⟨fun p => ?_, ?_, fun p => ?_⟩, fun p i => ?_⟩
    · cases p <;> simp only [bitmapSize_create] <;> omega
    · simp only [bitmapSize_create, hnm, Nat.add_mul, pgSize]
      omega
    · cases p <;> simp only [pgSize] at * <;> omega
    · cases p <;> simp
  · cases h

theorem pallocInit_layout {kernelEnd ramPages userPageLimit : Nat} {pool : PoolId → Pool}
    (h : pallocInit kernelEnd ramPages userPageLimit = some pool) :
    Layout pool ∧ ∀ p i, bitmapTest (pool p).usedMap i = false := by
  unfold pallocInit at h
  exact initPools_layout (pgRoundUp_aligned kernelEnd) h

/-! ## The invariant -/

/-- The pages that a thread is about to hand out, or has still to clear. -/
def PallocPc.owns : PallocPc → PoolId × Nat → Prop
  | .flip r idx j, (p, i) => p = r.pool ∧ idx ≤ i ∧ i < idx + j
  | .unlock r (some idx), (p, i) | .release r (some idx), (p, i) =>
    p = r.pool ∧ idx ≤ i ∧ i < idx + r.cnt
  | .check q idx cnt _, (p, i) => p = q ∧ idx ≤ i ∧ i < idx + cnt
  | .clear q idx cnt j, (p, i) => p = q ∧ idx + j ≤ i ∧ i < idx + cnt
  | _, _ => False

/-- Where a thread at `pc` can be in the lock of pool `p`. -/
def PallocPc.fits (p : PoolId) : PallocPc → LockPc → Prop
  | .acquire r, l =>
    if r.pool = p then l = .acquire ∨ l = .asleep ∨ l = .woken ∨ l = .taken else l = .out
  | .scan r _ _, l | .flip r _ _, l | .unlock r _, l => l = if r.pool = p then .held else .out
  | .release r _, l => if r.pool = p then l = .release ∨ l = .cleared ∨ l = .out else l = .out
  | _, l => l = .out

namespace PallocSys

def bit (s : PallocSys) (p : PoolId) (i : Nat) : Bool := bitmapTest (s.pool p).usedMap i

def size (s : PallocSys) (p : PoolId) : Nat := bitmapSize (s.pool p).usedMap

/-- What a thread at `pc` knows: the bits it has seen free are free. -/
def PcOk (s : PallocSys) : PallocPc → Prop
  | .out => True
  | .acquire r => 0 < r.cnt
  | .scan r i j => 0 < r.cnt ∧ i + r.cnt ≤ s.size r.pool ∧ j ≤ r.cnt ∧
      ∀ m < j, s.bit r.pool (i + m) = false
  | .flip r idx j => 0 < r.cnt ∧ idx + r.cnt ≤ s.size r.pool ∧ j ≤ r.cnt ∧
      ∀ m, j ≤ m → m < r.cnt → s.bit r.pool (idx + m) = false
  | .unlock r idx | .release r idx => 0 < r.cnt ∧ ∀ i ∈ idx, i + r.cnt ≤ s.size r.pool
  | .check p idx cnt j | .clear p idx cnt j => idx + cnt ≤ s.size p ∧ j ≤ cnt

/-- A page of a group. -/
def holds (s : PallocSys) (g : Group) (x : PoolId × Nat) : Prop :=
  x.1 = g.pool ∧ g.pages ≤ (s.pool x.1).base + pgSize * x.2 ∧
    (s.pool x.1).base + pgSize * x.2 < g.pages + pgSize * g.cnt

/-- Who has which pages: the groups handed out, and the threads in the allocator. -/
def units (s : PallocSys) : Group ⊕ Tid → PoolId × Nat → Prop
  | .inl g, x => g ∈ s.groups ∧ s.holds g x
  | .inr t, x => (s.pc t).owns x

end PallocSys

/-- **The invariant.** -/
structure PallocInv (s : PallocSys) : Prop where
  layout : Layout s.pool
  locks : ∀ p, LockSysInv (s.lock p) ∧ (s.lock p).failed = none
  places : ∀ p t, (s.pc t).fits p ((s.lock p).pc t)
  pcs : ∀ t, s.PcOk (s.pc t)
  owns : Owns (fun _ => True) s.units fun x => s.bit x.1 x.2 = true
  nodup : s.groups.Nodup
  groups : ∀ g ∈ s.groups, 0 < g.cnt ∧ ∃ idx, g.pages = (s.pool g.pool).base + pgSize * idx ∧
    idx + g.cnt ≤ s.size g.pool
  panic : s.panic = none ∨ s.panic = some .outOfPages

theorem PallocInv.start {pool : PoolId → Pool} (hl : Layout pool) : PallocInv (pallocStart pool) where
  layout := hl
  locks _ := ⟨⟨.start, fun _ _ h => by cases h⟩, rfl⟩
  places _ _ := rfl
  pcs _ := trivial
  owns := by
    constructor
    · rintro (g | t) x - hx
      · cases hx.1
      · cases hx
    · rintro (g | t) y x - - hx
      · cases hx.1
      · cases hx
  nodup := List.nodup_nil
  groups g hg := by cases hg
  panic := .inl rfl

section

variable {s s' : PallocSys} {t u : Tid} {pc : PallocPc}

/-- Two threads that scan or flip the same pool are the same. -/
theorem PallocInv.one_holds (hi : PallocInv s) {p : PoolId} (ht : (s.lock p).pc t = .held)
    (hu : (s.lock p).pc u = .held) : t = u :=
  (hi.locks p).1.1.region.one (by rw [ht]; rfl) (by rw [hu]; rfl)

/-- A thread asleep for a lock may be woken. -/
theorem fits_wake {p : PoolId} {l l' : LockPc} (h : pc.fits p l)
    (hl : l' = l ∨ (l = .asleep ∧ l' = .woken)) : pc.fits p l' := by
  rcases hl with rfl | ⟨rfl, rfl⟩
  · exact h
  · cases pc <;> simp only [PallocPc.fits] at h ⊢ <;> (try split at h) <;> simp_all

/-- A thread moves on, with a statement of a lock function or without, and no bit
changes. -/
theorem PallocInv.move (hi : PallocInv s) {lock : PoolId → LockSys}
    (hlock : ∀ p, LockSysInv (lock p) ∧ (lock p).failed = none)
    (hother : ∀ p u, u ≠ t → (lock p).pc u = (s.lock p).pc u ∨
      ((s.lock p).pc u = .asleep ∧ (lock p).pc u = .woken))
    (hfit : ∀ p, pc.fits p ((lock p).pc t)) (hok : s.PcOk pc)
    (hown : ∀ x, pc.owns x → (s.pc t).owns x) : PallocInv ({ s with lock := lock }.goto t pc) where
  layout := hi.layout
  locks := hlock
  places p u := by
    show (Function.update s.pc t pc u).fits p _
    by_cases hu : u = t
    · subst hu
      rw [Function.update_self]
      exact hfit p
    · rw [Function.update_of_ne hu]
      exact fits_wake (hi.places p u) (hother p u hu)
  pcs u := by
    show s.PcOk (Function.update s.pc t pc u)
    by_cases hu : u = t
    · subst hu
      rwa [Function.update_self]
    · rw [Function.update_of_ne hu]
      exact hi.pcs u
  owns := by
    refine hi.owns.mono (fun _ h => h) (fun x y _ hx => ?_) fun _ h => h
    rcases x with g | u
    · exact hx
    · change (Function.update s.pc t pc u).owns y at hx
      by_cases hu : u = t
      · subst hu
        rw [Function.update_self] at hx
        exact hown y hx
      · rwa [Function.update_of_ne hu] at hx
  nodup := hi.nodup
  groups := hi.groups
  panic := hi.panic

theorem PallocInv.goto (hi : PallocInv s) (hfit : ∀ p, pc.fits p ((s.lock p).pc t))
    (hok : s.PcOk pc) (hown : ∀ x, pc.owns x → (s.pc t).owns x) : PallocInv (s.goto t pc) :=
  @PallocInv.move _ _ _ hi s.lock hi.locks (fun _ _ _ => .inl rfl) hfit hok hown

/-- A statement of a function of the lock of pool `p`. -/
theorem PallocInv.lockMove (hi : PallocInv s) {p : PoolId} {l : LockSys} (hl : LockSysInv l)
    (hf : l.failed = none)
    (hother : ∀ u, u ≠ t → l.pc u = (s.lock p).pc u ∨
      ((s.lock p).pc u = .asleep ∧ l.pc u = .woken))
    (hfit : pc.fits p (l.pc t)) (hfit' : ∀ q, q ≠ p → pc.fits q ((s.lock q).pc t))
    (hok : s.PcOk pc) (hown : ∀ x, pc.owns x → (s.pc t).owns x) :
    PallocInv ({ s with lock := Function.update s.lock p l }.goto t pc) := by
  refine hi.move (fun q => ?_) (fun q u hu => ?_) (fun q => ?_) hok hown
  all_goals
    by_cases hq : q = p
    · subst hq
      simp only [Function.update_self]
      first | exact ⟨hl, hf⟩ | exact hother u hu | exact hfit
    · simp only [Function.update_of_ne hq]
      first | exact hi.locks q | exact hfit' q hq | exact .inl trivial

/-- A thread elsewhere than in the lock of `q` is out of it. -/
theorem PallocInv.elsewhere (hi : PallocInv s) {r : PageReq} {q : PoolId} (hq : q ≠ r.pool)
    (hpc : s.pc t = .acquire r ∨ (∃ i, s.pc t = .unlock r i) ∨ ∃ i, s.pc t = .release r i) :
    (s.lock q).pc t = .out := by
  have h := hi.places q t
  rcases hpc with hpc | ⟨i, hpc⟩ | ⟨i, hpc⟩ <;> rw [hpc] at h <;>
    simpa [PallocPc.fits, Ne.symm hq] using h

/-! ## The statements -/

theorem PallocInv.get (hi : PallocInv s) (ht : s.pc t = .out) {r : PageReq}
    (h : s.get t r = some s') : PallocInv s' := by
  unfold PallocSys.get at h
  split at h
  · cases h
    exact hi
  next hcnt =>
  have hout : ∀ p, (s.lock p).pc t = .out := fun p => by simpa [ht, PallocPc.fits] using hi.places p t
  obtain ⟨hl, hf⟩ := hi.locks r.pool
  have hstep := lockStep_acquire hl hf (hout r.pool)
  simp only [PallocSys.lockDo, hstep] at h
  rw [if_neg (by simp [hf])] at h
  cases h
  refine hi.lockMove (lockStep_inv hl hstep) hf (fun u hu => .inl (Function.update_of_ne hu ..)) ?_
    (fun q hq => ?_) (Nat.pos_of_ne_zero hcnt) fun x hx => by cases hx
  · simp [PallocPc.fits]
  · simpa [PallocPc.fits, Ne.symm hq] using hout q

theorem PallocInv.acquire (hi : PallocInv s) {r : PageReq} (ht : s.pc t = .acquire r)
    (h : s.advance t (.acquire r) = some s') : PallocInv s' := by
  obtain ⟨hl, hf⟩ := hi.locks r.pool
  have hpos : 0 < r.cnt := by simpa [ht, PallocSys.PcOk] using hi.pcs t
  have hplace : (s.lock r.pool).pc t = .acquire ∨ (s.lock r.pool).pc t = .asleep ∨
      (s.lock r.pool).pc t = .woken ∨ (s.lock r.pool).pc t = .taken := by
    simpa [ht, PallocPc.fits] using hi.places r.pool t
  simp only [PallocSys.advance, PallocSys.lockDo] at h
  split at h
  · cases h
  next l hstep =>
  obtain ⟨hf', hother, hown⟩ := lockStep_next hl hstep
  rw [hf', hf] at h
  simp only [Option.isSome_none, Bool.false_eq_true, if_false] at h
  cases h
  refine hi.lockMove (lockStep_inv hl hstep) (hf'.trans hf) hother ?_ (fun q hq => ?_) ?_ ?_
  · split
    · next hheld =>
      unfold PallocSys.scanStart
      split <;> simp [PallocPc.fits, hheld]
    · next hheld =>
      simp only [PallocPc.fits, if_true]
      grind
  · have hq' := hi.elsewhere hq (.inl ht)
    split
    · unfold PallocSys.scanStart
      split <;> simp [PallocPc.fits, Ne.symm hq, hq']
    · simp [PallocPc.fits, Ne.symm hq, hq']
  · split
    · unfold PallocSys.scanStart
      split
      · next hle =>
        refine ⟨hpos, ?_, Nat.zero_le _, fun m hm => absurd hm (Nat.not_lt_zero m)⟩
        rw [Nat.zero_add]
        exact hle
      · exact ⟨hpos, fun i hi => by cases hi⟩
    · exact hpos
  · intro x hx
    split at hx
    · unfold PallocSys.scanStart at hx
      split at hx <;> cases hx
    · cases hx

/-- A test of a bit in `bitmap_scan`. -/
theorem PallocInv.scan (hi : PallocInv s) {r : PageReq} {i j : Nat} (ht : s.pc t = .scan r i j)
    (h : s.advance t (.scan r i j) = some s') : PallocInv s' := by
  have hplace : ∀ p, (s.lock p).pc t = if r.pool = p then .held else .out := fun p => by
    simpa [ht, PallocPc.fits] using hi.places p t
  obtain ⟨hpos, hfit, hj, hfree⟩ : s.PcOk (.scan r i j) := ht ▸ hi.pcs t
  simp only [PallocSys.advance] at h
  split at h
  · next hje =>
    -- all the bits of the group have been seen free
    cases h
    refine hi.goto hplace ⟨hpos, hfit, Nat.zero_le _, fun m _ hm => hfree m (hje ▸ hm)⟩ ?_
    rintro ⟨p, x⟩ ⟨-, h1, h2⟩
    omega
  split at h
  · split at h
    · next hlast =>
      cases h
      refine hi.goto hplace ⟨hpos, ?_, Nat.zero_le _, fun m hm => absurd hm (Nat.not_lt_zero m)⟩
        fun x hx => by cases hx
      unfold PallocSys.size at hfit ⊢
      omega
    · cases h
      exact hi.goto hplace ⟨hpos, fun i hi => by cases hi⟩ fun x hx => by cases hx
  · next hbit =>
    cases h
    refine hi.goto hplace ⟨hpos, hfit, by omega, fun m hm => ?_⟩ fun x hx => by cases hx
    rcases Nat.lt_succ_iff_lt_or_eq.mp hm with hm | rfl
    · exact hfree m hm
    · simpa [PallocSys.bit] using hbit

theorem setBit_size (s : PallocSys) (p : PoolId) (i : Nat) (v : Bool) (q : PoolId) :
    (s.setBit p i v).size q = s.size q := by
  unfold PallocSys.size PallocSys.setBit
  by_cases hq : q = p
  · subst hq
    simp
  · simp [Function.update_of_ne hq]

theorem setBit_bit {p : PoolId} {i : Nat} (hlt : i < s.size p) (v : Bool) (q : PoolId) (m : Nat) :
    (s.setBit p i v).bit q m = if q = p ∧ m = i then v else s.bit q m := by
  unfold PallocSys.bit PallocSys.setBit
  by_cases hq : q = p
  · subst hq
    simp only [Function.update_self, true_and]
    exact bitmapTest_set hlt v m
  · simp [hq]

theorem setBit_base (s : PallocSys) (p : PoolId) (i : Nat) (v : Bool) (q : PoolId) :
    ((s.setBit p i v).pool q).base = (s.pool q).base ∧
      ((s.setBit p i v).pool q).mapAddr = (s.pool q).mapAddr := by
  unfold PallocSys.setBit
  by_cases hq : q = p
  · subst hq
    simp
  · simp [Function.update_of_ne hq]

theorem setBit_layout (h : Layout s.pool) (p : PoolId) (i : Nat) (v : Bool) :
    Layout (s.setBit p i v).pool := by
  have hsize : ∀ q, bitmapSize ((s.setBit p i v).pool q).usedMap = bitmapSize (s.pool q).usedMap :=
    setBit_size s p i v
  refine ⟨fun q => ?_, ?_, fun q => ?_⟩
  · rw [hsize, (setBit_base s p i v q).1, (setBit_base s p i v q).2]
    exact h.map q
  · rw [hsize, (setBit_base s p i v _).1, (setBit_base s p i v _).2]
    exact h.apart
  · rw [(setBit_base s p i v q).1]
    exact h.aligned q

/-- A thread stores a bit of its own and moves on; what the others know of the bits stays
true. -/
theorem PallocInv.store (hi : PallocInv s) {p : PoolId} {i : Nat} {v : Bool}
    (hfit : ∀ q, pc.fits q ((s.lock q).pc t)) (hok : (s.setBit p i v).PcOk pc)
    (hothers : ∀ u, u ≠ t → (s.setBit p i v).PcOk (s.pc u))
    (howns : Owns (fun _ => True) ((s.setBit p i v).goto t pc).units
      fun x => (s.setBit p i v).bit x.1 x.2 = true) :
    PallocInv ((s.setBit p i v).goto t pc) where
  layout := setBit_layout hi.layout p i v
  locks := hi.locks
  places q u := by
    show (Function.update s.pc t pc u).fits q ((s.lock q).pc u)
    by_cases hu : u = t
    · subst hu
      rw [Function.update_self]
      exact hfit q
    · rw [Function.update_of_ne hu]
      exact hi.places q u
  pcs u := by
    show (s.setBit p i v).PcOk (Function.update s.pc t pc u)
    by_cases hu : u = t
    · subst hu
      rwa [Function.update_self]
    · rw [Function.update_of_ne hu]
      exact hothers u hu
  owns := howns
  nodup := hi.nodup
  groups g hg := by
    obtain ⟨hpos, idx, hpages, hsz⟩ := hi.groups g hg
    refine ⟨hpos, idx, ?_, ?_⟩
    · rw [hpages]
      exact congrArg (· + pgSize * idx) (setBit_base s p i v g.pool).1.symm
    · show idx + g.cnt ≤ (s.setBit p i v).size g.pool
      rwa [setBit_size]
  panic := hi.panic

/-- What a thread knows of the bits survives a store that sets no bit it has seen free. -/
theorem PcOk_setBit {p : PoolId} {i : Nat} {v : Bool} (hlt : i < s.size p) (hok : s.PcOk pc)
    (hv : v = false ∨ ∀ r a b, pc = .scan r a b ∨ pc = .flip r a b → r.pool ≠ p) :
    (s.setBit p i v).PcOk pc := by
  have hkeep : ∀ q m, (v = false ∨ q ≠ p) → s.bit q m = false → (s.setBit p i v).bit q m = false := by
    intro q m hor hb
    rw [setBit_bit hlt]
    split
    · next he =>
      rcases hor with h | h
      · exact h
      · exact absurd he.1 h
    · exact hb
  cases pc with
  | scan r a b =>
    obtain ⟨h1, h2, h3, h4⟩ := hok
    refine ⟨h1, by rwa [setBit_size], h3, fun m hm => hkeep _ _ ?_ (h4 m hm)⟩
    exact hv.imp_right fun h => h r a b (.inl rfl)
  | flip r a b =>
    obtain ⟨h1, h2, h3, h4⟩ := hok
    refine ⟨h1, by rwa [setBit_size], h3, fun m hm hm' => hkeep _ _ ?_ (h4 m hm hm')⟩
    exact hv.imp_right fun h => h r a b (.inr rfl)
  | out => trivial
  | acquire r => exact hok
  | unlock r idx | release r idx =>
    refine ⟨hok.1, fun k hk => ?_⟩
    rw [setBit_size]
    exact hok.2 k hk
  | check q idx cnt j | clear q idx cnt j =>
    refine ⟨?_, hok.2⟩
    rw [setBit_size]
    exact hok.1

/-- The bases do not move, so that a group keeps its pages. -/
theorem setBit_holds (p : PoolId) (i : Nat) (v : Bool) (g : Group) (x : PoolId × Nat) :
    (s.setBit p i v).holds g x ↔ s.holds g x := by
  unfold PallocSys.holds
  rw [(setBit_base s p i v x.1).1]

/-- A store of `bitmap_scan_and_flip`: the page was nobody's. -/
theorem PallocInv.flip (hi : PallocInv s) {r : PageReq} {idx j : Nat} (ht : s.pc t = .flip r idx j)
    (h : s.advance t (.flip r idx j) = some s') : PallocInv s' := by
  have hplace : ∀ p, (s.lock p).pc t = if r.pool = p then .held else .out := fun p => by
    simpa [ht, PallocPc.fits] using hi.places p t
  obtain ⟨hpos, hfit, hj, hfree⟩ : s.PcOk (.flip r idx j) := ht ▸ hi.pcs t
  simp only [PallocSys.advance] at h
  split at h
  · next hje =>
    cases h
    refine hi.goto hplace ⟨hpos, fun i hi => ?_⟩ fun x hx => ?_
    · cases hi
      exact hfit
    · rw [ht]
      rw [hje]
      exact hx
  next hje =>
  cases h
  have hlt : idx + j < s.size r.pool := by omega
  have hheld : (s.lock r.pool).pc t = .held := by simpa using hplace r.pool
  refine hi.store hplace ⟨hpos, by rwa [setBit_size], by omega, fun m hm hm' => ?_⟩
    (fun u hu => PcOk_setBit hlt (hi.pcs u) (.inr fun r' a b hpc hr => hu ?_)) ?_
  · rw [setBit_bit hlt, if_neg (by omega)]
    exact hfree m (by omega) hm'
  · -- a second thread that scans this pool would hold the lock too
    have hpl := hi.places r.pool u
    rcases hpc with hpc | hpc <;> rw [hpc] at hpl <;>
      exact hi.one_holds (by simpa [PallocPc.fits, hr] using hpl) hheld
  · refine hi.owns.grow (z := .inr t) (a := (r.pool, idx + j)) ?_ (fun x y _ hxy => ?_) fun y hy => ?_
    · simp [hfree j le_rfl (by omega)]
    · rcases x with g | u
      · exact .inl ⟨hxy.1, (setBit_holds ..).mp hxy.2⟩
      · change (Function.update s.pc t _ u).owns y at hxy
        by_cases hu : u = t
        · subst hu
          rw [Function.update_self] at hxy
          obtain ⟨q, m⟩ := y
          obtain ⟨h1, h2, h3⟩ := hxy
          by_cases hm : m = idx + j
          · exact .inr ⟨rfl, by rw [h1, hm]⟩
          · refine .inl ?_
            show (s.pc u).owns (q, m)
            rw [ht]
            exact ⟨h1, h2, by omega⟩
        · rw [Function.update_of_ne hu] at hxy
          exact .inl hxy
    · obtain ⟨q, m⟩ := y
      show (s.setBit r.pool (idx + j) true).bit q m = true
      rw [setBit_bit hlt]
      split
      · rfl
      · next hne => exact hy.resolve_right fun he => hne (by cases he; exact ⟨rfl, rfl⟩)

theorem PallocInv.unlock (hi : PallocInv s) {r : PageReq} {idx : Option Nat}
    (ht : s.pc t = .unlock r idx) (h : s.advance t (.unlock r idx) = some s') : PallocInv s' := by
  obtain ⟨hl, hf⟩ := hi.locks r.pool
  have hheld : (s.lock r.pool).pc t = .held := by simpa [ht, PallocPc.fits] using hi.places r.pool t
  have hstep := lockStep_release hl hf hheld
  simp only [PallocSys.advance, PallocSys.lockDo, hstep] at h
  rw [if_neg (by simp [hf])] at h
  cases h
  refine hi.lockMove (lockStep_inv hl hstep) hf (fun u hu => .inl (Function.update_of_ne hu ..)) ?_
    (fun q hq => ?_) ?_ fun x hx => ?_
  · simp [PallocPc.fits]
  · simpa [PallocPc.fits, Ne.symm hq] using hi.elsewhere hq (.inr (.inl ⟨idx, ht⟩))
  · have := hi.pcs t
    rwa [ht] at this
  · rw [ht]
    cases idx <;> exact hx

/-- `bitmap_all` in `palloc_free_multiple`: the thread has the pages, so they are marked. -/
theorem PallocInv.check (hi : PallocInv s) {p : PoolId} {idx cnt j : Nat}
    (ht : s.pc t = .check p idx cnt j) (h : s.advance t (.check p idx cnt j) = some s') :
    PallocInv s' := by
  have hplace : ∀ q, (s.lock q).pc t = .out := fun q => by
    simpa [ht, PallocPc.fits] using hi.places q t
  obtain ⟨hfit, hj⟩ : s.PcOk (.check p idx cnt j) := ht ▸ hi.pcs t
  simp only [PallocSys.advance] at h
  split at h
  · cases h
    refine hi.goto hplace ⟨hfit, Nat.zero_le _⟩ fun x hx => ?_
    rw [ht]
    exact hx
  next hje =>
  have hbit : bitmapTest (s.pool p).usedMap (idx + j) = true := by
    apply hi.owns.marked (.inr t) (p, idx + j) trivial
    show (s.pc t).owns _
    rw [ht]
    exact ⟨rfl, by omega, by omega⟩
  rw [if_pos hbit] at h
  cases h
  refine hi.goto hplace ⟨hfit, by omega⟩ fun x hx => ?_
  rw [ht]
  exact hx

/-- A store of `palloc_free_multiple`: nobody else has the page. -/
theorem PallocInv.clear (hi : PallocInv s) {p : PoolId} {idx cnt j : Nat}
    (ht : s.pc t = .clear p idx cnt j) (h : s.advance t (.clear p idx cnt j) = some s') :
    PallocInv s' := by
  have hplace : ∀ q, (s.lock q).pc t = .out := fun q => by
    simpa [ht, PallocPc.fits] using hi.places q t
  obtain ⟨hfit, hj⟩ : s.PcOk (.clear p idx cnt j) := ht ▸ hi.pcs t
  simp only [PallocSys.advance] at h
  split at h
  · cases h
    exact hi.goto hplace trivial fun x hx => by cases hx
  next hje =>
  cases h
  have hlt : idx + j < s.size p := by omega
  have hmine : s.units (.inr t) (p, idx + j) := by
    show (s.pc t).owns _
    rw [ht]
    exact ⟨rfl, by omega, by omega⟩
  refine hi.store hplace ⟨by rwa [setBit_size], by omega⟩
    (fun u _ => PcOk_setBit hlt (hi.pcs u) (.inl rfl)) ?_
  have hold : ∀ x y, ((s.setBit p (idx + j) false).goto t (.clear p idx cnt (j + 1))).units x y →
      s.units x y ∧ y ≠ (p, idx + j) := by
    intro x y hxy
    have hx : s.units x y ∧ (x = .inr t → y ≠ (p, idx + j)) := by
      rcases x with g | u
      · exact ⟨⟨hxy.1, (setBit_holds ..).mp hxy.2⟩, fun he => by cases he⟩
      · change (Function.update s.pc t _ u).owns y at hxy
        by_cases hu : u = t
        · subst hu
          rw [Function.update_self] at hxy
          obtain ⟨q, m⟩ := y
          obtain ⟨h1, h2, h3⟩ := hxy
          refine ⟨?_, fun _ he => ?_⟩
          · show (s.pc u).owns (q, m)
            rw [ht]
            exact ⟨h1, by omega, h3⟩
          · cases he
            omega
        · rw [Function.update_of_ne hu] at hxy
          exact ⟨hxy, fun he => absurd (Sum.inr.inj he) hu⟩
    refine ⟨hx.1, fun hy => hx.2 (hi.owns.disjoint x (.inr t) y trivial trivial hx.1 ?_) hy⟩
    rw [hy]
    exact hmine
  refine hi.owns.transfer id (fun x y _ hxy => ⟨trivial, (hold x y hxy).1⟩)
    (fun x y _ _ _ _ _ he => he) fun x y _ hxy hm => ?_
  obtain ⟨q, m⟩ := y
  show (s.setBit p (idx + j) false).bit q m = true
  rw [setBit_bit hlt, if_neg]
  · exact hm
  · rintro ⟨rfl, rfl⟩
    exact (hold x _ hxy).2 rfl

/-- Pages change hands between the groups and a thread. -/
theorem PallocInv.regroup (hi : PallocInv s) {groups : List Group}
    (hfit : ∀ p, pc.fits p ((s.lock p).pc t)) (hok : s.PcOk pc)
    (howns : Owns (fun _ => True) ({ s with groups := groups }.goto t pc).units
      fun x => s.bit x.1 x.2 = true)
    (hnodup : groups.Nodup)
    (hgroups : ∀ g ∈ groups, g ∈ s.groups ∨ (0 < g.cnt ∧ ∃ idx,
      g.pages = (s.pool g.pool).base + pgSize * idx ∧ idx + g.cnt ≤ s.size g.pool)) :
    PallocInv ({ s with groups := groups }.goto t pc) where
  layout := hi.layout
  locks := hi.locks
  places p u := by
    show (Function.update s.pc t pc u).fits p ((s.lock p).pc u)
    by_cases hu : u = t
    · subst hu
      rw [Function.update_self]
      exact hfit p
    · rw [Function.update_of_ne hu]
      exact hi.places p u
  pcs u := by
    show s.PcOk (Function.update s.pc t pc u)
    by_cases hu : u = t
    · subst hu
      rwa [Function.update_self]
    · rw [Function.update_of_ne hu]
      exact hi.pcs u
  owns := howns
  nodup := hnodup
  groups g hg := (hgroups g hg).elim (hi.groups g) id
  panic := hi.panic

/-- The pages of a group that starts at index `idx`. -/
theorem holds_iff {g : Group} {idx : Nat} (hg : g.pages = (s.pool g.pool).base + pgSize * idx)
    (x : PoolId × Nat) : s.holds g x ↔ x.1 = g.pool ∧ idx ≤ x.2 ∧ x.2 < idx + g.cnt := by
  unfold PallocSys.holds
  refine and_congr_right fun hp => ?_
  rw [hg, hp]
  unfold pgSize
  omega

/-- The group that a call returns becomes the caller's. -/
theorem PallocInv.give (hi : PallocInv s) {r : PageReq} {idx : Nat}
    (ht : s.pc t = .release r (some idx)) (hout : ∀ p, (s.lock p).pc t = .out) :
    PallocInv (s.handOut t r (some idx)) := by
  obtain ⟨hpos, hsz⟩ : s.PcOk (.release r (some idx)) := ht ▸ hi.pcs t
  let g : Group := ⟨r.pool, (s.pool r.pool).base + pgSize * idx, r.cnt⟩
  have hg : ∀ x, s.holds g x ↔ (s.pc t).owns x := by
    intro x
    rw [@holds_iff s g idx rfl, ht]
    rfl
  have hnew : g ∉ s.groups := by
    intro hmem
    have hx : s.holds g (r.pool, idx) := by
      rw [@holds_iff s g idx rfl]
      exact ⟨rfl, le_rfl, Nat.lt_add_of_pos_right hpos⟩
    have := hi.owns.disjoint (.inl g) (.inr t) (r.pool, idx) trivial trivial ⟨hmem, hx⟩ ((hg _).mp hx)
    cases this
  refine @PallocInv.regroup _ _ _ hi (s.groups ++ [g]) hout trivial ?_ ?_ fun g' hg' => ?_
  · -- the new group has what the thread had
    refine hi.owns.transfer (fun x => if x = .inl g then .inr t else x) (fun x y _ hxy => ⟨trivial, ?_⟩)
      (fun x y z _ hxz _ hyz he => ?_) fun _ _ _ _ h => h
    · rcases x with g' | u
      · by_cases hgg : g' = g
        · subst hgg
          rw [if_pos rfl]
          exact (hg y).mp hxy.2
        · rw [if_neg fun he => hgg (Sum.inl.inj he)]
          refine ⟨(List.mem_append.mp hxy.1).resolve_right fun hm => hgg (List.mem_singleton.mp hm), ?_⟩
          exact hxy.2
      · rw [if_neg (by simp)]
        change (Function.update s.pc t .out u).owns y at hxy
        by_cases hu : u = t
        · subst hu
          rw [Function.update_self] at hxy
          cases hxy
        · rwa [Function.update_of_ne hu] at hxy
    · have hnot : ∀ w, ({ s with groups := s.groups ++ [g] }.goto t .out).units w z → w ≠ .inr t := by
        rintro w hw rfl
        change (Function.update s.pc t .out t).owns z at hw
        rw [Function.update_self] at hw
        cases hw
      have h1 := hnot x hxz
      have h2 := hnot y hyz
      grind
  · rw [List.nodup_append]
    exact ⟨hi.nodup, List.nodup_singleton g, fun a ha b hb => by
      rw [List.mem_singleton.mp hb]
      rintro rfl
      exact hnew ha⟩
  · rcases List.mem_append.mp hg' with hmem | hmem
    · exact .inl hmem
    · rw [List.mem_singleton.mp hmem]
      exact .inr ⟨hpos, idx, rfl, hsz idx rfl⟩

/-- A statement of `lock_release`, and the return after its last. -/
theorem PallocInv.release (hi : PallocInv s) {r : PageReq} {idx : Option Nat}
    (ht : s.pc t = .release r idx) (h : s.advance t (.release r idx) = some s') : PallocInv s' := by
  obtain ⟨hl, hf⟩ := hi.locks r.pool
  have hplace : (s.lock r.pool).pc t = .release ∨ (s.lock r.pool).pc t = .cleared ∨
      (s.lock r.pool).pc t = .out := by
    simpa [ht, PallocPc.fits] using hi.places r.pool t
  have helse : ∀ q, q ≠ r.pool → (s.lock q).pc t = .out :=
    fun q hq => hi.elsewhere hq (.inr (.inr ⟨idx, ht⟩))
  simp only [PallocSys.advance] at h
  split at h
  · cases h
  next l hstep =>
  obtain ⟨hf', hother, hown⟩ := lockStep_next hl hstep
  have hi1 : PallocInv { s with lock := Function.update s.lock r.pool l } := by
    have := @PallocInv.lockMove _ t (s.pc t) hi _ _ (lockStep_inv hl hstep) (hf'.trans hf) hother
      (by rw [ht]; simp only [PallocPc.fits, if_true]; grind)
      (fun q _ => hi.places q t) (hi.pcs t) fun _ h => h
    simpa [PallocSys.goto] using this
  split at h
  · next hout =>
    have hall : ∀ p, (Function.update s.lock r.pool l p).pc t = .out := by
      intro p
      by_cases hp : p = r.pool
      · rw [hp, Function.update_self]
        exact hout
      · rw [Function.update_of_ne hp]
        exact helse p hp
    cases h
    cases idx with
    | some idx => exact hi1.give ht hall
    | none =>
      simp only [PallocSys.handOut]
      split
      · exact { hi1 with panic := .inr rfl }
      · exact @PallocInv.goto _ t .out hi1 hall trivial fun x hx => hx.elim
  · cases h
    exact hi1

/-- `page_from_pool` finds the pool of a group. -/
theorem pageFromPool_iff (hl : Layout s.pool) {p q : PoolId} {idx : Nat} (hidx : idx < s.size q)
    (hpq : p = .kernel ∨ q = .user) :
    pageFromPool (s.pool p) ((s.pool q).base + pgSize * idx) = true ↔ p = q := by
  have hk := hl.map .user
  have ha := hl.apart
  have hal := hl.aligned
  have h1 := hal .kernel
  have h2 := hal .user
  unfold PallocSys.size at hidx
  unfold pageFromPool
  rw [Bool.and_eq_true, decide_eq_true_iff, decide_eq_true_iff]
  simp only [pgNo, pgSize, bitmapBufSize] at *
  cases p <;> cases q <;> simp only [reduceCtorEq, iff_true, iff_false, or_self] at * <;> omega

theorem pgNo_group (hl : Layout s.pool) (p : PoolId) (idx : Nat) :
    pgNo ((s.pool p).base + pgSize * idx) - pgNo (s.pool p).base = idx := by
  have := hl.aligned p
  unfold pgNo pgSize at *
  omega

/-- A group goes from its owner to the thread that frees it. -/
theorem PallocInv.take (hi : PallocInv s) (ht : s.pc t = .out) {g : Group} (hg : g ∈ s.groups)
    {idx : Nat} (hpages : g.pages = (s.pool g.pool).base + pgSize * idx)
    (hsz : idx + g.cnt ≤ s.size g.pool) :
    PallocInv ({ s with groups := s.groups.erase g }.goto t (.check g.pool idx g.cnt 0)) := by
  have hout : ∀ p, (s.lock p).pc t = .out := fun p => by simpa [ht, PallocPc.fits] using hi.places p t
  refine hi.regroup hout ⟨hsz, Nat.zero_le _⟩ ?_ (hi.nodup.erase g)
    fun g' hg' => .inl (List.mem_of_mem_erase hg')
  refine hi.owns.transfer (fun x => if x = .inr t then .inl g else x) (fun x y _ hxy => ⟨trivial, ?_⟩)
    (fun x y z _ hxz _ hyz he => ?_) fun _ _ _ _ h => h
  · rcases x with g' | u
    · rw [if_neg (by simp)]
      exact ⟨List.mem_of_mem_erase hxy.1, hxy.2⟩
    · change (Function.update s.pc t _ u).owns y at hxy
      by_cases hu : u = t
      · subst hu
        rw [Function.update_self] at hxy
        rw [if_pos rfl]
        exact ⟨hg, (holds_iff hpages y).mpr hxy⟩
      · rw [Function.update_of_ne hu] at hxy
        rw [if_neg fun he => hu (Sum.inr.inj he)]
        exact hxy
  · have hnot : ∀ w, ({ s with groups := s.groups.erase g }.goto t (.check g.pool idx g.cnt 0)).units
        w z → w ≠ .inl g := by
      rintro w hw rfl
      exact (hi.nodup.mem_erase_iff.mp hw.1).1 rfl
    have h1 := hnot x hxz
    have h2 := hnot y hyz
    grind

theorem PallocInv.free (hi : PallocInv s) (ht : s.pc t = .out) {g : Group}
    (h : s.free t g = some s') : PallocInv s' := by
  unfold PallocSys.free at h
  split at h
  · next hg =>
    obtain ⟨hpos, idx, hpages, hsz⟩ := hi.groups g hg
    have hal : ¬ pgOfs g.pages ≠ 0 := by
      have := hi.layout.aligned g.pool
      rw [hpages]
      unfold pgOfs pgSize at *
      omega
    have hnull : ¬ (g.pages = 0 ∨ g.cnt = 0) := by
      have := hi.layout.map g.pool
      unfold bitmapBufSize at this
      omega
    have hlt : idx < s.size g.pool := by omega
    have htake := hi.take ht hg hpages hsz
    simp only [if_neg hal, if_neg hnull] at h
    cases hp : g.pool with
    | kernel =>
      rw [hp] at hpages hlt htake
      have hfrom := (pageFromPool_iff hi.layout (p := .kernel) hlt (.inl rfl)).mpr rfl
      rw [← hpages] at hfrom
      rw [if_pos hfrom] at h
      cases h
      rw [hpages, pgNo_group hi.layout]
      exact htake
    | user =>
      rw [hp] at hpages hlt htake
      have hk : ¬ pageFromPool (s.pool .kernel) g.pages = true := by
        rw [hpages, pageFromPool_iff hi.layout hlt (.inl rfl)]
        simp
      have hfrom := (pageFromPool_iff hi.layout (p := .user) hlt (.inr rfl)).mpr rfl
      rw [← hpages] at hfrom
      rw [if_neg hk, if_pos hfrom] at h
      cases h
      rw [hpages, pgNo_group hi.layout]
      exact htake
  · cases h

theorem pallocStep_inv (hi : PallocInv s) {a : PallocOp} (h : pallocStep s a = some s') :
    PallocInv s' := by
  unfold pallocStep at h
  split at h
  · cases h
  cases a with
  | get t r =>
    simp only [Option.ite_none_right_eq_some] at h
    exact hi.get h.1 h.2
  | free t g =>
    simp only [Option.ite_none_right_eq_some] at h
    exact hi.free h.1 h.2
  | next t =>
    simp only at h
    cases hpc : s.pc t with
    | out =>
      rw [hpc] at h
      cases h
    | acquire r => exact hi.acquire hpc (hpc ▸ h)
    | scan r i j => exact hi.scan hpc (hpc ▸ h)
    | flip r idx j => exact hi.flip hpc (hpc ▸ h)
    | unlock r idx => exact hi.unlock hpc (hpc ▸ h)
    | release r idx => exact hi.release hpc (hpc ▸ h)
    | check p idx cnt j => exact hi.check hpc (hpc ▸ h)
    | clear p idx cnt j => exact hi.clear hpc (hpc ▸ h)

end

/-- Two groups with no page in common lie apart. -/
theorem PallocInv.apart {s : PallocSys} (hi : PallocInv s) {g h : Group} (hg : g ∈ s.groups)
    (hh : h ∈ s.groups) (hne : g ≠ h) :
    g.pages + pgSize * g.cnt ≤ h.pages ∨ h.pages + pgSize * h.cnt ≤ g.pages := by
  obtain ⟨hgc, i, hgp, hgs⟩ := hi.groups g hg
  obtain ⟨hhc, j, hhp, hhs⟩ := hi.groups h hh
  by_cases hp : g.pool = h.pool
  · by_contra hov
    refine hne (Sum.inl.inj (hi.owns.disjoint (.inl g) (.inl h) (g.pool, max i j) trivial trivial
      ⟨hg, (holds_iff hgp _).mpr ⟨rfl, ?_, ?_⟩⟩ ⟨hh, (holds_iff hhp _).mpr ⟨hp, ?_, ?_⟩⟩))
    all_goals
      rw [hgp, hhp, hp] at hov
      simp only [pgSize] at hov ⊢
      omega
  · have hm := hi.layout.map .user
    have ha := hi.layout.apart
    unfold PallocSys.size at hgs hhs
    cases hgk : g.pool <;> cases hhk : h.pool <;> rw [hgk] at hgp hgs hp <;> rw [hhk] at hhp hhs hp <;>
      simp only [pgSize, bitmapBufSize, not_true] at * <;> omega

/-- **The page allocator.** In every interleaving of its calls the pools and their bitmaps
lie apart; the groups handed out are runs of pages inside the pool asked for, pairwise
disjoint; a page that a call takes is marked free and in nobody's group, and stays out
of the other groups until the call returns it; and of the ASSERTs none has failed. -/
theorem page_allocator {kernelEnd ramPages userPageLimit : Nat} {pool : PoolId → Pool}
    (hinit : pallocInit kernelEnd ramPages userPageLimit = some pool) {s : PallocSys}
    (h : Reach pallocStep Free (pallocStart pool) s) :
    Layout s.pool ∧
    (∀ g ∈ s.groups, 0 < g.cnt ∧ ∃ idx, g.pages = (s.pool g.pool).base + pgSize * idx ∧
      idx + g.cnt ≤ s.size g.pool) ∧
    s.groups.Pairwise (fun g h =>
      g.pages + pgSize * g.cnt ≤ h.pages ∨ h.pages + pgSize * h.cnt ≤ g.pages) ∧
    (∀ t r idx j, s.pc t = .flip r idx j → ∀ m, j ≤ m → m < r.cnt →
      s.bit r.pool (idx + m) = false ∧ ∀ g ∈ s.groups, ¬ s.holds g (r.pool, idx + m)) ∧
    (∀ t x, (s.pc t).owns x → (∀ g ∈ s.groups, ¬ s.holds g x) ∧ ∀ u, (s.pc u).owns x → u = t) ∧
    (s.panic = none ∨ s.panic = some .outOfPages) := by
  have hi : PallocInv s := h.invariant (.start (pallocInit_layout hinit).1)
    fun _ _ _ hi _ hs => pallocStep_inv hi hs
  refine ⟨hi.layout, hi.groups, ?_, fun t r idx j hpc m hm hm' => ?_,
    fun t x hx => ⟨fun g hg hgx => ?_, fun u hu => ?_⟩, hi.panic⟩
  · exact hi.nodup.pairwise_of_forall_ne fun g hg h hh hne => hi.apart hg hh hne
  · obtain ⟨-, -, -, hfree⟩ : s.PcOk (.flip r idx j) := hpc ▸ hi.pcs t
    refine ⟨hfree m hm hm', fun g hg hgx => ?_⟩
    have := hi.owns.marked (.inl g) _ trivial ⟨hg, hgx⟩
    rw [hfree m hm hm'] at this
    cases this
  · cases hi.owns.disjoint (.inr t) (.inl g) x trivial trivial hx ⟨hg, hgx⟩
  · exact Sum.inr.inj (hi.owns.disjoint (.inr u) (.inr t) x trivial trivial hu hx)

/-- Two pages are freed, and the first of them is handed out again before the second is
cleared. -/
theorem page_reused_during_free :
    ∃ pool s, pallocInit physBase 6 100 = some pool ∧
      runFrom pallocStep (pallocStart pool)
        (.get 1 ⟨.kernel, 2, false⟩ :: List.replicate 11 (.next 1) ++
          .free 1 ⟨.kernel, 3221229568, 2⟩ :: List.replicate 4 (.next 1) ++
          .get 2 ⟨.kernel, 1, false⟩ :: List.replicate 9 (.next 2)) = some s ∧
      s.groups = [⟨.kernel, 3221229568, 1⟩] ∧ s.pc 1 = .clear .kernel 0 2 1 ∧
      ¬ s.holds ⟨.kernel, 3221229568, 1⟩ (.kernel, 1) := by
  refine ⟨(pallocInit physBase 6 100).get rfl, ?_⟩
  generalize hrun : runFrom pallocStep _ _ = r
  have hlook : r.map (fun s => (s.groups, s.pc 1)) =
      some ([⟨.kernel, 3221229568, 1⟩], .clear .kernel 0 2 1) := by
    subst hrun
    decide +kernel
  obtain ⟨s, rfl, hs⟩ := Option.map_eq_some_iff.mp hlook
  obtain ⟨hgroups, hpc⟩ := Prod.mk.inj hs
  have howns : (s.pc 1).owns (.kernel, 1) := by
    rw [hpc]
    exact ⟨rfl, by decide, by decide⟩
  have hinit : pallocInit physBase 6 100 = some ((pallocInit physBase 6 100).get rfl) :=
    (Option.some_get _).symm
  have h := (page_allocator hinit (reach_of_run _ hrun)).2.2.2.2.1
  exact ⟨s, hinit, rfl, hgroups, hpc, (h 1 (.kernel, 1) howns).1 _ (hgroups ▸ List.mem_singleton.mpr rfl)⟩

end Pintos.Threads
