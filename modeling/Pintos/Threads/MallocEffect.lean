import Pintos.Threads.MallocSpec

/-!
# What a call takes and gives back

A block is a piece of an arena: the rest of pages of its own, or one of the equal parts of a
page. `malloc_effect` and `free_effect` say of any state that meets the invariant which piece
moves, what happens to the pages, the free lists and the headers, and which memory stays.
-/

namespace Pintos.Threads.Malloc

open Pintos.Base Pintos.Kernel

/-- Where a block comes from: `n` pages of its own at `a`, or the page at `a`, which is cut
into the blocks of descriptor `d`. -/
inductive Piece where
  | pages (a n : Nat)
  | block (a d : Nat)
  deriving DecidableEq

/-- The bytes of a block. -/
def Piece.size : Piece → Nat
  | .pages _ n => pgSize * n - arenaSize
  | .block _ d => (descs[d]?.map Desc.blockSize).getD 0

namespace Heap

/-- The block at `p` is the piece. -/
def Is (s : Heap) (p : Nat) : Piece → Prop
  | .pages a n => (a, n) ∈ s.groups ∧ s.descOf a = none ∧ p = a + arenaSize
  | .block a d => (a, 1) ∈ s.groups ∧ s.descOf a = some d ∧
      ∃ desc i, descs[d]? = some desc ∧ i < desc.blocksPerArena ∧ p = blockAt a desc i

/-- An address in the header of an arena. -/
def InHeader (s : Heap) (x : Nat) : Prop := ∃ g ∈ s.groups, g.1 ≤ x ∧ x < g.1 + arenaSize

/-- `n` free pages at `a` have left the pool. -/
structure TookPages (s s' : Heap) (a n : Nat) : Prop where
  groups : s'.groups = (a, n) :: s.groups
  free : ∃ i, a = s.pool.base + pgSize * i ∧ i + n ≤ bitmapSize s.pool.usedMap ∧
    (∀ j < n, bitmapTest s.pool.usedMap (i + j) = false) ∧
    s'.pool = { s.pool with usedMap := bitmapSetMultiple s.pool.usedMap i n true }

/-- The `n` pages at `a` are back in the pool. -/
structure GavePages (s s' : Heap) (a n : Nat) : Prop where
  groups : s'.groups = s.groups.erase (a, n)
  pool : s'.pool = { s.pool with
    usedMap := bitmapSetMultiple s.pool.usedMap (pgNo a - pgNo s.pool.base) n false }

/-- `malloc` takes the piece at `p`: new pages, the first block of a free list, or the first of
the blocks of a new page. -/
def Takes (s s' : Heap) (p : Nat) : Piece → Prop
  | .pages a n => s.TookPages s' a n ∧ s'.freeList = s.freeList
  | .block a d =>
    s'.groups = s.groups ∧ s'.pool = s.pool ∧
      s.freeList = Function.update s'.freeList d (p :: s'.freeList d) ∨
    s.freeList d = [] ∧ s.TookPages s' a 1 ∧ ∃ desc, descs[d]? = some desc ∧
      Function.update s'.freeList d (p :: s'.freeList d) =
        Function.update s.freeList d ((List.range desc.blocksPerArena).map (blockAt a desc))

/-- `free` gives the piece at `p` back: its pages to the pool, or the block to its free list;
with the last block of its arena in use the page goes back. -/
def GivesBack (s s' : Heap) (p : Nat) : Piece → Prop
  | .pages a n => s.GavePages s' a n ∧ s'.freeList = s.freeList
  | .block a d =>
    s'.groups = s.groups ∧ s'.pool = s.pool ∧
      s'.freeList = Function.update s.freeList d (p :: s.freeList d) ∨
    s.GavePages s' a 1 ∧ ∃ desc, descs[d]? = some desc ∧
      (∀ i < desc.blocksPerArena, blockAt a desc i = p ∨ blockAt a desc i ∈ s.freeList d) ∧
      s'.freeList = Function.update s.freeList d ((p :: s.freeList d).diff
        ((List.range desc.blocksPerArena).map (blockAt a desc)))

end Heap

section

variable {s s' : Heap} {live : List (Nat × Nat)} {p n : Nat} {k k' : Piece}

/-! ## Pieces -/

theorem Heap.Is.block_of {a d : Nat} {desc : Desc} (h : s.Is p (.block a d))
    (hd : descs[d]? = some desc) : s.Block d desc p := by
  obtain ⟨h1, h2, desc', i, h3, h4, h5⟩ := h
  rw [hd] at h3
  cases h3
  exact ⟨a, i, h1, h2, h4, h5⟩

/-- A block is lent up to the size of its piece. -/
theorem HeapInv.is_lent (hi : HeapInv s live) (h : s.Is p k) : s.Lent p k.size := by
  cases k with
  | pages a n =>
    obtain ⟨h1, h2, h3⟩ := h
    have hpos := (hi.group_page h1).2.2.1
    refine .inl ⟨a, n, h1, h2, h3, ?_⟩
    simp only [Piece.size, arenaSize, pgSize] at *
    omega
  | block a d =>
    obtain ⟨-, -, desc, -, hd, -⟩ := id h
    exact .inr ⟨d, desc, hd, h.block_of hd, by simp [Piece.size, hd]⟩

/-- What is lent is a piece. -/
theorem Heap.Lent.piece (h : s.Lent p n) : ∃ k, s.Is p k ∧ n ≤ k.size := by
  rcases h with ⟨a, m, h1, h2, h3, h4⟩ | ⟨d, desc, hd, ⟨a, i, h1, h2, h3, h4⟩, hn⟩
  · exact ⟨.pages a m, ⟨h1, h2, h3⟩, by simp only [Piece.size]; omega⟩
  · exact ⟨.block a d, ⟨h1, h2, desc, i, hd, h3, h4⟩, by simpa [Piece.size, hd] using hn⟩

/-- The first page of a piece is that of its block. -/
theorem HeapInv.is_page (hi : HeapInv s live) (h : s.Is p k) :
    (∃ n, k = .pages (p - pgOfs p) n ∧ (p - pgOfs p, n) ∈ s.groups ∧ s.descOf (p - pgOfs p) = none) ∨
      ∃ d, k = .block (p - pgOfs p) d ∧ (p - pgOfs p, 1) ∈ s.groups ∧ s.descOf (p - pgOfs p) = some d := by
  cases k with
  | pages a n =>
    obtain ⟨h1, h2, rfl⟩ := h
    have hal := (hi.group_page h1).1
    have ha : a + arenaSize - pgOfs (a + arenaSize) = a := by
      simp only [pgOfs, arenaSize, pgSize] at *
      omega
    rw [ha]
    exact .inl ⟨n, rfl, h1, h2⟩
  | block a d =>
    obtain ⟨h1, h2, desc, i, hd, hlt, rfl⟩ := h
    rw [((descOk hd).page (hi.group_page h1).1 hlt).2]
    exact .inr ⟨d, rfl, h1, h2⟩

/-- A block is one piece only. -/
theorem HeapInv.is_unique (hi : HeapInv s live) (h : s.Is p k) (h' : s.Is p k') : k = k' := by
  rcases hi.is_page h with ⟨n, rfl, h1, h2⟩ | ⟨d, rfl, h1, h2⟩ <;>
    rcases hi.is_page h' with ⟨n', rfl, h1', h2'⟩ | ⟨d', rfl, h1', h2'⟩
  · cases hi.group_eq h1 h1' rfl
    rfl
  · rw [h2] at h2'
    cases h2'
  · rw [h2] at h2'
    cases h2'
  · rw [h2] at h2'
    cases h2'
    rfl

/-! ## `malloc` -/

/-- What `malloc` has done when it returns the block at `p`. -/
structure MallocEffect (s s' : Heap) (live : List (Nat × Nat)) (p : Nat) (k : Piece) : Prop where
  inv : HeapInv s' ((p, k.size) :: live)
  noneFree : NoneFree s → NoneFree s'
  piece : s'.Is p k
  takes : s.Takes s' p k
  top : s'.top = s.top
  desc : ∀ g ∈ s.groups, s'.descOf g.1 = s.descOf g.1
  mem : ∀ x, ¬ s'.InHeader x → s'.mem x = s.mem x

/-- A new header does not reach behind it. -/
theorem newArena_mem (s : Heap) (i n w c : Nat) {x : Nat}
    (hx : ¬ (s.newArena i n w c).InHeader x) : (s.newArena i n w c).mem x = s.mem x := by
  have hx' : ¬ (s.pool.base + pgSize * i ≤ x ∧ x < s.pool.base + pgSize * i + 12) :=
    fun h => hx ⟨_, mem_newArena.mpr (.inl rfl), h⟩
  simp only [Heap.newArena, Heap.setHeader, store32]
  rw [memcpy_out (by omega), memcpy_out (by omega), memcpy_out (by omega)]

theorem newArena_took (s : Heap) {i m : Nat} (w c : Nat) (hfit : i + m ≤ bitmapSize s.pool.usedMap)
    (hfree : ∀ j < m, bitmapTest s.pool.usedMap (i + j) = false) :
    s.TookPages (s.newArena i m w c) (s.pool.base + pgSize * i) m :=
  ⟨rfl, i, rfl, hfit, hfree, rfl⟩

theorem bigArena_effect (hi : HeapInv s live) {i m : Nat} (hm : 0 < m)
    (hfit : i + m ≤ bitmapSize s.pool.usedMap)
    (hfree : ∀ j < m, bitmapTest s.pool.usedMap (i + j) = false) (hlt : m < 2 ^ 32) :
    MallocEffect s (s.newArena i m 0 m) live (s.pool.base + pgSize * i + arenaSize)
      (.pages (s.pool.base + pgSize * i) m) := by
  have hmem : (s.newArena i m 0 m).mem = (s.newArena i m 0 m).mem := rfl
  obtain ⟨hsame, -, hdesc, -⟩ := hi.newArena_headers hm hfree (by decide) hlt hmem
  obtain ⟨hinv, hnone⟩ := hi.bigArena hm hfit hfree hlt
  exact ⟨hinv, hnone, ⟨mem_newArena.mpr (.inl rfl), hdesc, rfl⟩, ⟨newArena_took s 0 m hfit hfree, rfl⟩,
    rfl, fun g hg => (hsame g hg).2.1, fun x hx => newArena_mem s i m 0 m hx⟩

/-- The end of `malloc` on any state: the block at the front of the free list goes. -/
theorem takeBlock_effect (hi : HeapInv s live) {d : Nat} {desc : Desc} (hdesc : descs[d]? = some desc)
    {l : List Nat} (hl : s.freeList d = p :: l) :
    ∃ s', takeBlock d s = .ok (some p, s') ∧ HeapInv s' ((p, desc.blockSize) :: live) ∧
      (NoneFreeBut s (p - pgOfs p) → NoneFree s') ∧ s'.groups = s.groups ∧ s'.pool = s.pool ∧
      s'.top = s.top ∧ s'.freeList = Function.update s.freeList d l ∧
      (∀ g ∈ s.groups, s'.descOf g.1 = s.descOf g.1) ∧
      ∀ x, ¬ s'.InHeader x → s'.mem x = s.mem x := by
  obtain ⟨s', hrun, hinv, hnone⟩ := takeBlock_run hi hdesc hl le_rfl
  have heq := hi.takeBlock_eq hdesc hl
  rw [hrun] at heq
  cases heq
  obtain ⟨hb, -⟩ := (hi.free d desc hdesc p).mp (by rw [hl]; exact List.mem_cons_self)
  obtain ⟨hg, -⟩ := hi.block_arena hb hdesc
  generalize (s.freeCnt (p - pgOfs p) + 2 ^ 32 - 1) % 2 ^ 32 = c at *
  refine ⟨_, hrun, hinv, hnone, rfl, rfl, rfl, rfl, fun g hg' => ?_, fun x hx => ?_⟩
  · refine descOf_congr (load32_store32_of_disjoint ?_)
    by_cases he : g.1 = p - pgOfs p
    · omega
    · have h1 := (hi.group_page hg').1
      have h2 := (hi.group_page hg).1
      simp only [pgSize] at h1 h2
      omega
  · have hx' : ¬ (p - pgOfs p ≤ x ∧ x < p - pgOfs p + 12) := fun h => hx ⟨_, hg, h⟩
    show store32 s.mem (p - pgOfs p + 8) c x = s.mem x
    exact memcpy_out (by omega)

theorem HeapInv.block_is (hi : HeapInv s live) {d : Nat} {desc : Desc} (hb : s.Block d desc p)
    (hdesc : descs[d]? = some desc) : s.Is p (.block (p - pgOfs p) d) := by
  obtain ⟨h1, h2, i, h3, h4, -⟩ := hi.block_arena hb hdesc
  exact ⟨h1, h2, desc, i, hdesc, h3, h4⟩

theorem size_block {a d : Nat} {desc : Desc} (hdesc : descs[d]? = some desc) :
    (Piece.block a d).size = desc.blockSize := by simp [Piece.size, hdesc]

/-- With an empty free list the block is the first of a new page. -/
theorem mallocSmall_fresh (hi : HeapInv s live) {d : Nat} {desc : Desc}
    (hdesc : descs[d]? = some desc) (hempty : s.freeList d = []) {i : Nat}
    (hfit : i + 1 ≤ bitmapSize s.pool.usedMap)
    (hfree : ∀ j < 1, bitmapTest s.pool.usedMap (i + j) = false) :
    ∃ p s', takeBlock d ((s.newArena i 1 (d + 1) desc.blocksPerArena).setList d
        ((List.range desc.blocksPerArena).map (blockAt (s.pool.base + pgSize * i) desc))) =
        .ok (some p, s') ∧ MallocEffect s s' live p (.block (s.pool.base + pgSize * i) d) := by
  have hnew := hi.newArena_small hdesc hempty hfit hfree
  have hc : desc.blocksPerArena < 2 ^ 32 := (descOk hdesc).cnt_le.trans_lt (by decide)
  have hmem : (s.newArena i 1 (d + 1) desc.blocksPerArena).mem =
    (s.newArena i 1 (d + 1) desc.blocksPerArena).mem := rfl
  obtain ⟨hsame, -⟩ := hi.newArena_headers Nat.one_pos hfree (desc_lt hdesc) hc hmem
  -- the first block is one of the new arena
  obtain ⟨b, l, hl⟩ := List.exists_cons_of_ne_nil
    (l := (List.range desc.blocksPerArena).map (blockAt (s.pool.base + pgSize * i) desc))
    fun h => (descOk hdesc).cnt.ne' (by simpa using h)
  obtain ⟨j, hj, hb⟩ := List.mem_map.mp (hl ▸ List.mem_cons_self : b ∈ _)
  have hgroup : (s.pool.base + pgSize * i, 1) ∈ (s.newArena i 1 (d + 1) desc.blocksPerArena).groups :=
    mem_newArena.mpr (.inl rfl)
  have hpage : b - pgOfs b = s.pool.base + pgSize * i := by
    rw [← hb]
    exact ((descOk hdesc).page (hnew.group_page hgroup).1 (List.mem_range.mp hj)).2
  generalize hs1 : (s.newArena i 1 (d + 1) desc.blocksPerArena).setList d
    ((List.range desc.blocksPerArena).map (blockAt (s.pool.base + pgSize * i) desc)) = s1 at hnew
  have hlist1 : s1.freeList = Function.update s.freeList d (b :: l) := by
    subst hs1
    rw [← hl]
    rfl
  have hl1 : s1.freeList d = b :: l := by rw [hlist1, Function.update_self]
  have hgroups1 : s1.groups = (s.newArena i 1 (d + 1) desc.blocksPerArena).groups := by subst hs1; rfl
  have hdesc1 : ∀ g ∈ s.groups, s1.descOf g.1 = s.descOf g.1 ∧ s1.freeCnt g.1 = s.freeCnt g.1 := by
    subst hs1
    exact fun g hg => ⟨(hsame g hg).2.1, (hsame g hg).2.2⟩
  have hmem1 : s1.mem = (s.newArena i 1 (d + 1) desc.blocksPerArena).mem := by subst hs1; rfl
  obtain ⟨s', hrun, hinv, hnone, hgroups, hpool, htop, hlist, hdesc', hmem'⟩ :=
    takeBlock_effect hnew hdesc hl1
  have hblock := ((hnew.free d desc hdesc b).mp (by rw [hl1]; exact List.mem_cons_self)).1
  refine ⟨b, s', hrun, ?_, fun hf => hnone fun g hg hne e desc' hd hdesc' => ?_, ?_, ?_, ?_,
    fun g hg => ?_, fun x hx => ?_⟩
  · rw [size_block hdesc]
    exact hinv
  · rw [hgroups1] at hg
    rcases List.mem_cons.mp hg with rfl | hg
    · exact absurd hpage.symm hne
    · obtain ⟨h2, h3⟩ := hdesc1 g hg
      exact h3.trans_lt (hf g hg e desc' (h2.symm.trans hd) hdesc')
  · rw [← hpage]
    exact hinv.block_is ((block_congr hdesc' hgroups).mpr hblock) hdesc
  · right
    refine ⟨hempty, ⟨hgroups.trans hgroups1, i, rfl, hfit, hfree, ?_⟩, desc, hdesc, ?_⟩
    · rw [hpool]
      subst hs1
      rfl
    · rw [hlist, Function.update_self, hlist1, Function.update_idem, Function.update_idem, hl]
  · rw [htop]
    subst hs1
    rfl
  · exact (hdesc' g (hgroups1 ▸ mem_newArena.mpr (.inr hg))).trans (hdesc1 g hg).1
  · have hx' : ¬ (s.newArena i 1 (d + 1) desc.blocksPerArena).InHeader x := fun h => by
      obtain ⟨g, hg, h⟩ := h
      exact hx ⟨g, by rw [hgroups, hgroups1]; exact hg, h⟩
    rw [hmem' x hx, hmem1]
    exact newArena_mem s i 1 (d + 1) desc.blocksPerArena hx'

/-- `malloc` for a size that a descriptor serves: it gets no block only if the free list is
empty and there is no page. -/
theorem mallocSmall_effect (hi : HeapInv s live) {d : Nat} {desc : Desc}
    (hdesc : descs[d]? = some desc) :
    ((s.freeList d = [] ∧ ¬ s.HasPages 1) ∧
      ∃ l, mallocSmall d s = .ok (none, { s with answers := l })) ∨
    ¬ (s.freeList d = [] ∧ ¬ s.HasPages 1) ∧ ∃ p a s', mallocSmall d s = .ok (some p, s') ∧
      MallocEffect s s' live p (.block a d) := by
  by_cases hempty : s.freeList d = []
  · rcases pallocGetMultiple_cases 1 s with ⟨hno, l, he⟩ | ⟨hone, i, hans, hfit, hfree, he⟩
    · refine .inl ⟨⟨hempty, hno⟩, l, ?_⟩
      rw [mallocSmall, bind_run, get_run, ok_bind, if_pos hempty, bind_run, he]
      rfl
    · right
      obtain ⟨p, s', hrun, heff⟩ := mallocSmall_fresh hi hdesc hempty hfit hfree
      refine ⟨fun h => h.2 ⟨hone, i, hans, hfit, hfree⟩, p, _, s', ?_, heff⟩
      rw [mallocSmall_new hi hdesc hempty hfree he]
      exact hrun
  · right
    obtain ⟨b, l, hl⟩ := List.exists_cons_of_ne_nil hempty
    obtain ⟨s', hrun, hinv, hnone, hgroups, hpool, htop, hlist, hdesc', hmem'⟩ :=
      takeBlock_effect hi hdesc hl
    have hblock := ((hi.free d desc hdesc b).mp (by rw [hl]; exact List.mem_cons_self)).1
    refine ⟨fun h => hempty h.1, b, b - pgOfs b, s', ?_, ?_, fun hf => hnone (hf.but _), ?_, ?_, htop, hdesc',
      hmem'⟩
    · rw [mallocSmall, bind_run, get_run, ok_bind, if_neg hempty]
      exact hrun
    · rw [size_block hdesc]
      exact hinv
    · exact hinv.block_is ((block_congr hdesc' hgroups).mpr hblock) hdesc
    · left
      refine ⟨hgroups, hpool, ?_⟩
      rw [hlist, Function.update_self, Function.update_idem, ← hl, Function.update_eq_self]

/-- `malloc` gets no memory: neither a block that was given back nor pages. -/
def Heap.Refuses (s : Heap) (size : Nat) : Prop :=
  match descs.findIdx? fun desc => size ≤ desc.blockSize with
  | none => ¬ s.HasPages (bigPages size)
  | some d => s.freeList d = [] ∧ ¬ s.HasPages 1

/-- **`malloc`** in any state: a null pointer and nothing has changed, or a block, which is big
enough if the number of its pages did not wrap. -/
theorem malloc_effect (hi : HeapInv s live) {size : Nat} (h0 : 0 < size) :
    (s.Refuses size ∧ ∃ l, malloc size s = .ok (none, { s with answers := l })) ∨
    ¬ s.Refuses size ∧ ∃ p k s', malloc size s = .ok (some p, s') ∧ MallocEffect s s' live p k ∧
      (s.Serves size → size ≤ k.size) := by
  rw [malloc, if_neg h0.ne']
  unfold Heap.Refuses
  cases h : descs.findIdx? fun desc => size ≤ desc.blockSize with
  | none =>
    simp only
    rcases mallocBig_cases size s with hno | ⟨hn, i, hans, hfit, hfree, he⟩
    · exact .inl hno
    · refine .inr ⟨fun hno => hno ⟨hn, i, hans, hfit, hfree⟩, _, _, _, he,
        bigArena_effect hi hn hfit hfree (bigPages_lt size), fun hsize => ?_⟩
      -- the sum has not wrapped, or there would be no page
      rcases hsize with hlt | ⟨-, hno⟩
      · simp only [Piece.size, bigPages, arenaSize, pgSize] at hn ⊢
        omega
      · exact absurd ⟨i, hans, by omega, hfree 0 hn⟩ hno
  | some d =>
    simp only
    obtain ⟨hd, hle, -⟩ := List.findIdx?_eq_some_iff_getElem.mp h
    have hdesc := List.getElem?_eq_getElem hd
    rcases mallocSmall_effect hi hdesc with hno | ⟨hyes, p, a, s', he, heff⟩
    · exact .inl hno
    · exact .inr ⟨hyes, p, _, s', he, heff, fun _ => by
        rw [size_block hdesc]
        exact of_decide_eq_true hle⟩

/-- The block of a request that the size of a descriptor or a number of pages can serve. -/
theorem malloc_run (hi : HeapInv s live) {size : Nat} (hsize : s.Serves size) :
    ∃ r s', malloc size s = .ok (r, s') ∧ HeapInv s' (lend live r size) ∧
      (NoneFree s → NoneFree s') := by
  by_cases h0 : size = 0
  · refine ⟨none, s, ?_, hi, fun hf => hf⟩
    rw [malloc, if_pos h0]
    rfl
  rcases malloc_effect hi (Nat.pos_of_ne_zero h0) with ⟨-, l, he⟩ | ⟨hroom, p, k, s', he, heff, hle⟩
  · exact ⟨none, _, he, hi.answers l, fun hf => hf⟩
  · exact ⟨some p, s', he, heff.inv.shrink (hle hsize), heff.noneFree⟩

end

end Pintos.Threads.Malloc
