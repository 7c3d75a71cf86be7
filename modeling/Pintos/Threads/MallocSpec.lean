import Pintos.Threads.Malloc

/-!
# The heap between calls

`HeapInv` ties the free lists, the counters in the headers and the pages together: a block
of a small arena is on the free list of its descriptor or in the hands of a caller. Every
function is shown to run through and to keep it.
-/

namespace Pintos.Threads.Malloc

open Pintos.Base Pintos.Kernel

/-! ## Descriptors and blocks -/

structure DescOk (desc : Desc) : Prop where
  size : 0 < desc.blockSize
  cnt : 0 < desc.blocksPerArena
  fits : arenaSize + desc.blocksPerArena * desc.blockSize ≤ pgSize

theorem descOk {d : Nat} {desc : Desc} (h : descs[d]? = some desc) : DescOk desc := by
  have hall : ∀ desc ∈ descs, 0 < desc.blockSize ∧ 0 < desc.blocksPerArena ∧
      arenaSize + desc.blocksPerArena * desc.blockSize ≤ pgSize := by decide
  obtain ⟨h1, h2, h3⟩ := hall desc (List.mem_of_getElem? h)
  exact ⟨h1, h2, h3⟩

/-- Block `i` of the arena at `a`. -/
def blockAt (a : Nat) (desc : Desc) (i : Nat) : Nat := a + arenaSize + i * desc.blockSize

section

variable {desc : Desc} {a i j : Nat}

theorem DescOk.block_le (h : DescOk desc) (hi : i < desc.blocksPerArena) :
    arenaSize + i * desc.blockSize + desc.blockSize ≤ pgSize := by
  have := Nat.mul_le_mul_right desc.blockSize (Nat.succ_le_of_lt hi)
  rw [Nat.succ_mul] at this
  have := h.fits
  omega

theorem DescOk.cnt_le (h : DescOk desc) : desc.blocksPerArena ≤ pgSize := by
  have := Nat.mul_le_mul_left desc.blocksPerArena h.size
  have := h.fits
  omega

/-- The page of a block. -/
theorem DescOk.page (h : DescOk desc) (ha : a % pgSize = 0) (hi : i < desc.blocksPerArena) :
    pgOfs (blockAt a desc i) = arenaSize + i * desc.blockSize ∧
      blockAt a desc i - pgOfs (blockAt a desc i) = a := by
  have h1 := h.block_le hi
  have h2 := h.size
  have hofs : pgOfs (blockAt a desc i) = arenaSize + i * desc.blockSize := by
    simp only [pgOfs, blockAt, pgSize] at *
    omega
  refine ⟨hofs, ?_⟩
  rw [hofs, blockAt]
  omega

theorem blockAt_inj (h : DescOk desc) (he : blockAt a desc i = blockAt a desc j) : i = j := by
  unfold blockAt at he
  exact Nat.eq_of_mul_eq_mul_right h.size (by omega)

/-- Two blocks of an arena lie apart. -/
theorem blockAt_apart (hij : i ≠ j) : blockAt a desc i + desc.blockSize ≤ blockAt a desc j ∨
    blockAt a desc j + desc.blockSize ≤ blockAt a desc i := by
  unfold blockAt
  rcases Nat.lt_or_gt_of_ne hij with h | h
  · have := Nat.mul_le_mul_right desc.blockSize (Nat.succ_le_of_lt h)
    rw [Nat.succ_mul] at this
    omega
  · have := Nat.mul_le_mul_right desc.blockSize (Nat.succ_le_of_lt h)
    rw [Nat.succ_mul] at this
    omega

end

theorem assert_run {b : Bool} (h : b = true) (s : Heap) : assert b s = .ok ((), s) := by
  subst h
  rfl

theorem getDesc_run {d : Nat} {desc : Desc} (h : descs[d]? = some desc) (s : Heap) :
    getDesc d s = .ok (desc, s) := by
  rw [getDesc, h]
  rfl

/-! ## The invariant -/

namespace Heap

/-- A block of an arena of descriptor `d`. -/
def Block (s : Heap) (d : Nat) (desc : Desc) (b : Nat) : Prop :=
  ∃ a i, (a, 1) ∈ s.groups ∧ s.descOf a = some d ∧ i < desc.blocksPerArena ∧ b = blockAt a desc i

/-- The blocks of an arena that are on the free list. -/
def freeBlocks (s : Heap) (a d : Nat) (desc : Desc) : Finset Nat :=
  (Finset.range desc.blocksPerArena).filter fun i => blockAt a desc i ∈ s.freeList d

/-- A block of at least the given size in the hands of a caller. -/
def Lent (s : Heap) (b n : Nat) : Prop :=
  (∃ a m, (a, m) ∈ s.groups ∧ s.descOf a = none ∧ b = a + arenaSize ∧ n + arenaSize ≤ pgSize * m) ∨
  ∃ d desc, descs[d]? = some desc ∧ s.Block d desc b ∧ n ≤ desc.blockSize

/-- The headers of the arenas are the same. -/
def SameHeaders (s s' : Heap) : Prop :=
  ∀ g ∈ s.groups, s'.magic g.1 = s.magic g.1 ∧ s'.descOf g.1 = s.descOf g.1 ∧
    s'.freeCnt g.1 = s.freeCnt g.1

end Heap

/-- The addresses of the blocks that callers have. -/
def addrs (live : List (Nat × Nat)) : List Nat := live.map Prod.fst

structure HeapInv (s : Heap) (live : List (Nat × Nat)) : Prop where
  aligned : s.pool.base % pgSize = 0
  base : 0 < s.pool.base
  top : s.pool.base + pgSize * bitmapSize s.pool.usedMap ≤ s.top
  top_le : s.top ≤ 2 ^ 32
  group : ∀ g ∈ s.groups, 0 < g.2 ∧ ∃ i, g.1 = s.pool.base + pgSize * i ∧
    i + g.2 ≤ bitmapSize s.pool.usedMap ∧ ∀ j < g.2, bitmapTest s.pool.usedMap (i + j) = true
  groups : s.groups.Nodup
  apart : ∀ g ∈ s.groups, ∀ h ∈ s.groups, g ≠ h →
    g.1 + pgSize * g.2 ≤ h.1 ∨ h.1 + pgSize * h.2 ≤ g.1
  magic : ∀ g ∈ s.groups, s.magic g.1 = arenaMagic
  big : ∀ g ∈ s.groups, s.descOf g.1 = none → s.freeCnt g.1 = g.2
  small : ∀ g ∈ s.groups, ∀ d, s.descOf g.1 = some d → ∃ desc, descs[d]? = some desc ∧ g.2 = 1 ∧
    s.freeCnt g.1 = (s.freeBlocks g.1 d desc).card
  nodup : ∀ d, (s.freeList d).Nodup
  free : ∀ d desc, descs[d]? = some desc →
    ∀ b, b ∈ s.freeList d ↔ s.Block d desc b ∧ b ∉ addrs live
  lentNodup : (addrs live).Nodup
  lent : ∀ l ∈ live, s.Lent l.1 l.2

/-- Between calls no arena is entirely free. -/
def NoneFree (s : Heap) : Prop :=
  ∀ g ∈ s.groups, ∀ d desc, s.descOf g.1 = some d → descs[d]? = some desc →
    s.freeCnt g.1 < desc.blocksPerArena

section

variable {s s' : Heap} {live : List (Nat × Nat)} {g h : Nat × Nat} {a b d n m x : Nat} {desc : Desc}

theorem HeapInv.group_page (hi : HeapInv s live) (hg : g ∈ s.groups) :
    g.1 % pgSize = 0 ∧ 0 < g.1 ∧ 0 < g.2 ∧ g.1 + pgSize * g.2 ≤ s.top := by
  obtain ⟨h0, i, h1, h2, -⟩ := hi.group g hg
  have ha := hi.aligned
  have hb := hi.base
  have ht := hi.top
  simp only [pgSize] at *
  omega

/-- An address belongs to one arena. -/
theorem HeapInv.group_unique (hi : HeapInv s live) (hg : g ∈ s.groups) (hh : h ∈ s.groups)
    (h1 : g.1 ≤ x) (h2 : x < g.1 + pgSize * g.2) (h3 : h.1 ≤ x) (h4 : x < h.1 + pgSize * h.2) :
    g = h := by
  by_contra hne
  have := hi.apart g hg h hh hne
  omega

theorem HeapInv.group_eq (hi : HeapInv s live) (hg : g ∈ s.groups) (hh : h ∈ s.groups)
    (he : g.1 = h.1) : g = h := by
  obtain ⟨-, -, hn, -⟩ := hi.group_page hg
  obtain ⟨-, -, hm, -⟩ := hi.group_page hh
  exact hi.group_unique hg hh (x := g.1) le_rfl (by simp only [pgSize]; omega) (by omega)
    (by simp only [pgSize]; omega)

/-! ## Headers -/

theorem descOf_congr (hw : load32 s'.mem (a + 4) = load32 s.mem (a + 4)) :
    s'.descOf a = s.descOf a := by
  unfold Heap.descOf
  rw [hw]

/-- Memory outside of the headers does not matter. -/
theorem Heap.SameHeaders.of_mem (h : ∀ g ∈ s.groups, ∀ k < arenaSize, s'.mem (g.1 + k) = s.mem (g.1 + k)) :
    s.SameHeaders s' := by
  intro g hg
  have hword : ∀ k, k + 4 ≤ arenaSize → load32 s'.mem (g.1 + k) = load32 s.mem (g.1 + k) := by
    intro k hk
    refine load32_congr fun j hj => ?_
    rw [Nat.add_assoc]
    exact h g hg (k + j) (by omega)
  exact ⟨hword 0 (by decide), descOf_congr (hword 4 (by decide)), hword 8 (by decide)⟩

theorem block_congr (hh : ∀ g ∈ s.groups, s'.descOf g.1 = s.descOf g.1) (hg : s'.groups = s.groups) :
    s'.Block d desc b ↔ s.Block d desc b := by
  unfold Heap.Block
  constructor
  · rintro ⟨a, i, h1, h2, h3, h4⟩
    rw [hg] at h1
    exact ⟨a, i, h1, by rw [← hh _ h1]; exact h2, h3, h4⟩
  · rintro ⟨a, i, h1, h2, h3, h4⟩
    exact ⟨a, i, by rw [hg]; exact h1, by rw [hh _ h1]; exact h2, h3, h4⟩

theorem lent_congr (hh : ∀ g ∈ s.groups, s'.descOf g.1 = s.descOf g.1) (hg : s'.groups = s.groups)
    (h : s.Lent b n) : s'.Lent b n := by
  rcases h with ⟨a, m, h1, h2, h3, h4⟩ | ⟨d, desc, h1, h2, h3⟩
  · exact .inl ⟨a, m, by rw [hg]; exact h1, by rw [hh _ h1]; exact h2, h3, h4⟩
  · exact .inr ⟨d, desc, h1, (block_congr hh hg).mpr h2, h3⟩

theorem Heap.SameHeaders.none_free (hh : s.SameHeaders s') (hg : s'.groups = s.groups)
    (hn : NoneFree s) : NoneFree s' := by
  intro g hg' d desc hd hdesc
  rw [hg] at hg'
  obtain ⟨-, h2, h3⟩ := hh g hg'
  rw [h3]
  exact hn g hg' d desc (by rw [← h2]; exact hd) hdesc

/-- The invariant depends on memory by way of the headers only. -/
theorem HeapInv.congr (hi : HeapInv s live) (hh : s.SameHeaders s') (hp : s'.pool = s.pool)
    (ht : s'.top = s.top) (hl : s'.freeList = s.freeList) (hg : s'.groups = s.groups) :
    HeapInv s' live where
  aligned := by rw [hp]; exact hi.aligned
  base := by rw [hp]; exact hi.base
  top := by rw [hp, ht]; exact hi.top
  top_le := by rw [ht]; exact hi.top_le
  group := by rw [hg, hp]; exact hi.group
  groups := by rw [hg]; exact hi.groups
  apart := by rw [hg]; exact hi.apart
  magic := by
    intro g hg'
    rw [hg] at hg'
    rw [(hh g hg').1]
    exact hi.magic g hg'
  big := by
    intro g hg' hd
    rw [hg] at hg'
    obtain ⟨-, h2, h3⟩ := hh g hg'
    rw [h3]
    exact hi.big g hg' (by rw [← h2]; exact hd)
  small := by
    intro g hg' d hd
    rw [hg] at hg'
    obtain ⟨-, h2, h3⟩ := hh g hg'
    unfold Heap.freeBlocks
    rw [h3, hl]
    exact hi.small g hg' d (by rw [← h2]; exact hd)
  nodup := by rw [hl]; exact hi.nodup
  free := by
    intro d desc hd b
    rw [hl, block_congr (fun g hg' => (hh g hg').2.1) hg]
    exact hi.free d desc hd b
  lentNodup := hi.lentNodup
  lent l hl' := lent_congr (fun g hg' => (hh g hg').2.1) hg (hi.lent l hl')

/-- A block that is lent lies in an arena, behind its header. -/
theorem Heap.Lent.within (h : s.Lent b n) :
    ∃ g ∈ s.groups, g.1 + arenaSize ≤ b ∧ b + n ≤ g.1 + pgSize * g.2 := by
  rcases h with ⟨a, m, h1, -, rfl, h4⟩ | ⟨d, desc, h1, ⟨a, i, h2, -, h3, rfl⟩, h4⟩
  · exact ⟨(a, m), h1, le_rfl, by simp only; omega⟩
  · have := (descOk h1).block_le h3
    refine ⟨(a, 1), h2, ?_, ?_⟩ <;> simp only [blockAt, arenaSize] at * <;> omega

/-- Two blocks at different addresses lie apart. -/
theorem HeapInv.lent_apart (hi : HeapInv s live) (h : s.Lent b n) (h' : s.Lent b' n') (hne : b ≠ b') :
    b + n ≤ b' ∨ b' + n' ≤ b := by
  rcases h with ⟨a, m, h1, h2, rfl, h4⟩ | ⟨d, desc, hd, ⟨a, i, h1, h2, h3, rfl⟩, h4⟩ <;>
    rcases h' with ⟨a', m', h1', h2', rfl, h4'⟩ | ⟨d', desc', hd', ⟨a', i', h1', h2', h3', rfl⟩, h4'⟩
  · have he : (a, m) ≠ (a', m') := fun he => hne (by cases he; rfl)
    have := hi.apart _ h1 _ h1' he
    simp only [arenaSize, pgSize] at *
    omega
  · have he : (a, m) ≠ (a', 1) := fun he => by
      cases he
      rw [h2] at h2'
      cases h2'
    have := hi.apart _ h1 _ h1' he
    have := (descOk hd').block_le h3'
    simp only [blockAt, arenaSize, pgSize] at *
    omega
  · have he : (a, 1) ≠ (a', m') := fun he => by
      cases he
      rw [h2] at h2'
      cases h2'
    have := hi.apart _ h1 _ h1' he
    have := (descOk hd).block_le h3
    simp only [blockAt, arenaSize, pgSize] at *
    omega
  · by_cases he : a = a'
    · subst he
      rw [h2] at h2'
      cases h2'
      rw [hd] at hd'
      cases hd'
      have := @blockAt_apart desc a i i' fun hij => hne (by rw [hij])
      omega
    · have := hi.apart _ h1 _ h1' fun h => he (congrArg Prod.fst h)
      have := (descOk hd).block_le h3
      have := (descOk hd').block_le h3'
      simp only [blockAt, arenaSize, pgSize] at *
      omega

/-- The arena of a block. -/
theorem HeapInv.block_arena (hi : HeapInv s live) (h : s.Block d desc b) (hd : descs[d]? = some desc) :
    (b - pgOfs b, 1) ∈ s.groups ∧ s.descOf (b - pgOfs b) = some d ∧
      ∃ i < desc.blocksPerArena, b = blockAt (b - pgOfs b) desc i ∧
        pgOfs b = arenaSize + i * desc.blockSize := by
  obtain ⟨a, i, h1, h2, h3, rfl⟩ := h
  obtain ⟨h4, h5⟩ := (descOk hd).page (hi.group_page h1).1 h3
  rw [h5]
  exact ⟨h1, h2, i, h3, rfl, h4⟩

/-- A store inside a block that is lent. -/
theorem HeapInv.store (hi : HeapInv s live) (h : s.Lent b n) (src : Buffer) (i : Nat) {k : Nat}
    (hk : k ≤ n) :
    s.SameHeaders { s with mem := memcpy s.mem b src i k } := by
  obtain ⟨g, hg, h1, h2⟩ := h.within
  refine .of_mem fun g' hg' j hj => memcpy_out ?_
  by_cases hgg : g = g'
  · subst hgg
    omega
  · have := hi.apart g hg g' hg' hgg
    obtain ⟨-, -, h3, -⟩ := hi.group_page hg'
    simp only [arenaSize, pgSize] at *
    omega

/-- `memset` and `memcpy` into a block that is lent. -/
theorem HeapInv.copy (hi : HeapInv s live) (h : s.Lent b n) (src : Buffer) (i : Nat) {k : Nat}
    (hk : k ≤ n) : copy b src i k s = .ok ((), { s with mem := memcpy s.mem b src i k }) ∧
      HeapInv { s with mem := memcpy s.mem b src i k } live := by
  obtain ⟨g, hg, h1, h2⟩ := h.within
  obtain ⟨-, -, -, htop⟩ := hi.group_page hg
  refine ⟨?_, hi.congr (hi.store h src i hk) rfl rfl rfl rfl⟩
  have hle : b + k ≤ s.top := by omega
  rw [Malloc.copy, bind_run, get_run, ok_bind, if_pos hle]
  rfl

/-! ## Pages -/

/-- The page allocator has `n` pages to give. -/
def Heap.HasPages (s : Heap) (n : Nat) : Prop :=
  0 < n ∧ ∃ i, s.answers.headD none = some i ∧ i + n ≤ bitmapSize s.pool.usedMap ∧
    ∀ j < n, bitmapTest s.pool.usedMap (i + j) = false

/-- What `palloc_get_multiple` can do. -/
theorem pallocGetMultiple_cases (n : Nat) (s : Heap) :
    (¬ s.HasPages n ∧ ∃ l, pallocGetMultiple n s = .ok (none, { s with answers := l })) ∨
    0 < n ∧ ∃ i, s.answers.headD none = some i ∧ i + n ≤ bitmapSize s.pool.usedMap ∧
      (∀ j < n, bitmapTest s.pool.usedMap (i + j) = false) ∧
      pallocGetMultiple n s = .ok (some (s.pool.base + pgSize * i), { s with
        answers := s.answers.tail
        pool := { s.pool with usedMap := bitmapSetMultiple s.pool.usedMap i n true }
        groups := (s.pool.base + pgSize * i, n) :: s.groups }) := by
  unfold pallocGetMultiple Heap.HasPages
  split
  · next hn => exact .inl ⟨fun h => by omega, s.answers, rfl⟩
  next hn =>
  rw [bind_run, get_run, ok_bind]
  simp only
  cases s.answers.headD none with
  | none => exact .inl ⟨by simp, s.answers.tail, rfl⟩
  | some i =>
    simp only
    split
    · next h =>
      refine .inr ⟨Nat.pos_of_ne_zero hn, i, rfl, h.1, ?_, rfl⟩
      exact bitmapContains_not.mp h.2
    · next h =>
      refine .inl ⟨?_, s.answers.tail, rfl⟩
      rintro ⟨-, i', hi', hfit, hfree⟩
      cases hi'
      exact h ⟨hfit, bitmapContains_not.mpr hfree⟩

/-- A header does not reach into another arena. -/
theorem HeapInv.header_apart (hi : HeapInv s live) (hg : g ∈ s.groups)
    (ha : a + pgSize ≤ g.1 ∨ g.1 + pgSize * g.2 ≤ a) (ha' : a % pgSize = 0) {k : Nat}
    (hk : k < arenaSize) : g.1 + k < a ∨ a + arenaSize ≤ g.1 + k := by
  obtain ⟨h1, -, h3, -⟩ := hi.group_page hg
  simp only [arenaSize, pgSize] at *
  omega

/-- A run of free pages lies apart from the arenas. -/
theorem HeapInv.fresh_apart (hi : HeapInv s live) {i : Nat}
    (hfree : ∀ j < n, bitmapTest s.pool.usedMap (i + j) = false) (hn : 0 < n) (hg : g ∈ s.groups) :
    g.1 + pgSize * g.2 ≤ s.pool.base + pgSize * i ∨ s.pool.base + pgSize * i + pgSize * n ≤ g.1 := by
  obtain ⟨h0, k, h1, -, hused⟩ := hi.group g hg
  by_contra hc
  push Not at hc
  -- the two runs share a page, the larger of the first pages
  have hmax : max i k - k < g.2 ∧ max i k - i < n := by
    simp only [pgSize] at *
    omega
  have h2 := hused (max i k - k) hmax.1
  have h3 := hfree (max i k - i) hmax.2
  rw [show k + (max i k - k) = max i k by omega] at h2
  rw [show i + (max i k - i) = max i k by omega, h2] at h3
  cases h3

/-- The words of a new header. -/
theorem header_words (s : Heap) (a w c : Nat) (hw : w < 2 ^ 32) (hc : c < 2 ^ 32) :
    (s.setHeader a w c).magic a = arenaMagic ∧
    (s.setHeader a w c).descOf a = (if w = 0 then none else some (w - 1)) ∧
    (s.setHeader a w c).freeCnt a = c := by
  refine ⟨?_, ?_, load32_store32 _ _ hc⟩
  · unfold Heap.magic Heap.setHeader
    rw [load32_store32_of_disjoint (by omega), load32_store32_of_disjoint (by omega),
      load32_store32 _ _ (by decide)]
  · unfold Heap.descOf Heap.setHeader
    rw [load32_store32_of_disjoint (by omega), load32_store32 _ _ hw]

/-- The state after pages have been obtained and their header written. -/
def Heap.newArena (s : Heap) (i n w c : Nat) : Heap :=
  { s with
    answers := s.answers.tail
    pool := { s.pool with usedMap := bitmapSetMultiple s.pool.usedMap i n true }
    groups := (s.pool.base + pgSize * i, n) :: s.groups }.setHeader (s.pool.base + pgSize * i) w c

section

variable {i w c : Nat} {live' : List (Nat × Nat)}

/-- The headers with a new arena. -/
theorem HeapInv.newArena_headers (hi : HeapInv s live) (hn : 0 < n)
    (hfree : ∀ j < n, bitmapTest s.pool.usedMap (i + j) = false) (hw : w < 2 ^ 32) (hc : c < 2 ^ 32)
    (hmem : s'.mem = (s.newArena i n w c).mem) :
    s.SameHeaders s' ∧ s'.magic (s.pool.base + pgSize * i) = arenaMagic ∧
      s'.descOf (s.pool.base + pgSize * i) = (if w = 0 then none else some (w - 1)) ∧
      s'.freeCnt (s.pool.base + pgSize * i) = c := by
  have hbase := hi.aligned
  have hal : (s.pool.base + pgSize * i) % pgSize = 0 := by
    simp only [pgSize] at *
    omega
  constructor
  · refine .of_mem fun g hg k hk => ?_
    have hout := hi.header_apart (a := s.pool.base + pgSize * i) hg (by
      rcases hi.fresh_apart hfree hn hg with h | h
      · exact .inr h
      · left
        simp only [pgSize] at *
        omega) hal hk
    have h12 : arenaSize = 12 := rfl
    rw [hmem]
    simp only [Heap.newArena, Heap.setHeader, store32]
    rw [memcpy_out (by omega), memcpy_out (by omega), memcpy_out (by omega)]
  · unfold Heap.magic Heap.descOf Heap.freeCnt
    rw [hmem]
    exact header_words { s with
      answers := s.answers.tail
      pool := { s.pool with usedMap := bitmapSetMultiple s.pool.usedMap i n true }
      groups := (s.pool.base + pgSize * i, n) :: s.groups } _ w c hw hc

theorem mem_newArena {g : Nat × Nat} : g ∈ (s.newArena i n w c).groups ↔
    g = (s.pool.base + pgSize * i, n) ∨ g ∈ s.groups := List.mem_cons

/-- The blocks with a new arena. -/
theorem HeapInv.newArena_block (hi : HeapInv s live) (hn : 0 < n)
    (hfree : ∀ j < n, bitmapTest s.pool.usedMap (i + j) = false) (hw : w < 2 ^ 32) (hc : c < 2 ^ 32)
    (hmem : s'.mem = (s.newArena i n w c).mem) (hgroups : s'.groups = (s.newArena i n w c).groups) :
    s'.Block d desc b ↔ s.Block d desc b ∨ w = d + 1 ∧ n = 1 ∧
      ∃ j < desc.blocksPerArena, b = blockAt (s.pool.base + pgSize * i) desc j := by
  obtain ⟨hsame, -, hdesc, -⟩ := hi.newArena_headers hn hfree hw hc hmem
  constructor
  · rintro ⟨a, j, h1, h2, h3, h4⟩
    rw [hgroups] at h1
    rcases mem_newArena.mp h1 with he | h1
    · simp only [Prod.mk.injEq] at he
      obtain ⟨rfl, rfl⟩ := he
      rw [hdesc] at h2
      split at h2
      · cases h2
      next hne =>
      cases h2
      exact .inr ⟨by omega, rfl, j, h3, h4⟩
    · exact .inl ⟨a, j, h1, by rw [← (hsame _ h1).2.1]; exact h2, h3, h4⟩
  · rintro (⟨a, j, h1, h2, h3, h4⟩ | ⟨rfl, rfl, j, h3, h4⟩)
    · refine ⟨a, j, ?_, by rw [(hsame _ h1).2.1]; exact h2, h3, h4⟩
      rw [hgroups]
      exact mem_newArena.mpr (.inr h1)
    · refine ⟨_, j, ?_, ?_, h3, h4⟩
      · rw [hgroups]
        exact mem_newArena.mpr (.inl rfl)
      · rw [hdesc, if_neg (by omega)]
        rfl

/-- What was lent is still lent. -/
theorem HeapInv.newArena_lent (hi : HeapInv s live) (hn : 0 < n)
    (hfree : ∀ j < n, bitmapTest s.pool.usedMap (i + j) = false) (hw : w < 2 ^ 32) (hc : c < 2 ^ 32)
    (hmem : s'.mem = (s.newArena i n w c).mem) (hgroups : s'.groups = (s.newArena i n w c).groups)
    (h : s.Lent b m) : s'.Lent b m := by
  rcases h with ⟨a, k, h1, h2, h3, h4⟩ | ⟨d, desc, h1, h2, h3⟩
  · obtain ⟨hsame, -⟩ := hi.newArena_headers hn hfree hw hc hmem
    refine .inl ⟨a, k, ?_, by rw [(hsame _ h1).2.1]; exact h2, h3, h4⟩
    rw [hgroups]
    exact mem_newArena.mpr (.inr h1)
  · exact .inr ⟨d, desc, h1, (hi.newArena_block hn hfree hw hc hmem hgroups).mpr (.inl h2), h3⟩

/-- A block lies inside its arena. -/
theorem Heap.Block.within (h : s.Block d desc b) (hd : descs[d]? = some desc) :
    ∃ g ∈ s.groups, g.1 + arenaSize ≤ b ∧ b + desc.blockSize ≤ g.1 + pgSize * g.2 := by
  obtain ⟨a, j, h1, -, h3, rfl⟩ := h
  have := (descOk hd).block_le h3
  refine ⟨_, h1, ?_, ?_⟩ <;> simp only [blockAt] <;> omega

/-- The invariant with a new arena. -/
theorem HeapInv.newArena (hi : HeapInv s live) (hn : 0 < n)
    (hfit : i + n ≤ bitmapSize s.pool.usedMap)
    (hfree : ∀ j < n, bitmapTest s.pool.usedMap (i + j) = false) (hw : w < 2 ^ 32) (hc : c < 2 ^ 32)
    (hpool : s'.pool = (s.newArena i n w c).pool) (htop : s'.top = s.top)
    (hgroups : s'.groups = (s.newArena i n w c).groups) (hmem : s'.mem = (s.newArena i n w c).mem)
    (hbig : w = 0 → c = n)
    (hsmall : ∀ d, w = d + 1 → ∃ desc, descs[d]? = some desc ∧ n = 1 ∧
      c = (s'.freeBlocks (s.pool.base + pgSize * i) d desc).card)
    (hcount : ∀ g ∈ s.groups, ∀ d desc, s.descOf g.1 = some d → descs[d]? = some desc →
      s'.freeBlocks g.1 d desc = s.freeBlocks g.1 d desc)
    (hnodup : ∀ d, (s'.freeList d).Nodup)
    (hlist : ∀ d desc, descs[d]? = some desc →
      ∀ b, b ∈ s'.freeList d ↔ s'.Block d desc b ∧ b ∉ addrs live')
    (hlentNodup : (addrs live').Nodup) (hlent : ∀ l ∈ live', s'.Lent l.1 l.2) :
    HeapInv s' live' := by
  obtain ⟨hsame, hnew1, hnew2, hnew3⟩ := hi.newArena_headers hn hfree hw hc hmem
  have hsize : bitmapSize s'.pool.usedMap = bitmapSize s.pool.usedMap := by
    rw [hpool]
    exact bitmapSize_setMultiple ..
  have hbit : ∀ t, bitmapTest s'.pool.usedMap t =
      if i ≤ t ∧ t < i + n then true else bitmapTest s.pool.usedMap t := fun t => by
    rw [hpool]
    exact bitmapTest_setMultiple hfit true t
  have hapart := fun g hg => hi.fresh_apart (g := g) hfree hn hg
  have hmemg : ∀ g, g ∈ s'.groups ↔ g = (s.pool.base + pgSize * i, n) ∨ g ∈ s.groups := by
    intro g
    rw [hgroups]
    exact mem_newArena
  refine ⟨?_, ?_, ?_, ?_, fun g hg => ?_, ?_, fun g hg h hh hne => ?_, fun g hg => ?_, fun g hg hd => ?_,
    fun g hg d hd => ?_, hnodup, hlist, hlentNodup, hlent⟩
  · rw [hpool]
    exact hi.aligned
  · rw [hpool]
    exact hi.base
  · rw [hsize, hpool, htop]
    exact hi.top
  · rw [htop]
    exact hi.top_le
  · rw [hsize, show s'.pool.base = s.pool.base by rw [hpool]; rfl]
    rcases (hmemg g).mp hg with rfl | hg
    · refine ⟨hn, i, rfl, hfit, fun j hj => ?_⟩
      rw [hbit, if_pos ⟨by omega, by omega⟩]
    · obtain ⟨h0, k, h1, h2, hused⟩ := hi.group g hg
      refine ⟨h0, k, h1, h2, fun j hj => ?_⟩
      rw [hbit, hused j hj]
      split <;> rfl
  · rw [hgroups]
    refine List.nodup_cons.mpr ⟨fun hg => ?_, hi.groups⟩
    have := hapart _ hg
    simp only [pgSize] at this
    omega
  · rcases (hmemg g).mp hg with rfl | hg <;> rcases (hmemg h).mp hh with rfl | hh
    · exact absurd rfl hne
    · exact (hapart h hh).symm
    · exact hapart g hg
    · exact hi.apart g hg h hh hne
  · rcases (hmemg g).mp hg with rfl | hg
    · exact hnew1
    · rw [(hsame g hg).1]
      exact hi.magic g hg
  · rcases (hmemg g).mp hg with rfl | hg
    · refine hnew3.trans (hbig ?_)
      by_contra hne
      simp only [hnew2, if_neg hne] at hd
      cases hd
    · obtain ⟨-, h2, h3⟩ := hsame g hg
      rw [h3]
      exact hi.big g hg (by rw [← h2]; exact hd)
  · rcases (hmemg g).mp hg with rfl | hg
    · simp only [hnew2] at hd
      split at hd
      · cases hd
      next hne =>
      cases hd
      obtain ⟨desc, h1, h2, h3⟩ := hsmall (w - 1) (by omega)
      exact ⟨desc, h1, h2, hnew3.trans h3⟩
    · obtain ⟨-, h2, h3⟩ := hsame g hg
      rw [h2] at hd
      obtain ⟨desc, h4, h5, h6⟩ := hi.small g hg d hd
      refine ⟨desc, h4, h5, ?_⟩
      rw [h3, hcount g hg d desc hd h4]
      exact h6

end

/-! ## `malloc` -/

/-- The block returned is lent. -/
def lend (live : List (Nat × Nat)) (r : Option Nat) (size : Nat) : List (Nat × Nat) :=
  r.elim live fun p => (p, size) :: live

theorem HeapInv.answers (hi : HeapInv s live) (l : List (Option Nat)) :
    HeapInv { s with answers := l } live :=
  hi.congr (fun _ _ => ⟨rfl, rfl, rfl⟩) rfl rfl rfl rfl

/-- The page allocator has a page to give. -/
def Heap.PageFree (s : Heap) : Prop :=
  ∃ i, s.answers.headD none = some i ∧ i < bitmapSize s.pool.usedMap ∧
    bitmapTest s.pool.usedMap i = false

/-- The number of pages for the size does not wrap, or no page is free. -/
def Heap.Serves (s : Heap) (size : Nat) : Prop :=
  size < 2 ^ 32 - 11 ∨ size < 2 ^ 32 ∧ ¬ s.PageFree

/-- The smaller size of a block that is lent. -/
theorem Heap.Lent.mono (h : s.Lent b n) (hm : m ≤ n) : s.Lent b m := by
  rcases h with ⟨a, k, h1, h2, h3, h4⟩ | ⟨d, desc, h1, h2, h3⟩
  · exact .inl ⟨a, k, h1, h2, h3, by omega⟩
  · exact .inr ⟨d, desc, h1, h2, hm.trans h3⟩

/-- A caller that asked for less than it got. -/
theorem HeapInv.shrink (hi : HeapInv s ((b, n) :: live)) (hm : m ≤ n) : HeapInv s ((b, m) :: live) :=
  { hi with
    lent := by
      intro l hl
      rcases List.mem_cons.mp hl with rfl | hl
      · exact (hi.lent (b, n) List.mem_cons_self).mono hm
      · exact hi.lent l (List.mem_cons_of_mem _ hl) }

/-- Pages of its own for a block. -/
theorem HeapInv.bigArena (hi : HeapInv s live) {i : Nat} (hn : 0 < n)
    (hfit : i + n ≤ bitmapSize s.pool.usedMap)
    (hfree : ∀ j < n, bitmapTest s.pool.usedMap (i + j) = false) (hlt : n < 2 ^ 32) :
    HeapInv (s.newArena i n 0 n)
        ((s.pool.base + pgSize * i + arenaSize, pgSize * n - arenaSize) :: live) ∧
      (NoneFree s → NoneFree (s.newArena i n 0 n)) := by
  have hw0 : (0 : Nat) < 2 ^ 32 := by decide
  have hmem : (s.newArena i n 0 n).mem = (s.newArena i n 0 n).mem := rfl
  have hblock : ∀ d desc b, (s.newArena i n 0 n).Block d desc b ↔ s.Block d desc b := by
    intro d desc b
    rw [hi.newArena_block hn hfree hw0 hlt hmem rfl]
    simp
  obtain ⟨hsame, -, hdesc, -⟩ := hi.newArena_headers hn hfree hw0 hlt hmem
  have hout : ∀ b k, (∃ g ∈ s.groups, g.1 + arenaSize ≤ b ∧ b + k ≤ g.1 + pgSize * g.2) →
      b ≠ s.pool.base + pgSize * i + arenaSize := by
    rintro b k ⟨g, hg, h1, h2⟩ rfl
    have := hi.fresh_apart hfree hn hg
    simp only [arenaSize, pgSize] at *
    omega
  refine ⟨hi.newArena hn hfit hfree hw0 hlt rfl rfl rfl rfl (fun _ => rfl) (fun d h => by omega)
      (fun _ _ _ _ _ _ => rfl) hi.nodup (fun d desc hd b => ?_) ?_ fun l hl => ?_, ?_⟩
  · show b ∈ s.freeList d ↔ _ ∧ b ∉ (s.pool.base + pgSize * i + arenaSize) :: addrs live
    rw [hi.free d desc hd b, hblock, List.mem_cons, not_or]
    refine and_congr_right fun hb => ?_
    have := hout b _ (hb.within hd)
    tauto
  · refine List.nodup_cons.mpr ⟨fun hmem => ?_, hi.lentNodup⟩
    obtain ⟨l, hl, he⟩ := List.mem_map.mp hmem
    exact hout _ _ ((hi.lent l hl).within) he
  · rcases List.mem_cons.mp hl with rfl | hl
    · refine .inl ⟨_, n, mem_newArena.mpr (.inl rfl), by rw [hdesc]; rfl, rfl, ?_⟩
      simp only [arenaSize, pgSize]
      omega
    · exact hi.newArena_lent hn hfree hw0 hlt rfl rfl (hi.lent l hl)
  · intro hf g hg d desc hd hdesc'
    rcases mem_newArena.mp hg with rfl | hg
    · rw [hdesc] at hd
      cases hd
    · obtain ⟨-, h2, h3⟩ := hsame g hg
      rw [h3]
      exact hf g hg d desc (by rw [← h2]; exact hd) hdesc'

/-- The number of pages for a block that is too big for the descriptors. The sum wraps. -/
def bigPages (size : Nat) : Nat := (size + arenaSize + pgSize - 1) % 2 ^ 32 / pgSize

theorem bigPages_lt (size : Nat) : bigPages size < 2 ^ 32 := by
  simp only [bigPages, arenaSize, pgSize]
  omega

/-- What `malloc` can do for a size that is too big for the descriptors. -/
theorem mallocBig_cases (size : Nat) (s : Heap) :
    (¬ s.HasPages (bigPages size) ∧
      ∃ l, mallocBig size s = .ok (none, { s with answers := l })) ∨
    0 < bigPages size ∧ ∃ i, s.answers.headD none = some i ∧
      i + bigPages size ≤ bitmapSize s.pool.usedMap ∧
      (∀ j < bigPages size, bitmapTest s.pool.usedMap (i + j) = false) ∧
      mallocBig size s = .ok (some (s.pool.base + pgSize * i + arenaSize),
        s.newArena i (bigPages size) 0 (bigPages size)) := by
  unfold mallocBig
  rw [bind_run]
  rcases pallocGetMultiple_cases (bigPages size) s with ⟨hno, l, he⟩ | ⟨hn, i, hans, hfit, hfree, he⟩
  · left
    refine ⟨hno, l, ?_⟩
    show (pallocGetMultiple (bigPages size) s).bind _ = _
    rw [he]
    rfl
  · right
    refine ⟨hn, i, hans, hfit, hfree, ?_⟩
    show (pallocGetMultiple (bigPages size) s).bind _ = _
    rw [he]
    rfl

/-- One block of a small arena goes from the free list to a caller or back. -/
theorem HeapInv.recount (hi : HeapInv s live) {live' : List (Nat × Nat)} (hb : s.Block d desc b)
    (hd : descs[d]? = some desc) (hpool : s'.pool = s.pool) (htop : s'.top = s.top)
    (hgroups : s'.groups = s.groups)
    (hhead : ∀ g ∈ s.groups, s'.magic g.1 = s.magic g.1 ∧ s'.descOf g.1 = s.descOf g.1 ∧
      (g.1 ≠ b - pgOfs b → s'.freeCnt g.1 = s.freeCnt g.1))
    (hcnt : s'.freeCnt (b - pgOfs b) = (s'.freeBlocks (b - pgOfs b) d desc).card)
    (hlist : ∀ e x, x ≠ b ∨ e ≠ d → (x ∈ s'.freeList e ↔ x ∈ s.freeList e))
    (hnodup : ∀ e, (s'.freeList e).Nodup) (hlive : ∀ x ≠ b, (x ∈ addrs live' ↔ x ∈ addrs live))
    (hbl : b ∈ s'.freeList d ↔ b ∉ addrs live') (hlentNodup : (addrs live').Nodup)
    (hlent : ∀ l ∈ live', s.Lent l.1 l.2) : HeapInv s' live' := by
  have hdesc : ∀ g ∈ s.groups, s'.descOf g.1 = s.descOf g.1 := fun g hg => (hhead g hg).2.1
  obtain ⟨hg, hgd, -⟩ := hi.block_arena hb hd
  refine ⟨?_, ?_, ?_, ?_, ?_, ?_, ?_, fun g hg' => ?_, fun g hg' hd' => ?_, fun g hg' e hd' => ?_, hnodup,
    fun e desc' hd' x => ?_, hlentNodup, fun l hl => lent_congr hdesc hgroups (hlent l hl)⟩
  · rw [hpool]
    exact hi.aligned
  · rw [hpool]
    exact hi.base
  · rw [hpool, htop]
    exact hi.top
  · rw [htop]
    exact hi.top_le
  · rw [hgroups, hpool]
    exact hi.group
  · rw [hgroups]
    exact hi.groups
  · rw [hgroups]
    exact hi.apart
  · rw [hgroups] at hg'
    rw [(hhead g hg').1]
    exact hi.magic g hg'
  · rw [hgroups] at hg'
    rw [hdesc g hg'] at hd'
    rw [(hhead g hg').2.2 fun he => by rw [he, hgd] at hd'; cases hd']
    exact hi.big g hg' hd'
  · rw [hgroups] at hg'
    rw [hdesc g hg'] at hd'
    by_cases he : g.1 = b - pgOfs b
    · have hgg : g = (b - pgOfs b, 1) := hi.group_eq hg' hg he
      subst hgg
      rw [hgd] at hd'
      cases hd'
      exact ⟨desc, hd, rfl, hcnt⟩
    · obtain ⟨desc', h1, h2, h3⟩ := hi.small g hg' e hd'
      refine ⟨desc', h1, h2, ?_⟩
      rw [(hhead g hg').2.2 he, h3]
      unfold Heap.freeBlocks
      refine congrArg Finset.card (Finset.filter_congr fun i hir => ?_)
      refine (hlist e _ (.inl fun heq => he ?_)).symm
      -- the block lies in the page of its own arena
      have := ((descOk h1).page (hi.group_page hg').1 (Finset.mem_range.mp hir)).2
      rw [← heq, this]
  · rw [block_congr hdesc hgroups]
    by_cases hx : x = b
    · subst hx
      by_cases hed : e = d
      · subst hed
        rw [hd] at hd'
        cases hd'
        rw [hbl]
        tauto
      · have hno : ¬ s.Block e desc' x := fun h => by
          have he := (hi.block_arena h hd').2.1
          rw [hgd] at he
          cases he
          exact hed rfl
        rw [hlist e x (.inr hed), hi.free e desc' hd' x]
        tauto
    · rw [hlist e x (.inl hx), hi.free e desc' hd' x, hlive x hx]

/-- A counter is stored: the rest of the headers stays. -/
theorem HeapInv.setFreeCnt_headers (hi : HeapInv s live) (hg : g ∈ s.groups) (hn : n < 2 ^ 32)
    (hmem : s'.mem = (s.setFreeCnt g.1 n).mem) : s'.freeCnt g.1 = n ∧
    ∀ h ∈ s.groups, s'.magic h.1 = s.magic h.1 ∧ s'.descOf h.1 = s.descOf h.1 ∧
      (h.1 ≠ g.1 → s'.freeCnt h.1 = s.freeCnt h.1) := by
  have hfar : ∀ h ∈ s.groups, h.1 ≠ g.1 → h.1 + pgSize ≤ g.1 ∨ g.1 + pgSize ≤ h.1 := by
    intro h hh hne
    have := hi.apart g hg h hh fun he => hne (by rw [he])
    obtain ⟨-, -, h1, -⟩ := hi.group_page hh
    obtain ⟨-, -, h2, -⟩ := hi.group_page hg
    simp only [pgSize] at *
    omega
  have hword : ∀ h ∈ s.groups, ∀ k, k = 0 ∨ k = 4 ∨ k = 8 ∧ h.1 ≠ g.1 →
      load32 s'.mem (h.1 + k) = load32 s.mem (h.1 + k) := by
    intro h hh k hk
    rw [hmem]
    apply load32_store32_of_disjoint
    by_cases he : h.1 = g.1
    · omega
    · have := hfar h hh he
      simp only [pgSize] at this
      omega
  constructor
  · unfold Heap.freeCnt
    rw [hmem]
    exact load32_store32 _ _ hn
  · intro h hh
    refine ⟨hword h hh 0 (.inl rfl), descOf_congr (hword h hh 4 (.inr (.inl rfl))), fun hne => ?_⟩
    exact hword h hh 8 (.inr (.inr ⟨rfl, hne⟩))

/-- `block_to_arena` passes its ASSERTs on a block of a small arena. -/
theorem HeapInv.blockToArena_small (hi : HeapInv s live) (hb : s.Block d desc b)
    (hd : descs[d]? = some desc) (hmem : s'.mem = s.mem) :
    blockToArena b s' = .ok (b - pgOfs b, s') := by
  obtain ⟨hg, hgd, i, hlt, -, hofs⟩ := hi.block_arena hb hd
  obtain ⟨-, hpos, -⟩ := hi.group_page hg
  have hmagic : s'.magic (b - pgOfs b) = arenaMagic := by
    rw [Heap.magic, hmem]
    exact hi.magic _ hg
  have hgd' : s'.descOf (b - pgOfs b) = some d := (descOf_congr (by rw [hmem])).trans hgd
  have hfits := (descOk hd).block_le hlt
  have hmod : (pgOfs b + 2 ^ 32 - arenaSize) % 2 ^ 32 % desc.blockSize = 0 := by
    rw [show (pgOfs b + 2 ^ 32 - arenaSize) % 2 ^ 32 = i * desc.blockSize by
      simp only [arenaSize, pgSize] at *
      omega]
    exact Nat.mul_mod_left ..
  unfold blockToArena
  rw [bind_run, assert_run (by simpa using Nat.ne_of_gt hpos), ok_bind, bind_run, get_run, ok_bind,
    bind_run, assert_run (beq_iff_eq.mpr hmagic), ok_bind, hgd']
  simp only
  rw [bind_run, getDesc_run hd, ok_bind, bind_run, assert_run (beq_iff_eq.mpr hmod)]
  rfl

/-- `block_to_arena` passes its ASSERTs on a big block. -/
theorem HeapInv.blockToArena_big (hi : HeapInv s live) (hg : (a, n) ∈ s.groups)
    (hd : s.descOf a = none) : blockToArena (a + arenaSize) s = .ok (a, s) := by
  obtain ⟨hal, hpos, -⟩ := hi.group_page hg
  have hofs : pgOfs (a + arenaSize) = arenaSize := by
    simp only [pgOfs, arenaSize, pgSize] at *
    omega
  have ha : a + arenaSize - pgOfs (a + arenaSize) = a := by omega
  unfold blockToArena
  rw [ha, bind_run, assert_run (by simpa using Nat.ne_of_gt hpos), ok_bind, bind_run, get_run, ok_bind,
    bind_run, assert_run (beq_iff_eq.mpr (hi.magic _ hg)), ok_bind, hd]
  simp only
  rw [bind_run, assert_run (beq_iff_eq.mpr hofs)]
  rfl

theorem arenaToBlock_run (ha : a ≠ 0) (hm : s.magic a = arenaMagic) (hd : s.descOf a = some d)
    (hdesc : descs[d]? = some desc) {i : Nat} (hlt : i < desc.blocksPerArena) :
    arenaToBlock a i s = .ok (blockAt a desc i, s) := by
  unfold arenaToBlock
  rw [bind_run, assert_run (by simpa using ha), ok_bind, bind_run, get_run, ok_bind, bind_run,
    assert_run (beq_iff_eq.mpr hm), ok_bind, hd]
  simp only
  rw [bind_run, getDesc_run hdesc, ok_bind, bind_run, assert_run (decide_eq_true hlt)]
  rfl

/-- The loop that fills the free list of a new arena. -/
theorem addBlocks_run (ha : a ≠ 0) (hdesc : descs[d]? = some desc) :
    ∀ (is : List Nat) {s : Heap}, s.magic a = arenaMagic → s.descOf a = some d →
      (∀ i ∈ is, i < desc.blocksPerArena) →
      addBlocks a d is s = .ok ((), s.setList d (s.freeList d ++ is.map (blockAt a desc)))
  | [], s, _, _, _ => by
    rw [addBlocks, List.map_nil, List.append_nil, Heap.setList, Function.update_eq_self]
    rfl
  | i :: is, s, hm, hd, hlt => by
    have ih := addBlocks_run ha hdesc is (s := s.setList d (s.freeList d ++ [blockAt a desc i])) hm hd
      fun j hj => hlt j (List.mem_cons_of_mem _ hj)
    rw [addBlocks, bind_run, arenaToBlock_run ha hm hd hdesc (hlt i List.mem_cons_self), ok_bind,
      bind_run, modify_run, ok_bind, ih]
    simp only [Heap.setList, Function.update_self, Function.update_idem, List.append_assoc,
      List.singleton_append, List.map_cons]

/-- With one block fewer on the free list the arena has one free block fewer. -/
theorem card_freeBlocks (s s' : Heap) (a : Nat) (hdesc : descs[d]? = some desc) {i : Nat} (hlt : i < desc.blocksPerArena)
    (hlist : ∀ x ≠ blockAt a desc i, (x ∈ s'.freeList d ↔ x ∈ s.freeList d))
    (hs : blockAt a desc i ∈ s.freeList d) (hs' : blockAt a desc i ∉ s'.freeList d) :
    (s.freeBlocks a d desc).card = (s'.freeBlocks a d desc).card + 1 := by
  have hmem : i ∈ s.freeBlocks a d desc := Finset.mem_filter.mpr ⟨Finset.mem_range.mpr hlt, hs⟩
  have he : s'.freeBlocks a d desc = (s.freeBlocks a d desc).erase i := by
    ext j
    simp only [Heap.freeBlocks, Finset.mem_filter, Finset.mem_erase, Finset.mem_range]
    by_cases hij : j = i
    · subst hij
      tauto
    · rw [hlist _ fun h => hij (blockAt_inj (descOk hdesc) h)]
      tauto
  rw [he, Finset.card_erase_of_mem hmem]
  have := Finset.card_pos.mpr ⟨i, hmem⟩
  omega

theorem freeBlocks_card_le (s : Heap) (a d : Nat) (desc : Desc) :
    (s.freeBlocks a d desc).card ≤ desc.blocksPerArena :=
  (Finset.card_filter_le _ _).trans (le_of_eq (Finset.card_range _))

/-- No arena but the one at `a` is entirely free. -/
def NoneFreeBut (s : Heap) (a : Nat) : Prop :=
  ∀ g ∈ s.groups, g.1 ≠ a → ∀ d desc, s.descOf g.1 = some d → descs[d]? = some desc →
    s.freeCnt g.1 < desc.blocksPerArena

/-- The first free block leaves the list and is counted. -/
theorem HeapInv.takeBlock_eq (hi : HeapInv s live) (hdesc : descs[d]? = some desc) {l : List Nat}
    (hl : s.freeList d = b :: l) :
    takeBlock d s = .ok (some b, (s.setList d l).setFreeCnt (b - pgOfs b)
      ((s.freeCnt (b - pgOfs b) + 2 ^ 32 - 1) % 2 ^ 32)) := by
  obtain ⟨hb, -⟩ := (hi.free d desc hdesc b).mp (by rw [hl]; exact List.mem_cons_self)
  rw [takeBlock, bind_run, get_run, ok_bind, hl]
  simp only
  rw [bind_run, set_run, ok_bind, bind_run, hi.blockToArena_small hb hdesc (by rfl), ok_bind]
  rfl

/-- The end of `malloc`: the first free block goes to the caller. -/
theorem takeBlock_run (hi : HeapInv s live) (hdesc : descs[d]? = some desc) {l : List Nat}
    (hl : s.freeList d = b :: l) {size : Nat} (hsize : size ≤ desc.blockSize) :
    ∃ s', takeBlock d s = .ok (some b, s') ∧ HeapInv s' ((b, size) :: live) ∧
      (NoneFreeBut s (b - pgOfs b) → NoneFree s') := by
  obtain ⟨hb, hfree⟩ := (hi.free d desc hdesc b).mp (by rw [hl]; exact List.mem_cons_self)
  obtain ⟨hg, hgd, i, hlt, hbi, -⟩ := hi.block_arena hb hdesc
  obtain ⟨hbl, hnl⟩ := List.nodup_cons.mp (hl ▸ hi.nodup d)
  obtain ⟨desc', h1, -, hcard⟩ := hi.small _ hg d hgd
  rw [hdesc] at h1
  cases h1
  simp only at hcard
  have hrun := hi.takeBlock_eq hdesc hl
  -- the counter after the step
  generalize hn : (s.freeCnt (b - pgOfs b) + 2 ^ 32 - 1) % 2 ^ 32 = n at hrun
  have hlist : ∀ e x, x ≠ b ∨ e ≠ d → (x ∈ (s.setList d l).freeList e ↔ x ∈ s.freeList e) := by
    intro e x hx
    by_cases he : e = d
    · subst he
      simp only [Heap.setList, Function.update_self, hl, List.mem_cons]
      exact (or_iff_right (hx.resolve_right fun h => h rfl)).symm
    · simp only [Heap.setList, Function.update_of_ne he]
  have hself : (s.setList d l).freeList d = l := Function.update_self ..
  have hgone : b ∉ ((s.setList d l).setFreeCnt (b - pgOfs b) n).freeList d := by
    show b ∉ (s.setList d l).freeList d
    rw [hself]
    exact hbl
  have hfew := card_freeBlocks s ((s.setList d l).setFreeCnt (b - pgOfs b) n) (b - pgOfs b) hdesc hlt
    (fun x hx => hlist d x (.inl (by rw [hbi]; exact hx))) (by rw [← hbi, hl]; exact List.mem_cons_self)
    (by rw [← hbi]; exact hgone)
  have hle := freeBlocks_card_le s (b - pgOfs b) d desc
  have hcl := (descOk hdesc).cnt_le
  have hn' : n < 2 ^ 32 := by omega
  have hmem : ((s.setList d l).setFreeCnt (b - pgOfs b) n).mem = (s.setFreeCnt (b - pgOfs b) n).mem := rfl
  obtain ⟨hcnt, hhead⟩ := hi.setFreeCnt_headers hg hn' hmem
  refine ⟨_, hrun, ?_, ?_⟩
  · refine hi.recount hb hdesc rfl rfl rfl hhead ?_ hlist (fun e => ?_) (fun x hx => ?_) ?_ ?_ fun l hl => ?_
    · rw [hcnt]
      simp only [pgSize] at hcl
      omega
    · by_cases he : e = d
      · subst he
        show ((s.setList e l).freeList e).Nodup
        rw [hself]
        exact hnl
      · show (Function.update s.freeList d l e).Nodup
        rw [Function.update_of_ne he]
        exact hi.nodup e
    · show x ∈ b :: addrs live ↔ _
      exact List.mem_cons.trans (or_iff_right hx)
    · show b ∈ (s.setList d l).freeList d ↔ b ∉ b :: addrs live
      rw [hself]
      simp [hbl]
    · exact List.nodup_cons.mpr ⟨hfree, hi.lentNodup⟩
    · rcases List.mem_cons.mp hl with rfl | hl
      · exact .inr ⟨d, desc, hdesc, hb, hsize⟩
      · exact hi.lent l hl
  · intro hf g hg' e desc' hd' hdesc'
    have hh := hhead g hg'
    rw [hh.2.1] at hd'
    by_cases hga : g.1 = b - pgOfs b
    · rw [hga] at hd' ⊢
      rw [hgd] at hd'
      cases hd'
      rw [hdesc] at hdesc'
      cases hdesc'
      rw [hcnt]
      simp only [pgSize] at hcl
      omega
    · rw [hh.2.2 hga]
      exact hf g hg' hga e desc' hd' hdesc'

theorem desc_lt (hdesc : descs[d]? = some desc) : d + 1 < 2 ^ 32 := by
  obtain ⟨h, -⟩ := List.getElem?_eq_some_iff.mp hdesc
  have : descs.length = 7 := by decide
  omega

/-- A new arena with all its blocks on an empty free list. -/
theorem HeapInv.newArena_small (hi : HeapInv s live) (hdesc : descs[d]? = some desc)
    (hempty : s.freeList d = []) {i : Nat} (hfit : i + 1 ≤ bitmapSize s.pool.usedMap)
    (hfree : ∀ j < 1, bitmapTest s.pool.usedMap (i + j) = false) :
    HeapInv ((s.newArena i 1 (d + 1) desc.blocksPerArena).setList d
      ((List.range desc.blocksPerArena).map (blockAt (s.pool.base + pgSize * i) desc))) live := by
  have hw := desc_lt hdesc
  have hc : desc.blocksPerArena < 2 ^ 32 := (descOk hdesc).cnt_le.trans_lt (by decide)
  generalize hs' : (s.newArena i 1 (d + 1) desc.blocksPerArena).setList d
    ((List.range desc.blocksPerArena).map (blockAt (s.pool.base + pgSize * i) desc)) = s'
  have hmem : s'.mem = (s.newArena i 1 (d + 1) desc.blocksPerArena).mem := by subst hs'; rfl
  have hgroups : s'.groups = (s.newArena i 1 (d + 1) desc.blocksPerArena).groups := by subst hs'; rfl
  have hself : s'.freeList d =
      (List.range desc.blocksPerArena).map (blockAt (s.pool.base + pgSize * i) desc) := by
    subst hs'
    exact Function.update_self ..
  have hother : ∀ e, e ≠ d → s'.freeList e = s.freeList e := by
    intro e he
    subst hs'
    exact Function.update_of_ne he ..
  have hblock : ∀ e desc' b, s'.Block e desc' b ↔ s.Block e desc' b ∨ d + 1 = e + 1 ∧ 1 = 1 ∧
      ∃ j < desc'.blocksPerArena, b = blockAt (s.pool.base + pgSize * i) desc' j := fun e desc' b =>
    hi.newArena_block Nat.one_pos hfree hw hc hmem hgroups
  -- a block of the new arena is not one of another arena
  have hnew : ∀ j < desc.blocksPerArena, ∀ g ∈ s.groups, ∀ x, g.1 + arenaSize ≤ x →
      x ≤ g.1 + pgSize * g.2 → x ≠ blockAt (s.pool.base + pgSize * i) desc j := by
    rintro j hj g hg x h1 h2 rfl
    have h3 := (descOk hdesc).block_le hj
    have h4 := (descOk hdesc).size
    have h5 := hi.fresh_apart hfree Nat.one_pos hg
    simp only [blockAt, arenaSize, pgSize] at *
    omega
  refine hi.newArena Nat.one_pos hfit hfree hw hc (by subst hs'; rfl) (by subst hs'; rfl) hgroups hmem
    (fun h => by omega) (fun e he => ?_) (fun g hg e desc' he hdesc' => ?_) (fun e => ?_)
    (fun e desc' he b => ?_) hi.lentNodup fun l hl => ?_
  · obtain rfl : d = e := by omega
    refine ⟨desc, hdesc, rfl, ?_⟩
    unfold Heap.freeBlocks
    rw [hself, Finset.filter_true_of_mem fun j hj => List.mem_map_of_mem (by simpa using hj),
      Finset.card_range]
  · unfold Heap.freeBlocks
    by_cases hed : e = d
    · subst hed
      rw [hdesc] at hdesc'
      cases hdesc'
      refine Finset.filter_congr fun k hk => ?_
      obtain ⟨-, -, h1, -⟩ := hi.small g hg e he
      have h2 := (descOk hdesc).block_le (Finset.mem_range.mp hk)
      rw [hself, hempty, List.mem_map]
      constructor
      · rintro ⟨j, hj, heq⟩
        refine (hnew j (List.mem_range.mp hj) g hg _ ?_ ?_ heq.symm).elim <;>
          simp only [blockAt, arenaSize, pgSize] at * <;> omega
      · intro h
        cases h
    · rw [hother e hed]
  · by_cases hed : e = d
    · subst hed
      rw [hself]
      exact List.nodup_range.map fun j k h => blockAt_inj (descOk hdesc) h
    · rw [hother e hed]
      exact hi.nodup e
  · by_cases hed : e = d
    · subst hed
      rw [hdesc] at he
      cases he
      have hold := hi.free e desc hdesc b
      rw [hempty] at hold
      rw [hself, hblock, List.mem_map]
      constructor
      · rintro ⟨j, hj, rfl⟩
        refine ⟨.inr ⟨rfl, rfl, j, List.mem_range.mp hj, rfl⟩, fun hmem => ?_⟩
        obtain ⟨l, hl, heq⟩ := List.mem_map.mp hmem
        obtain ⟨g, hg, h1, h2⟩ := (hi.lent l hl).within
        exact hnew j (List.mem_range.mp hj) g hg l.1 h1 (by omega) heq
      · rintro ⟨hb | ⟨-, -, j, hj, rfl⟩, hlive⟩
        · exact absurd (hold.mpr ⟨hb, hlive⟩) List.not_mem_nil
        · exact ⟨j, List.mem_range.mpr hj, rfl⟩
    · rw [hother e hed, hblock, hi.free e desc' he b]
      have : ¬ d + 1 = e + 1 := fun h => hed (by omega)
      simp only [this, false_and, or_false]
  · exact hi.newArena_lent Nat.one_pos hfree hw hc hmem hgroups (hi.lent l hl)

theorem NoneFree.but (hf : NoneFree s) (a : Nat) : NoneFreeBut s a :=
  fun g hg _ d desc hd hdesc => hf g hg d desc hd hdesc

/-- With an empty free list `malloc` takes the block from a new arena. -/
theorem mallocSmall_new (hi : HeapInv s live) (hdesc : descs[d]? = some desc)
    (hempty : s.freeList d = []) {i : Nat}
    (hfree : ∀ j < 1, bitmapTest s.pool.usedMap (i + j) = false)
    (hrun : pallocGetMultiple 1 s = .ok (some (s.pool.base + pgSize * i), { s with
      answers := s.answers.tail
      pool := { s.pool with usedMap := bitmapSetMultiple s.pool.usedMap i 1 true }
      groups := (s.pool.base + pgSize * i, 1) :: s.groups })) :
    mallocSmall d s = takeBlock d ((s.newArena i 1 (d + 1) desc.blocksPerArena).setList d
      ((List.range desc.blocksPerArena).map (blockAt (s.pool.base + pgSize * i) desc))) := by
  have hc : desc.blocksPerArena < 2 ^ 32 := (descOk hdesc).cnt_le.trans_lt (by decide)
  have hmem : (s.newArena i 1 (d + 1) desc.blocksPerArena).mem =
    (s.newArena i 1 (d + 1) desc.blocksPerArena).mem := rfl
  obtain ⟨-, hmagic, hd, -⟩ := hi.newArena_headers Nat.one_pos hfree (desc_lt hdesc) hc hmem
  rw [if_neg (by omega), Nat.add_sub_cancel] at hd
  have hne : s.pool.base + pgSize * i ≠ 0 := by
    have := hi.base
    omega
  have hadd := addBlocks_run hne hdesc (List.range desc.blocksPerArena) hmagic hd
    fun j hj => List.mem_range.mp hj
  have hlist : (s.newArena i 1 (d + 1) desc.blocksPerArena).freeList d = [] := hempty
  rw [hlist, List.nil_append] at hadd
  rw [mallocSmall, bind_run, get_run, ok_bind, if_pos hempty, bind_run, hrun]
  simp only [ok_bind]
  rw [bind_run, getDesc_run hdesc, ok_bind, bind_run, modify_run, ok_bind, bind_run]
  show (addBlocks _ d _ (s.newArena i 1 (d + 1) desc.blocksPerArena)).bind _ = _
  rw [hadd]
  rfl

end

end Pintos.Threads.Malloc
