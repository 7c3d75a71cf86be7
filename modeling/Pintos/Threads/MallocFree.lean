import Mathlib.Data.List.Nodup
import Pintos.Threads.MallocEffect

/-!
# The release of blocks

A block goes back on the free list; an arena without blocks in use goes back to the page
allocator. `calloc` and `realloc` are built on `malloc` and `free`.
-/

namespace Pintos.Threads.Malloc

open Pintos.Base Pintos.Kernel

/-- The blocks in the hands of callers without the one at `b`. -/
def release (live : List (Nat × Nat)) (b : Nat) : List (Nat × Nat) := live.filter fun l => l.1 ≠ b

theorem mem_release {live : List (Nat × Nat)} {b : Nat} {l : Nat × Nat} :
    l ∈ release live b ↔ l ∈ live ∧ l.1 ≠ b := by
  unfold release
  rw [List.mem_filter, decide_eq_true_iff]

theorem mem_addrs_release {live : List (Nat × Nat)} {b x : Nat} :
    x ∈ addrs (release live b) ↔ x ∈ addrs live ∧ x ≠ b := by
  unfold addrs
  constructor
  · intro h
    obtain ⟨l, hl, rfl⟩ := List.mem_map.mp h
    obtain ⟨h1, h2⟩ := mem_release.mp hl
    exact ⟨List.mem_map_of_mem h1, h2⟩
  · rintro ⟨h, hne⟩
    obtain ⟨l, hl, rfl⟩ := List.mem_map.mp h
    exact List.mem_map_of_mem (mem_release.mpr ⟨hl, hne⟩)

theorem addrs_release_nodup {live : List (Nat × Nat)} (h : (addrs live).Nodup) (b : Nat) :
    (addrs (release live b)).Nodup := h.sublist (List.filter_sublist.map _)

section

variable {s s' : Heap} {live live' : List (Nat × Nat)} {a b d m n : Nat} {desc : Desc}

/-- What lies in an arena is a block of it. -/
theorem HeapInv.lent_arena (hi : HeapInv s live) (h : s.Lent b n) (hg : (a, m) ∈ s.groups)
    (h1 : a ≤ b) (h2 : b < a + pgSize * m) :
    s.descOf a = none ∧ b = a + arenaSize ∨
      ∃ d desc i, descs[d]? = some desc ∧ s.descOf a = some d ∧ i < desc.blocksPerArena ∧
        b = blockAt a desc i := by
  rcases h with ⟨a', m', h3, h4, rfl, -⟩ | ⟨d, desc, h3, ⟨a', i, h4, h5, h6, rfl⟩, -⟩
  · have hpage := hi.group_page h3
    have he := hi.group_unique hg h3 h1 h2 (Nat.le_add_right ..) (by
      simp only [arenaSize, pgSize] at *
      omega)
    cases he
    exact .inl ⟨h4, rfl⟩
  · have hle := (descOk h3).block_le h6
    have hpos := (descOk h3).size
    have he := hi.group_unique hg h4 h1 h2 (by simp only [blockAt]; omega) (by
      simp only [blockAt]
      omega)
    cases he
    exact .inr ⟨d, desc, i, h3, h5, h6, rfl⟩

/-- The state after the pages of an arena have been given back. -/
def Heap.freed (s : Heap) (a n : Nat) : Heap :=
  { s with
    mem := memcpy s.mem a (fun _ => 0xcc) 0 (pgSize * n)
    pool := { s.pool with
      usedMap := bitmapSetMultiple s.pool.usedMap (pgNo a - pgNo s.pool.base) n false }
    groups := s.groups.erase (a, n) }

/-- The ASSERTs of the page allocator hold. -/
theorem HeapInv.pallocFreeMultiple_run (hi : HeapInv s live) (hg : (a, n) ∈ s.groups)
    (hpool : s'.pool = s.pool) : pallocFreeMultiple a n s' = .ok ((), s'.freed a n) := by
  obtain ⟨hal, hpos, hn, -⟩ := hi.group_page hg
  obtain ⟨-, i, rfl, hfit, hused⟩ := hi.group _ hg
  have hbase := hi.aligned
  have hidx : pgNo (s.pool.base + pgSize * i) - pgNo s.pool.base = i := by
    simp only [pgNo, pgSize] at *
    omega
  have hfrom : pageFromPool s.pool (s.pool.base + pgSize * i) = true := by
    unfold pageFromPool
    rw [Bool.and_eq_true, decide_eq_true_iff, decide_eq_true_iff]
    simp only [pgNo, pgSize] at *
    omega
  simp only at hal hpos hn hused
  unfold pallocFreeMultiple
  rw [bind_run, assert_run (by simpa [pgOfs] using hal), ok_bind, if_neg (by omega), bind_run, get_run,
    ok_bind, bind_run, hpool, assert_run hfrom, ok_bind, hidx, bind_run,
    assert_run (bitmapAll_iff.mpr hused), ok_bind, set_run, Heap.freed, hpool, hidx]

/-- The headers of the other arenas stay. -/
theorem HeapInv.freed_headers (hi : HeapInv s live) (hg : (a, n) ∈ s.groups)
    (hmem : s'.mem = (s.freed a n).mem) : ∀ h ∈ s.groups, h ≠ (a, n) →
      s'.magic h.1 = s.magic h.1 ∧ s'.descOf h.1 = s.descOf h.1 ∧ s'.freeCnt h.1 = s.freeCnt h.1 := by
  intro h hh hne
  have hapart := hi.apart _ hg h hh hne.symm
  obtain ⟨hal, -, hm, -⟩ := hi.group_page hh
  have hword : ∀ k, k + 4 ≤ arenaSize → load32 s'.mem (h.1 + k) = load32 s.mem (h.1 + k) := by
    intro k hk
    rw [hmem]
    show load32 (memcpy s.mem a (fun _ => 0xcc) 0 (pgSize * n)) _ = _
    refine load32_congr fun j hj => memcpy_out ?_
    simp only [arenaSize, pgSize] at *
    omega
  exact ⟨hword 0 (by decide), descOf_congr (hword 4 (by decide)), hword 8 (by decide)⟩

/-- The invariant without an arena: its blocks leave the free list and the callers. -/
theorem HeapInv.dropArena (hi : HeapInv s live) (hg : (a, n) ∈ s.groups)
    (hpool : s'.pool = (s.freed a n).pool) (htop : s'.top = s.top)
    (hgroups : s'.groups = s.groups.erase (a, n)) (hmem : s'.mem = (s.freed a n).mem)
    (hlist : ∀ d desc, descs[d]? = some desc → ∀ b, b ∈ s'.freeList d ↔
      b ∈ s.freeList d ∧ ¬ (a ≤ b ∧ b < a + pgSize * n))
    (hnodup : ∀ d, (s'.freeList d).Nodup)
    (hlive : ∀ l, l ∈ live' ↔ l ∈ live ∧ ¬ (a ≤ l.1 ∧ l.1 < a + pgSize * n))
    (hlentNodup : (addrs live').Nodup) : HeapInv s' live' := by
  have hhead := hi.freed_headers hg hmem
  have hmemg : ∀ g, g ∈ s'.groups ↔ g ≠ (a, n) ∧ g ∈ s.groups := by
    intro g
    rw [hgroups]
    exact hi.groups.mem_erase_iff
  -- an address behind the header of another arena is not in this one
  have hout : ∀ g ∈ s.groups, g ≠ (a, n) → ∀ x, g.1 ≤ x → x < g.1 + pgSize * g.2 →
      ¬ (a ≤ x ∧ x < a + pgSize * n) := by
    intro g hg' hne x h1 h2 h3
    exact hne (hi.group_unique hg' hg h1 h2 h3.1 h3.2)
  have hblock : ∀ d desc, descs[d]? = some desc → ∀ b, s'.Block d desc b ↔
      s.Block d desc b ∧ ¬ (a ≤ b ∧ b < a + pgSize * n) := by
    intro d desc hdesc b
    constructor
    · rintro ⟨c, i, h1, h2, h3, rfl⟩
      obtain ⟨hne, h1⟩ := (hmemg _).mp h1
      have hle := (descOk hdesc).block_le h3
      have hpos := (descOk hdesc).size
      refine ⟨⟨c, i, h1, (hhead _ h1 hne).2.1 ▸ h2, h3, rfl⟩, hout _ h1 hne _ ?_ ?_⟩ <;>
        simp only [blockAt] <;> omega
    · rintro ⟨⟨c, i, h1, h2, h3, rfl⟩, hno⟩
      have hle := (descOk hdesc).block_le h3
      have hpos := (descOk hdesc).size
      have hne : (c, 1) ≠ (a, n) := by
        rintro he
        cases he
        refine hno ⟨?_, ?_⟩ <;> simp only [blockAt] <;> omega
      exact ⟨c, i, (hmemg _).mpr ⟨hne, h1⟩, (hhead _ h1 hne).2.1.trans h2, h3, rfl⟩
  obtain ⟨-, k, hk, hfit, -⟩ := hi.group _ hg
  simp only at hk hfit
  have hidx : pgNo a - pgNo s.pool.base = k := by
    have := hi.aligned
    subst hk
    simp only [pgNo, pgSize] at *
    omega
  have hsize : bitmapSize s'.pool.usedMap = bitmapSize s.pool.usedMap := by
    rw [hpool]
    exact bitmapSize_setMultiple ..
  have hbase : s'.pool.base = s.pool.base := by
    rw [hpool]
    rfl
  have hbit : ∀ t, bitmapTest s'.pool.usedMap t =
      if k ≤ t ∧ t < k + n then false else bitmapTest s.pool.usedMap t := fun t => by
    rw [hpool]
    show bitmapTest (bitmapSetMultiple s.pool.usedMap (pgNo a - pgNo s.pool.base) n false) t = _
    rw [hidx]
    exact bitmapTest_setMultiple hfit false t
  refine ⟨?_, ?_, ?_, ?_, fun g hg' => ?_, ?_, fun g hg' h hh hne => ?_, fun g hg' => ?_,
    fun g hg' hd => ?_, fun g hg' d hd => ?_, hnodup, fun d desc hdesc b => ?_, hlentNodup,
    fun l hl => ?_⟩
  · rw [hbase]
    exact hi.aligned
  · rw [hbase]
    exact hi.base
  · rw [hsize, hbase, htop]
    exact hi.top
  · rw [htop]
    exact hi.top_le
  · obtain ⟨hne, hg'⟩ := (hmemg g).mp hg'
    obtain ⟨h0, i, h1, h2, hused⟩ := hi.group g hg'
    have hapart := hi.apart _ hg g hg' hne.symm
    refine ⟨h0, i, by rw [hbase]; exact h1, by rw [hsize]; exact h2, fun j hj => ?_⟩
    rw [hbit, if_neg, hused j hj]
    simp only [pgSize] at *
    omega
  · rw [hgroups]
    exact hi.groups.erase _
  · exact hi.apart g ((hmemg g).mp hg').2 h ((hmemg h).mp hh).2 hne
  · obtain ⟨hne, hg'⟩ := (hmemg g).mp hg'
    rw [(hhead g hg' hne).1]
    exact hi.magic g hg'
  · obtain ⟨hne, hg'⟩ := (hmemg g).mp hg'
    obtain ⟨-, h2, h3⟩ := hhead g hg' hne
    rw [h2] at hd
    rw [h3]
    exact hi.big g hg' hd
  · obtain ⟨hne, hg'⟩ := (hmemg g).mp hg'
    obtain ⟨-, h2, h3⟩ := hhead g hg' hne
    rw [h2] at hd
    obtain ⟨desc, h4, h5, h6⟩ := hi.small g hg' d hd
    refine ⟨desc, h4, h5, ?_⟩
    rw [h3, h6]
    unfold Heap.freeBlocks
    refine congrArg Finset.card (Finset.filter_congr fun i hir => ?_)
    have hle := (descOk h4).block_le (Finset.mem_range.mp hir)
    have hpos := (descOk h4).size
    have hno := hout g hg' hne (blockAt g.1 desc i) (by simp only [blockAt]; omega)
      (by simp only [blockAt, h5]; omega)
    rw [hlist d desc h4]
    exact (and_iff_left hno).symm
  · rw [hlist d desc hdesc, hblock d desc hdesc, hi.free d desc hdesc b]
    have hex : a ≤ b ∧ b < a + pgSize * n ∨ (b ∈ addrs live' ↔ b ∈ addrs live) := by
      by_cases hin : a ≤ b ∧ b < a + pgSize * n
      · exact .inl hin
      · refine .inr ?_
        unfold addrs
        rw [List.mem_map, List.mem_map]
        constructor
        · rintro ⟨l, hl, rfl⟩
          exact ⟨l, ((hlive l).mp hl).1, rfl⟩
        · rintro ⟨l, hl, rfl⟩
          exact ⟨l, (hlive l).mpr ⟨hl, hin⟩, rfl⟩
    tauto
  · obtain ⟨hl, hno⟩ := (hlive l).mp hl
    rcases hi.lent l hl with ⟨c, m, h1, h2, h3, h4⟩ | ⟨d, desc, h1, h2, h3⟩
    · have hne : (c, m) ≠ (a, n) := by
        rintro he
        cases he
        simp only [arenaSize, pgSize] at *
        have := hi.group_page hg
        simp only [pgSize] at this
        omega
      exact .inl ⟨c, m, (hmemg _).mpr ⟨hne, h1⟩, (hhead _ h1 hne).2.1.trans h2, h3, h4⟩
    · exact .inr ⟨d, desc, h1, (hblock d desc h1 _).mpr ⟨h2, hno⟩, h3⟩

/-- The loop that takes the blocks of an arena out of the free list. -/
theorem removeBlocks_run (ha : a ≠ 0) (hdesc : descs[d]? = some desc) :
    ∀ (is : List Nat) {s : Heap}, s.magic a = arenaMagic → s.descOf a = some d →
      (∀ i ∈ is, i < desc.blocksPerArena ∧ blockAt a desc i ∈ s.freeList d) → is.Nodup →
      removeBlocks a d is s =
        .ok ((), s.setList d ((s.freeList d).diff (is.map (blockAt a desc))))
  | [], s, _, _, _, _ => by
    rw [removeBlocks, List.map_nil, List.diff_nil, Heap.setList, Function.update_eq_self]
    rfl
  | i :: is, s, hm, hd, hall, hnodup => by
    obtain ⟨hlt, hin⟩ := hall i List.mem_cons_self
    obtain ⟨hi, his⟩ := List.nodup_cons.mp hnodup
    have ih := removeBlocks_run ha hdesc is
      (s := s.setList d ((s.freeList d).erase (blockAt a desc i))) hm hd (fun j hj => by
        obtain ⟨hj', hjin⟩ := hall j (List.mem_cons_of_mem _ hj)
        have hne : blockAt a desc j ≠ blockAt a desc i := fun h =>
          hi (blockAt_inj (descOk hdesc) h ▸ hj)
        simp only [Heap.setList, Function.update_self]
        exact ⟨hj', (List.mem_erase_of_ne hne).mpr hjin⟩) his
    rw [removeBlocks, bind_run, arenaToBlock_run ha hm hd hdesc hlt, ok_bind, bind_run, listRemove,
      bind_run, get_run, ok_bind, if_pos hin, set_run, ok_bind, ih]
    simp only [Heap.setList, Function.update_self, Function.update_idem, List.map_cons, List.diff_cons]

/-- The block is back on the free list and counted. -/
def Heap.pushed (s : Heap) (b d n : Nat) (desc : Desc) : Heap :=
  ({ s with mem := memcpy s.mem b (fun _ => 0xcc) 0 desc.blockSize }.setList d
    (b :: s.freeList d)).setFreeCnt (b - pgOfs b) n

/-- `free` up to the test for an arena without blocks in use. -/
theorem HeapInv.pushed (hi : HeapInv s live) (hb : s.Block d desc b) (hdesc : descs[d]? = some desc)
    (hmem : b ∈ addrs live) (hn : n = s.freeCnt (b - pgOfs b) + 1) :
    HeapInv (s.pushed b d n desc) (release live b) ∧ n ≤ desc.blocksPerArena ∧
      (s.pushed b d n desc).freeCnt (b - pgOfs b) = n ∧
      (s.pushed b d n desc).descOf (b - pgOfs b) = some d ∧
      (NoneFree s → NoneFreeBut (s.pushed b d n desc) (b - pgOfs b)) := by
  have hlent : s.Lent b desc.blockSize := .inr ⟨d, desc, hdesc, hb, le_rfl⟩
  obtain ⟨-, hi1⟩ := hi.copy hlent (fun _ => 0xcc) 0 le_rfl
  have hsame := hi.store hlent (fun _ => 0xcc) 0 le_rfl
  generalize hs1 : { s with mem := memcpy s.mem b (fun _ => 0xcc) 0 desc.blockSize } = s1 at hi1 hsame
  have hlist1 : s1.freeList = s.freeList := by subst hs1; rfl
  have hgroups1 : s1.groups = s.groups := by subst hs1; rfl
  have hb1 : s1.Block d desc b := (block_congr (fun g hg => (hsame g hg).2.1) hgroups1).mpr hb
  obtain ⟨hg, hgd, i, hlt, hbi, -⟩ := hi1.block_arena hb1 hdesc
  have hnot : b ∉ s1.freeList d := fun h => ((hi1.free d desc hdesc b).mp h).2 hmem
  obtain ⟨desc', h1, -, hcard⟩ := hi1.small _ hg d hgd
  rw [hdesc] at h1
  cases h1
  have hcnt1 : s1.freeCnt (b - pgOfs b) = s.freeCnt (b - pgOfs b) :=
    (hsame _ (hgroups1 ▸ hg)).2.2
  have hs' : s.pushed b d n desc = (s1.setList d (b :: s1.freeList d)).setFreeCnt (b - pgOfs b) n := by
    subst hs1
    rfl
  have hself : (s1.setList d (b :: s1.freeList d)).freeList d = b :: s1.freeList d :=
    Function.update_self ..
  have hin : b ∈ (s.pushed b d n desc).freeList d := by
    rw [hs']
    show b ∈ (s1.setList d (b :: s1.freeList d)).freeList d
    rw [hself]
    exact List.mem_cons_self
  have hlist : ∀ e x, x ≠ b ∨ e ≠ d → (x ∈ (s1.setList d (b :: s1.freeList d)).freeList e ↔
      x ∈ s1.freeList e) := by
    intro e x hx
    by_cases he : e = d
    · subst he
      rw [hself]
      exact List.mem_cons.trans (or_iff_right (hx.resolve_right fun h => h rfl))
    · simp only [Heap.setList, Function.update_of_ne he]
  have hmore := card_freeBlocks (s.pushed b d n desc) s1 (b - pgOfs b) hdesc hlt
    (fun x hx => by rw [hs']; exact (hlist d x (.inl (by rw [hbi]; exact hx))).symm)
    (by rw [← hbi]; exact hin) (by rw [← hbi]; exact hnot)
  have hle := freeBlocks_card_le (s.pushed b d n desc) (b - pgOfs b) d desc
  have hcl := (descOk hdesc).cnt_le
  have hn' : n = ((s.pushed b d n desc).freeBlocks (b - pgOfs b) d desc).card := by
    rw [hmore, ← hcard, hcnt1, hn]
  have hn'' : n < 2 ^ 32 := by
    simp only [pgSize] at hcl
    omega
  have hmemory : (s.pushed b d n desc).mem = (s1.setFreeCnt (b - pgOfs b) n).mem := by
    rw [hs']
    rfl
  obtain ⟨hcnt, hhead⟩ := hi1.setFreeCnt_headers hg hn'' hmemory
  refine ⟨?_, hn'.le.trans hle, hcnt, (hhead _ hg).2.1.trans hgd, fun hf g hg' hne e desc' hd' hdesc' => ?_⟩
  · refine hi1.recount hb1 hdesc (by rw [hs']; rfl) (by rw [hs']; rfl) (by rw [hs']; rfl) hhead
      (hcnt.trans hn') (fun e x hx => by rw [hs']; exact hlist e x hx) (fun e => ?_) (fun x hx => ?_) ?_
      (addrs_release_nodup hi.lentNodup b) fun l hl => ?_
    · rw [hs']
      by_cases he : e = d
      · subst he
        show ((s1.setList e (b :: s1.freeList e)).freeList e).Nodup
        rw [hself]
        exact List.nodup_cons.mpr ⟨hnot, hi1.nodup e⟩
      · show (Function.update s1.freeList d (b :: s1.freeList d) e).Nodup
        rw [Function.update_of_ne he]
        exact hi1.nodup e
    · rw [mem_addrs_release]
      exact and_iff_left hx
    · rw [mem_addrs_release]
      exact iff_of_true hin fun h => h.2 rfl
    · exact hi1.lent l (mem_release.mp hl).1
  · have hg1 : g ∈ s1.groups := by
      rw [hs'] at hg'
      exact hg'
    obtain ⟨-, h2, h3⟩ := hhead g hg1
    obtain ⟨-, h4, h5⟩ := hsame g (hgroups1 ▸ hg1)
    rw [h2, h4] at hd'
    rw [h3 hne, h5]
    exact hf g (hgroups1 ▸ hg1) e desc' hd' hdesc'

/-- The state after the page of an arena without blocks in use has been given back. -/
def Heap.returned (s : Heap) (a d : Nat) (desc : Desc) : Heap :=
  (s.setList d ((s.freeList d).diff ((List.range desc.blocksPerArena).map (blockAt a desc)))).freed a 1

/-- In an arena without blocks in use all blocks are on the free list. -/
theorem HeapInv.all_free (hi : HeapInv s live) (hg : (a, 1) ∈ s.groups) (hd : s.descOf a = some d)
    (hdesc : descs[d]? = some desc) (hfull : s.freeCnt a = desc.blocksPerArena) :
    ∀ i < desc.blocksPerArena, blockAt a desc i ∈ s.freeList d := by
  obtain ⟨desc', h1, -, hcard⟩ := hi.small _ hg d hd
  rw [hdesc] at h1
  cases h1
  have hsub : s.freeBlocks a d desc = Finset.range desc.blocksPerArena :=
    Finset.eq_of_subset_of_card_le (Finset.filter_subset _ _)
      (by rw [Finset.card_range, ← hfull]; exact hcard.le)
  intro i hlt
  have hmem := Finset.mem_range.mpr hlt
  rw [← hsub] at hmem
  exact (Finset.mem_filter.mp hmem).2

/-- The end of `free` for an arena without blocks in use: it goes back. -/
theorem HeapInv.returnArena (hi : HeapInv s live) (hg : (a, 1) ∈ s.groups) (hd : s.descOf a = some d)
    (hdesc : descs[d]? = some desc) (hfull : s.freeCnt a = desc.blocksPerArena) :
    (do
        removeBlocks a d (List.range desc.blocksPerArena)
        pallocFreeMultiple a 1 : M Unit) s = .ok ((), s.returned a d desc) ∧
      HeapInv (s.returned a d desc) live ∧ (NoneFreeBut s a → NoneFree (s.returned a d desc)) := by
  have hall := hi.all_free hg hd hdesc hfull
  unfold Heap.returned
  have hpos := (hi.group_page hg).2.1
  have hrem := removeBlocks_run hpos.ne' hdesc (List.range desc.blocksPerArena) (hi.magic _ hg) hd
    (fun i hr => ⟨List.mem_range.mp hr, hall i (List.mem_range.mp hr)⟩) List.nodup_range
  have hnodup := hi.nodup d
  generalize hl : (s.freeList d).diff ((List.range desc.blocksPerArena).map (blockAt a desc)) = l at hrem
  have hmeml : ∀ x, x ∈ l ↔ x ∈ s.freeList d ∧ ∀ i < desc.blocksPerArena, x ≠ blockAt a desc i := by
    intro x
    rw [← hl, hnodup.mem_sdiff_iff, List.mem_map]
    refine and_congr_right fun _ => ?_
    constructor
    · rintro hno i hlt rfl
      exact hno ⟨i, List.mem_range.mpr hlt, rfl⟩
    · rintro hno ⟨i, hr, rfl⟩
      exact hno i (List.mem_range.mp hr) rfl
  -- the blocks in the arena are blocks of descriptor `d`
  have hin : ∀ x k, s.Lent x k → a ≤ x → x < a + pgSize * 1 →
      ∃ i < desc.blocksPerArena, x = blockAt a desc i := by
    intro x k hx h1 h2
    rcases hi.lent_arena hx hg h1 h2 with ⟨h3, -⟩ | ⟨e, desc', i, h3, h4, h5, h6⟩
    · rw [hd] at h3
      cases h3
    · rw [hd] at h4
      cases h4
      rw [hdesc] at h3
      cases h3
      exact ⟨i, h5, h6⟩
  have hself : (s.setList d l).freeList d = l := Function.update_self ..
  have hother : ∀ e, e ≠ d → (s.setList d l).freeList e = s.freeList e := fun e he =>
    Function.update_of_ne he ..
  have hrun : (do
      removeBlocks a d (List.range desc.blocksPerArena)
      pallocFreeMultiple a 1 : M Unit) s = .ok ((), (s.setList d l).freed a 1) := by
    rw [bind_run, hrem, ok_bind]
    exact hi.pallocFreeMultiple_run hg rfl
  refine ⟨hrun, ?_, fun hf g hg' e desc' he hdesc' => ?_⟩
  · refine hi.dropArena hg rfl rfl rfl rfl (fun e desc' hdesc' x => ?_) (fun e => ?_) (fun lv => ?_)
      hi.lentNodup
    · show x ∈ (s.setList d l).freeList e ↔ _
      by_cases hed : e = d
      · subst hed
        rw [hself, hmeml]
        refine and_congr_right fun hx => ?_
        have hblock := ((hi.free e desc hdesc x).mp hx).1
        constructor
        · rintro hno ⟨h1, h2⟩
          obtain ⟨i, h3, h4⟩ := hin x _ (.inr ⟨e, desc, hdesc, hblock, le_rfl⟩) h1 h2
          exact hno i h3 h4
        · rintro hno i hlt rfl
          have := (descOk hdesc).block_le hlt
          have := (descOk hdesc).size
          refine hno ⟨?_, ?_⟩ <;> simp only [blockAt] <;> omega
      · rw [hother e hed]
        refine (and_iff_left_of_imp fun hx => ?_).symm
        rintro ⟨h1, h2⟩
        have hblock := ((hi.free e desc' hdesc' x).mp hx).1
        obtain ⟨i, h3, rfl⟩ := hin x _ (.inr ⟨e, desc', hdesc', hblock, le_rfl⟩) h1 h2
        have hdx := (hi.block_arena hblock hdesc').2.1
        rw [((descOk hdesc).page (hi.group_page hg).1 h3).2, hd] at hdx
        cases hdx
        exact hed rfl
    · show ((s.setList d l).freeList e).Nodup
      by_cases hed : e = d
      · subst hed
        rw [hself, ← hl]
        exact hnodup.diff
      · rw [hother e hed]
        exact hi.nodup e
    · refine (and_iff_left_of_imp fun hlv => ?_).symm
      rintro ⟨h1, h2⟩
      obtain ⟨i, h3, h4⟩ := hin lv.1 _ (hi.lent lv hlv) h1 h2
      exact ((hi.free d desc hdesc _).mp (hall i h3)).2 (h4 ▸ List.mem_map_of_mem hlv)
  · obtain ⟨hne, hg'⟩ := hi.groups.mem_erase_iff.mp hg'
    have hmem : ((s.setList d l).freed a 1).mem = (s.freed a 1).mem := rfl
    obtain ⟨-, h2, h3⟩ := hi.freed_headers hg hmem g hg' hne
    rw [h2] at he
    rw [h3]
    exact hf g hg' (fun h => hne (hi.group_eq hg' hg h)) e desc' he hdesc'

/-- The state that `free` of a normal block leaves. -/
def Heap.putBack (s : Heap) (b d : Nat) (desc : Desc) : Heap :=
  if desc.blocksPerArena ≤ s.freeCnt (b - pgOfs b) + 1 then
    (s.pushed b d (s.freeCnt (b - pgOfs b) + 1) desc).returned (b - pgOfs b) d desc
  else s.pushed b d (s.freeCnt (b - pgOfs b) + 1) desc

/-- The branch of `free` for a normal block. -/
theorem freeSmall_run (hi : HeapInv s live) (hb : s.Block d desc b) (hdesc : descs[d]? = some desc)
    (hmem : b ∈ addrs live) :
    freeSmall (b - pgOfs b) b d s = .ok ((), s.putBack b d desc) ∧
      HeapInv (s.putBack b d desc) (release live b) ∧
      (NoneFree s → NoneFree (s.putBack b d desc)) := by
  unfold Heap.putBack
  generalize hn : s.freeCnt (b - pgOfs b) + 1 = n
  obtain ⟨hinv, hle, hcnt, hd, hfree⟩ := hi.pushed hb hdesc hmem hn.symm
  have hlent : s.Lent b desc.blockSize := .inr ⟨d, desc, hdesc, hb, le_rfl⟩
  obtain ⟨hcopy, -⟩ := hi.copy hlent (fun _ => 0xcc) 0 le_rfl
  have hsame := hi.store hlent (fun _ => 0xcc) 0 le_rfl
  obtain ⟨hg, hgd, i, hlt, hbi, -⟩ := hi.block_arena hb hdesc
  have hcl := (descOk hdesc).cnt_le
  have hwrap : (s.freeCnt (b - pgOfs b) + 1) % 2 ^ 32 = n := by
    simp only [pgSize] at hcl
    omega
  have hg' : (b - pgOfs b, 1) ∈ (s.pushed b d n desc).groups := hg
  generalize hs' : s.pushed b d n desc = s' at *
  -- up to the test
  have hrun : freeSmall (b - pgOfs b) b d s =
      (if desc.blocksPerArena ≤ s'.freeCnt (b - pgOfs b) then do
        assert (s'.freeCnt (b - pgOfs b) == desc.blocksPerArena)
        removeBlocks (b - pgOfs b) d (List.range desc.blocksPerArena)
        pallocFreeMultiple (b - pgOfs b) 1
      else pure ()) s' := by
    have hs'' : ({ s with mem := memcpy s.mem b (fun _ => 0xcc) 0 desc.blockSize }.setList d
        (b :: s.freeList d)).setFreeCnt (b - pgOfs b)
          ((({ s with mem := memcpy s.mem b (fun _ => 0xcc) 0 desc.blockSize }.setList d
            (b :: s.freeList d)).freeCnt (b - pgOfs b) + 1) % 2 ^ 32) = s' := by
      rw [← hs', Heap.pushed, ← hwrap, ← (hsame _ hg).2.2]
      rfl
    rw [freeSmall, bind_run, getDesc_run hdesc, ok_bind, bind_run, hcopy, ok_bind, bind_run, modify_run,
      ok_bind, bind_run, modify_run, ok_bind, bind_run, get_run, ok_bind, hs'']
  rw [hrun, hcnt]
  by_cases hfull : desc.blocksPerArena ≤ n
  · obtain ⟨hret, hinv2, hfree2⟩ := hinv.returnArena hg' hd hdesc (by omega)
    rw [if_pos hfull, if_pos hfull]
    refine ⟨?_, hinv2, fun hf => hfree2 (hfree hf)⟩
    rw [bind_run, assert_run (beq_iff_eq.mpr (by omega)), ok_bind]
    exact hret
  · rw [if_neg hfull, if_neg hfull]
    refine ⟨rfl, hinv, fun hf g hgs e desc' hd' hdesc' => ?_⟩
    · by_cases hne : g.1 = b - pgOfs b
      · rw [hne] at hd' ⊢
        rw [hd] at hd'
        cases hd'
        rw [hdesc] at hdesc'
        cases hdesc'
        omega
      · exact hfree hf g hgs hne e desc' hd' hdesc'

/-- `free` of a big block: its pages go back. -/
theorem freeBig_run (hi : HeapInv s live) (hg : (a, m) ∈ s.groups) (hd : s.descOf a = none) :
    free (some (a + arenaSize)) s = .ok ((), s.freed a m) ∧
      HeapInv (s.freed a m) (release live (a + arenaSize)) ∧
      (NoneFree s → NoneFree (s.freed a m)) := by
  have hcnt : s.freeCnt a = m := hi.big _ hg hd
  have hrun : free (some (a + arenaSize)) s = .ok ((), s.freed a m) := by
    rw [free, bind_run, hi.blockToArena_big hg hd, ok_bind, bind_run, get_run, ok_bind, hd]
    simp only
    rw [hcnt]
    exact hi.pallocFreeMultiple_run hg rfl
  have hpage := hi.group_page hg
  -- there is one block in the arena
  have hin : ∀ x k, s.Lent x k → a ≤ x → x < a + pgSize * m → x = a + arenaSize := by
    intro x k hx h1 h2
    rcases hi.lent_arena hx hg h1 h2 with ⟨-, h3⟩ | ⟨e, desc', i, -, h3, -⟩
    · exact h3
    · rw [hd] at h3
      cases h3
  have hsmall : ∀ e desc, descs[e]? = some desc → ∀ x, s.Block e desc x →
      ¬ (a ≤ x ∧ x < a + pgSize * m) := by
    rintro e desc hdesc x hx ⟨h1, h2⟩
    have hdx := (hi.block_arena hx hdesc).2.1
    have hxa := hin x _ (.inr ⟨e, desc, hdesc, hx, le_rfl⟩) h1 h2
    have hax : x - pgOfs x = a := by
      simp only [pgOfs, arenaSize, pgSize] at *
      omega
    rw [hax, hd] at hdx
    cases hdx
  refine ⟨hrun, ?_, fun hf g hg' e desc he hdesc => ?_⟩
  · refine hi.dropArena hg rfl rfl rfl rfl (fun e desc hdesc x => ?_) hi.nodup (fun l => ?_)
      (addrs_release_nodup hi.lentNodup _)
    · exact (and_iff_left_of_imp fun hx => hsmall e desc hdesc x ((hi.free e desc hdesc x).mp hx).1).symm
    · rw [mem_release]
      refine and_congr_right fun hl => ?_
      constructor
      · rintro hne ⟨h1, h2⟩
        exact hne (hin l.1 _ (hi.lent l hl) h1 h2)
      · rintro hno he
        refine hno ⟨?_, ?_⟩ <;> simp only [he, arenaSize, pgSize] at * <;> omega
  · obtain ⟨hne, hg'⟩ := hi.groups.mem_erase_iff.mp hg'
    have hmem : (s.freed a m).mem = (s.freed a m).mem := rfl
    obtain ⟨-, h2, h3⟩ := hi.freed_headers hg hmem g hg' hne
    rw [h2] at he
    rw [h3]
    exact hf g hg' e desc he hdesc

/-- `free` finds the descriptor of a block. -/
theorem HeapInv.free_block (hi : HeapInv s live) (hb : s.Block d desc b) (hdesc : descs[d]? = some desc) :
    Malloc.free (some b) s = freeSmall (b - pgOfs b) b d s := by
  rw [Malloc.free, bind_run, hi.blockToArena_small hb hdesc rfl, ok_bind, bind_run, get_run, ok_bind,
    (hi.block_arena hb hdesc).2.1]

/-! ## What `free` gives back -/

/-- What `free` of the block at `p` has done. -/
structure FreeEffect (s s' : Heap) (live : List (Nat × Nat)) (p : Nat) (k : Piece) : Prop where
  inv : HeapInv s' (release live p)
  noneFree : NoneFree s → NoneFree s'
  gives : s.GivesBack s' p k
  desc : ∀ g ∈ s'.groups, s'.descOf g.1 = s.descOf g.1
  mem : ∀ c ∈ addrs live, c ≠ p → ∀ n, s.Lent c n → ∀ x < n, s'.mem (c + x) = s.mem (c + x)

/-- A block does not reach into a header. -/
theorem HeapInv.lent_not_header (hi : HeapInv s live) (h : s.Lent b n) {x : Nat} (hx : x < n) :
    ¬ s.InHeader (b + x) := by
  rintro ⟨g, hg, h1, h2⟩
  obtain ⟨g', hg', h3, h4⟩ := h.within
  obtain ⟨-, -, hpos, -⟩ := hi.group_page hg
  have he := hi.group_unique hg hg' h1 (by simp only [arenaSize, pgSize] at *; omega) (by omega) (by omega)
  subst he
  omega

/-- The pages of another arena. -/
theorem freed_mem {x : Nat} (hx : ¬ (a ≤ x ∧ x < a + pgSize * n)) : (s.freed a n).mem x = s.mem x := by
  show memcpy s.mem a (fun _ => 0xcc) 0 (pgSize * n) x = s.mem x
  exact memcpy_out (by omega)

theorem freeBig_effect (hi : HeapInv s live) (hg : (a, m) ∈ s.groups) (hd : s.descOf a = none) :
    FreeEffect s (s.freed a m) live (a + arenaSize) (.pages a m) := by
  obtain ⟨-, hinv, hnone⟩ := freeBig_run hi hg hd
  have hmem : (s.freed a m).mem = (s.freed a m).mem := rfl
  refine ⟨hinv, hnone, ⟨⟨rfl, rfl⟩, rfl⟩, fun g hg' => ?_, fun c hc hne k hk x hx => freed_mem ?_⟩
  · obtain ⟨hne, hg'⟩ := hi.groups.mem_erase_iff.mp hg'
    exact (hi.freed_headers hg hmem g hg' hne).2.1
  · rintro ⟨h1, h2⟩
    obtain ⟨g, hg', h3, h4⟩ := hk.within
    have he := hi.group_unique hg hg' h1 h2 (by omega) (by omega)
    subst he
    rcases hi.lent_arena hk hg (by omega) (by omega) with ⟨-, h⟩ | ⟨d, desc, i, -, h, -⟩
    · exact hne h
    · rw [hd] at h
      cases h

/-- The counter and the contents of the block are all that a push changes. -/
theorem HeapInv.pushed_effect (hi : HeapInv s live) (hb : s.Block d desc b) (hdesc : descs[d]? = some desc) :
    (∀ g ∈ s.groups, (s.pushed b d n desc).descOf g.1 = s.descOf g.1) ∧
      ∀ c ≠ b, ∀ m, s.Lent c m → ∀ x < m, (s.pushed b d n desc).mem (c + x) = s.mem (c + x) := by
  have hlent : s.Lent b desc.blockSize := .inr ⟨d, desc, hdesc, hb, le_rfl⟩
  have hsame := hi.store hlent (fun _ => 0xcc) 0 le_rfl
  obtain ⟨hg, -⟩ := hi.block_arena hb hdesc
  constructor
  · intro g hg'
    refine Eq.trans (descOf_congr (load32_store32_of_disjoint ?_)) (hsame g hg').2.1
    by_cases he : g.1 = b - pgOfs b
    · omega
    · have h1 := (hi.group_page hg').1
      have h2 := (hi.group_page hg).1
      simp only [pgSize] at h1 h2
      omega
  · intro c hne m hm x hx
    have hapart := hi.lent_apart hm hlent hne
    have hout : ¬ (b - pgOfs b ≤ c + x ∧ c + x < b - pgOfs b + 12) := fun h =>
      hi.lent_not_header hm hx ⟨_, hg, h⟩
    simp only [Heap.pushed, Heap.setFreeCnt, Heap.setList, store32]
    rw [memcpy_out (by omega), memcpy_out (by omega)]

/-- A page that goes back holds no block of another caller. -/
theorem HeapInv.returned_effect (hi : HeapInv s live) (hg : (a, 1) ∈ s.groups) (hd : s.descOf a = some d)
    (hdesc : descs[d]? = some desc) (hfull : s.freeCnt a = desc.blocksPerArena) :
    s.GavePages (s.returned a d desc) a 1 ∧
      (∀ g ∈ (s.returned a d desc).groups, (s.returned a d desc).descOf g.1 = s.descOf g.1) ∧
      ∀ c ∈ addrs live, ∀ m, s.Lent c m → ∀ x < m, (s.returned a d desc).mem (c + x) = s.mem (c + x) := by
  have hmem : (s.returned a d desc).mem = (s.freed a 1).mem := rfl
  refine ⟨⟨rfl, rfl⟩, fun g hg' => ?_, fun c hc m hm x hx => freed_mem ?_⟩
  · obtain ⟨hne, hg'⟩ := hi.groups.mem_erase_iff.mp hg'
    exact (hi.freed_headers hg hmem g hg' hne).2.1
  · rintro ⟨h1, h2⟩
    obtain ⟨g, hg', h3, h4⟩ := hm.within
    have he := hi.group_unique hg hg' h1 h2 (by omega) (by omega)
    subst he
    rcases hi.lent_arena hm hg (by omega) (by omega) with ⟨h, -⟩ | ⟨e, desc', i, hdesc', h, hlt, rfl⟩
    · rw [hd] at h
      cases h
    · rw [hd] at h
      cases h
      rw [hdesc] at hdesc'
      cases hdesc'
      exact ((hi.free d desc hdesc _).mp (hi.all_free hg hd hdesc hfull i hlt)).2 hc

theorem freeSmall_effect (hi : HeapInv s live) (hb : s.Block d desc b) (hdesc : descs[d]? = some desc)
    (hmem : b ∈ addrs live) :
    FreeEffect s (s.putBack b d desc) live b (.block (b - pgOfs b) d) := by
  obtain ⟨-, hinv, hnone⟩ := freeSmall_run hi hb hdesc hmem
  obtain ⟨hpush, hle, hcnt, hd, -⟩ := hi.pushed hb hdesc hmem (n := s.freeCnt (b - pgOfs b) + 1) rfl
  obtain ⟨hpdesc, hpmem⟩ := hi.pushed_effect (n := s.freeCnt (b - pgOfs b) + 1) hb hdesc
  obtain ⟨hg, -⟩ := hi.block_arena hb hdesc
  refine ⟨hinv, hnone, ?_, ?_, ?_⟩
  all_goals
    unfold Heap.putBack
    split
  · next hfull =>
    have hcnt := hcnt.trans (show _ = desc.blocksPerArena by omega)
    obtain ⟨hgave, -⟩ := hpush.returned_effect hg hd hdesc hcnt
    refine .inr ⟨⟨hgave.groups, hgave.pool⟩, desc, hdesc, fun i hlt => ?_, ?_⟩
    · have := hpush.all_free hg hd hdesc hcnt i hlt
      simpa [Heap.pushed, Heap.setList, Heap.setFreeCnt] using this
    · simp [Heap.returned, Heap.freed, Heap.pushed, Heap.setList, Heap.setFreeCnt]
  · exact .inl ⟨rfl, rfl, rfl⟩
  · next hfull =>
    have hcnt := hcnt.trans (show _ = desc.blocksPerArena by omega)
    obtain ⟨-, hrdesc, -⟩ := hpush.returned_effect hg hd hdesc hcnt
    intro g hg'
    rw [hrdesc g hg']
    exact hpdesc g (List.mem_of_mem_erase hg')
  · exact hpdesc
  · next hfull =>
    have hcnt := hcnt.trans (show _ = desc.blocksPerArena by omega)
    obtain ⟨-, -, hrmem⟩ := hpush.returned_effect hg hd hdesc hcnt
    intro c hc hne m hm x hx
    rw [hrmem c (mem_addrs_release.mpr ⟨hc, hne⟩) m (lent_congr hpdesc rfl hm) x hx]
    exact hpmem c hne m hm x hx
  · exact fun c _ hne m hm x hx => hpmem c hne m hm x hx

/-- **`free`** of a block that a caller has gives back its piece and nothing else. -/
theorem free_effect (hi : HeapInv s live) (hb : b ∈ addrs live) :
    ∃ k s', s.Is b k ∧ free (some b) s = .ok ((), s') ∧ FreeEffect s s' live b k := by
  obtain ⟨l, hl, rfl⟩ := List.mem_map.mp hb
  rcases hi.lent l hl with ⟨a, m, hg, hd, he, -⟩ | ⟨d, desc, hdesc, hblock, -⟩
  · rw [he]
    exact ⟨.pages a m, _, ⟨hg, hd, rfl⟩, (freeBig_run hi hg hd).1, freeBig_effect hi hg hd⟩
  · refine ⟨_, _, hi.block_is hblock hdesc, ?_, freeSmall_effect hi hblock hdesc hb⟩
    rw [hi.free_block hblock hdesc]
    exact (freeSmall_run hi hblock hdesc hb).1

/-- `free` runs through and keeps the invariant. -/
theorem free_run (hi : HeapInv s live) (hb : b ∈ addrs live) :
    ∃ s', free (some b) s = .ok ((), s') ∧ HeapInv s' (release live b) ∧
      (NoneFree s → NoneFree s') := by
  obtain ⟨k, s', -, hrun, heff⟩ := free_effect hi hb
  exact ⟨s', hrun, heff.inv, heff.noneFree⟩

/-! ## `calloc` and `realloc` -/

/-- `calloc` in any state: a null pointer, or a block that is cleared as far as the size goes. -/
theorem calloc_effect (hi : HeapInv s live) {x y : Nat} (hsize : s.Serves (x * y % 2 ^ 32)) :
    (∃ l, calloc x y s = .ok (none, { s with answers := l })) ∨
    ∃ p k s1, calloc x y s = .ok (some p, { s1 with mem := memcpy s1.mem p zeros 0 (x * y % 2 ^ 32) }) ∧
      MallocEffect s s1 live p k ∧ x * y % 2 ^ 32 ≤ k.size := by
  unfold calloc
  generalize x * y % 2 ^ 32 = size at *
  split
  · exact .inl ⟨s.answers, rfl⟩
  by_cases h0 : size = 0
  · refine .inl ⟨s.answers, ?_⟩
    rw [malloc, if_pos h0]
    rfl
  rw [bind_run]
  rcases malloc_effect hi (Nat.pos_of_ne_zero h0) with ⟨-, l, he⟩ | ⟨-, p, k, s1, he, heff, hle⟩
  · rw [he]
    exact .inl ⟨l, rfl⟩
  · have hlent := (heff.inv.lent (p, k.size) List.mem_cons_self).mono (hle hsize)
    refine .inr ⟨p, k, s1, ?_, heff, hle hsize⟩
    rw [he, ok_bind]
    simp only
    rw [bind_run, (heff.inv.copy hlent zeros 0 le_rfl).1]
    rfl

/-- **`calloc`** when the product is a size that pages can serve. -/
theorem calloc_run (hi : HeapInv s live) {x y : Nat} (hsize : s.Serves (x * y % 2 ^ 32)) :
    ∃ r s', calloc x y s = .ok (r, s') ∧ HeapInv s' (lend live r (x * y % 2 ^ 32)) ∧
      (NoneFree s → NoneFree s') := by
  rcases calloc_effect hi hsize with ⟨l, he⟩ | ⟨p, k, s1, he, heff, hle⟩
  · exact ⟨none, _, he, hi.answers l, fun hf => hf⟩
  · have hinv := heff.inv.shrink hle
    have hlent := hinv.lent (p, x * y % 2 ^ 32) List.mem_cons_self
    exact ⟨some p, _, he, (hinv.copy hlent zeros 0 le_rfl).2,
      fun hf => (hinv.store hlent _ _ le_rfl).none_free rfl (heff.noneFree hf)⟩

/-- `block_size` reads the size of the piece off the header. -/
theorem blockSize_run (hi : HeapInv s live) {k : Piece} (hk : s.Is b k) :
    blockSize b s = .ok (k.size, s) := by
  cases k with
  | pages a m =>
    obtain ⟨hg, hd, rfl⟩ := hk
    obtain ⟨hal, -, hpos, htop⟩ := hi.group_page hg
    have hle := hi.top_le
    have hofs : pgOfs (a + arenaSize) = arenaSize := by
      simp only [pgOfs, arenaSize, pgSize] at *
      omega
    have hsize : (pgSize * m + 2 ^ 32 - arenaSize) % 2 ^ 32 = pgSize * m - arenaSize := by
      simp only [arenaSize, pgSize] at *
      omega
    rw [blockSize, bind_run, hi.blockToArena_big hg hd, ok_bind, bind_run, get_run, ok_bind, hd]
    simp only
    rw [hi.big _ hg hd, hofs, hsize]
    rfl
  | block a d =>
    obtain ⟨-, -, desc, i, hdesc, -, -⟩ := id hk
    have hblock := hk.block_of hdesc
    rw [blockSize, bind_run, hi.blockToArena_small hblock hdesc rfl, ok_bind, bind_run, get_run, ok_bind,
      (hi.block_arena hblock hdesc).2.1]
    simp only
    rw [bind_run, getDesc_run hdesc, ok_bind, size_block hdesc]
    rfl

/-- The blocks that callers have after `realloc` has returned `r`. -/
def resize (live : List (Nat × Nat)) (old r : Option Nat) (newSize : Nat) : List (Nat × Nat) :=
  if newSize = 0 ∨ r.isSome then lend (old.elim live (release live)) r newSize else live

/-- A piece stays one when `malloc` takes another. -/
theorem MallocEffect.keeps {k k' : Piece} {q : Nat} (h : MallocEffect s s' live q k') (hk : s.Is b k) :
    s'.Is b k := by
  have hsub : ∀ g ∈ s.groups, g ∈ s'.groups := by
    intro g hg
    have ht := h.takes
    cases k' with
    | pages a m => rw [ht.1.groups]; exact List.mem_cons_of_mem _ hg
    | block a d =>
      rcases ht with ⟨ht, -⟩ | ⟨-, ht, -⟩
      · rw [ht]; exact hg
      · rw [ht.groups]; exact List.mem_cons_of_mem _ hg
  cases k with
  | pages a m => exact ⟨hsub _ hk.1, (h.desc _ hk.1).trans hk.2.1, hk.2.2⟩
  | block a d => exact ⟨hsub _ hk.1, (h.desc _ hk.1).trans hk.2.1, hk.2.2⟩

/-- A piece that is left was one before `free`. -/
theorem FreeEffect.was {k k' : Piece} {q : Nat} (h : FreeEffect s s' live q k') (hk : s'.Is b k) :
    s.Is b k := by
  have hsub : ∀ g ∈ s'.groups, g ∈ s.groups := by
    intro g hg
    have ht := h.gives
    cases k' with
    | pages a m => rw [ht.1.groups] at hg; exact List.mem_of_mem_erase hg
    | block a d =>
      rcases ht with ⟨ht, -⟩ | ⟨ht, -⟩
      · rw [ht] at hg; exact hg
      · rw [ht.groups] at hg; exact List.mem_of_mem_erase hg
  cases k with
  | pages a m => exact ⟨hsub _ hk.1, (h.desc _ hk.1).symm.trans hk.2.1, hk.2.2⟩
  | block a d => exact ⟨hsub _ hk.1, (h.desc _ hk.1).symm.trans hk.2.1, hk.2.2⟩

/-- A store inside a block that is lent leaves the pieces. -/
theorem Heap.SameHeaders.is {k : Piece} (h : s.SameHeaders s') (hg : s'.groups = s.groups) :
    s'.Is b k ↔ s.Is b k := by
  cases k with
  | pages a m =>
    unfold Heap.Is
    rw [hg]
    exact and_congr_right fun hm => by rw [(h _ hm).2.1]
  | block a d =>
    unfold Heap.Is
    rw [hg]
    exact and_congr_right fun hm => by rw [(h _ hm).2.1]

/-- The state after `realloc` has copied the old block into the new one. -/
def Heap.copied (s : Heap) (old new n : Nat) : Heap := { s with mem := memcpy s.mem new s.mem old n }

/-- `realloc` of a block in any state: a null pointer and nothing has changed, or a new block, into
which the bytes are copied before the old one is given back. -/
theorem realloc_effect (hi : HeapInv s live) (hb : b ∈ addrs live) {k : Piece} (hk : s.Is b k)
    {newSize : Nat} (h0 : 0 < newSize) (hsize : s.Serves newSize) :
    (∃ l, realloc (some b) newSize s = .ok (none, { s with answers := l })) ∨
    ∃ q k' s1 s', realloc (some b) newSize s = .ok (some q, s') ∧ MallocEffect s s1 live q k' ∧
      newSize ≤ k'.size ∧
      FreeEffect (s1.copied b q (min newSize k.size)) s' ((q, newSize) :: live) b k := by
  rw [realloc, if_neg h0.ne', bind_run]
  rcases malloc_effect hi h0 with ⟨-, l, he⟩ | ⟨-, q, k', s1, he, heff, hle⟩
  · rw [he]
    exact .inl ⟨l, rfl⟩
  · have hinv := heff.inv.shrink (hle hsize)
    have hlent := hinv.lent (q, newSize) List.mem_cons_self
    have hkeep := heff.keeps hk
    obtain ⟨hcopy, hinv2⟩ := hinv.copy hlent s1.mem b (Nat.min_le_left newSize k.size)
    have hsame := hinv.store hlent s1.mem b (Nat.min_le_left newSize k.size)
    obtain ⟨k2, s', hk2, hrun, hfree⟩ := free_effect hinv2 (List.mem_cons_of_mem _ hb)
    cases hinv2.is_unique hk2 ((hsame.is rfl).mpr hkeep)
    refine .inr ⟨q, k', s1, s', ?_, heff, hle hsize, hfree⟩
    rw [he, ok_bind]
    simp only
    rw [bind_run, moveBlock, bind_run, blockSize_run hinv hkeep, ok_bind, bind_run, get_run, ok_bind,
      bind_run, hcopy, ok_bind, hrun]
    rfl

/-- **`realloc`** for a size that pages can serve. -/
theorem realloc_run (hi : HeapInv s live) {old : Option Nat} (hold : ∀ b ∈ old, b ∈ addrs live)
    {newSize : Nat} (hsize : s.Serves newSize) :
    ∃ r s', realloc old newSize s = .ok (r, s') ∧ HeapInv s' (resize live old r newSize) ∧
      (NoneFree s → NoneFree s') := by
  cases old with
  | none =>
    unfold realloc resize
    by_cases h0 : newSize = 0
    · rw [if_pos h0]
      refine ⟨none, s, rfl, ?_, fun hf => hf⟩
      rw [if_pos (.inl h0)]
      exact hi
    · obtain ⟨r, s', hrun, hinv, hfree⟩ := malloc_run hi hsize
      refine ⟨r, s', ?_, ?_, hfree⟩
      · rw [if_neg h0, bind_run, hrun]
        rfl
      · cases r <;> simpa [h0, lend] using hinv
  | some b =>
    unfold resize
    by_cases h0 : newSize = 0
    · obtain ⟨s', hrun, hinv, hfree⟩ := free_run hi (hold b rfl)
      refine ⟨none, s', ?_, ?_, hfree⟩
      · rw [realloc, if_pos h0, bind_run, hrun]
        rfl
      · rw [if_pos (.inl h0)]
        exact hinv
    obtain ⟨n, hl⟩ : ∃ n, s.Lent b n := by
      obtain ⟨l, hl, rfl⟩ := List.mem_map.mp (hold b rfl)
      exact ⟨_, hi.lent l hl⟩
    obtain ⟨k, hk, -⟩ := hl.piece
    rcases realloc_effect hi (hold b rfl) hk (Nat.pos_of_ne_zero h0) hsize with
      ⟨l, he⟩ | ⟨q, k', s1, s', he, heff, hle, hfree⟩
    · refine ⟨none, _, he, ?_, fun hf => hf⟩
      rw [if_neg (by simp [h0])]
      exact hi.answers l
    · have hinv := heff.inv.shrink hle
      have hq : q ∉ addrs live := (List.nodup_cons.mp hinv.lentNodup).1
      have hrel : release ((q, newSize) :: live) b = (q, newSize) :: release live b := by
        refine List.filter_cons_of_pos (decide_eq_true fun hqb : q = b => hq ?_)
        rw [hqb]
        exact hold b rfl
      have hlent := hinv.lent (q, newSize) List.mem_cons_self
      refine ⟨some q, s', he, ?_, fun hf => hfree.noneFree ?_⟩
      · rw [if_pos (.inr rfl)]
        show HeapInv s' ((q, newSize) :: release live b)
        rw [← hrel]
        exact hfree.inv
      · exact (hinv.store hlent _ _ (Nat.min_le_left _ _)).none_free rfl (heff.noneFree hf)

end

end Pintos.Threads.Malloc
