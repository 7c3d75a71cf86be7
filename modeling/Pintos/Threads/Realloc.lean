import Pintos.Threads.MallocEnough

/-!
# The contents of blocks under `realloc`

The bytes of a block move with it, and no other block in use changes; when there is no memory
for the new block, nothing at all changes.
-/

namespace Pintos.Threads.Malloc

open Pintos.Base Pintos.Kernel

/-- A block in use: one with pages of its own, or one that is not on its free list. -/
def Heap.InUse (s : Heap) (p : Nat) : Prop :=
  ∃ k, s.Is p k ∧ ∀ a d, k = .block a d → p ∉ s.freeList d

/-- The callers have all blocks in use. -/
def Heap.Covers (s : Heap) (live : List (Nat × Nat)) : Prop := ∀ c, s.InUse c → c ∈ addrs live

/-- What a `realloc` that moves the block at `p` to `q` has done. -/
structure Resized (s s' : Heap) (p q : Nat) (k : Piece) (newSize : Nat) : Prop where
  enough : s'.Lent q newSize
  fresh : ¬ s.InUse q
  copied : ∀ x < min k.size newSize, s'.mem (q + x) = s.mem (p + x)
  inUse : ∀ c, s'.InUse c ↔ c = q ∨ s.InUse c ∧ c ≠ p
  others : ∀ c k', c ≠ p → s.InUse c → s.Is c k' →
    s'.Is c k' ∧ ∀ x < k'.size, s'.mem (c + x) = s.mem (c + x)

/-- What `realloc` of the block at `p` has done when it returns `r`: without a new block only
the page allocator has been asked. -/
def ReallocKeeps (s s' : Heap) (p : Nat) (k : Piece) (newSize : Nat) : Option Nat → Prop
  | some q => Resized s s' p q k newSize
  | none => s' = { s with answers := s'.answers }

section

variable {s s' : Heap} {live : List (Nat × Nat)} {p q c n : Nat} {k k' : Piece}

/-! ## The blocks in use -/

/-- The blocks that callers have are in use. -/
theorem HeapInv.inUse (hi : HeapInv s live) (hc : c ∈ addrs live) : s.InUse c := by
  obtain ⟨k, hk⟩ := hi.live_piece hc
  refine ⟨k, hk, fun a d he hfree => ?_⟩
  subst he
  obtain ⟨-, -, desc, -, hd, -⟩ := id hk
  exact ((hi.free d desc hd c).mp hfree).2 hc

/-- A block of a descriptor in use is in the hands of a caller. -/
theorem HeapInv.block_live (hi : HeapInv s live) {a d : Nat} (hk : s.Is c (.block a d))
    (hfree : c ∉ s.freeList d) : c ∈ addrs live := by
  obtain ⟨-, -, desc, -, hd, -⟩ := id hk
  by_contra hc
  exact hfree ((hi.free d desc hd c).mpr ⟨hk.block_of hd, hc⟩)

/-- The pages that the callers do not know of. -/
def bigRest (s : Heap) (live : List (Nat × Nat)) : List (Nat × Nat) :=
  (s.groups.filter fun g => s.descOf g.1 = none ∧ g.1 + arenaSize ∉ addrs live).map
    fun g => (g.1 + arenaSize, 0)

theorem mem_bigRest {l : Nat × Nat} : l ∈ bigRest s live ↔
    ∃ g ∈ s.groups, (s.descOf g.1 = none ∧ g.1 + arenaSize ∉ addrs live) ∧ l = (g.1 + arenaSize, 0) := by
  simp only [bigRest, List.mem_map, List.mem_filter, decide_eq_true_eq]
  constructor
  · rintro ⟨g, ⟨hg, h⟩, rfl⟩
    exact ⟨g, hg, h, rfl⟩
  · rintro ⟨g, hg, h, rfl⟩
    exact ⟨g, ⟨hg, h⟩, rfl⟩

/-- With these the callers have all blocks in use. -/
theorem HeapInv.cover (hi : HeapInv s live) :
    HeapInv s (bigRest s live ++ live) ∧ s.Covers (bigRest s live ++ live) := by
  have haddrs : addrs (bigRest s live ++ live) = addrs (bigRest s live) ++ addrs live := List.map_append
  have hbig : ∀ b ∈ addrs (bigRest s live), (∃ m, s.Is b (.pages (b - arenaSize) m)) ∧ b ∉ addrs live := by
    intro b hb
    obtain ⟨l, hl, rfl⟩ := List.mem_map.mp hb
    obtain ⟨g, hg, ⟨hd, hno⟩, rfl⟩ := mem_bigRest.mp hl
    refine ⟨⟨g.2, ?_⟩, hno⟩
    simp only [Nat.add_sub_cancel]
    exact ⟨hg, hd, rfl⟩
  constructor
  · refine { hi with free := fun d desc hd b => ?_, lentNodup := ?_, lent := fun l hl => ?_ }
    · rw [hi.free d desc hd b, haddrs, List.mem_append, not_or]
      refine and_congr_right fun hb => ?_
      refine (and_iff_right fun hm => ?_).symm
      obtain ⟨⟨m, hk⟩, -⟩ := hbig b hm
      cases hi.is_unique hk (hi.block_is hb hd)
    · rw [haddrs]
      refine List.Nodup.append ?_ hi.lentNodup fun b hb hl => (hbig b hb).2 hl
      unfold addrs bigRest
      rw [List.map_map]
      refine (List.nodup_map_iff_inj_on (hi.groups.filter _)).mpr fun g hg g' hg' he => ?_
      have he : g.1 + arenaSize = g'.1 + arenaSize := he
      exact hi.group_eq (List.mem_of_mem_filter hg) (List.mem_of_mem_filter hg') (by omega)
    · rcases List.mem_append.mp hl with hl | hl
      · obtain ⟨g, hg, ⟨hd, -⟩, rfl⟩ := mem_bigRest.mp hl
        obtain ⟨-, -, hpos, -⟩ := hi.group_page hg
        refine .inl ⟨g.1, g.2, hg, hd, rfl, ?_⟩
        simp only [arenaSize, pgSize]
        omega
      · exact hi.lent l hl
  · rintro b ⟨k, hk, hfree⟩
    rw [haddrs, List.mem_append]
    cases k with
    | block a d => exact .inr (hi.block_live hk (hfree a d rfl))
    | pages a m =>
      obtain ⟨hg, hd, rfl⟩ := hk
      by_cases hl : a + arenaSize ∈ addrs live
      · exact .inr hl
      · exact .inl (List.mem_map.mpr ⟨_, mem_bigRest.mpr ⟨_, hg, ⟨hd, hl⟩, rfl⟩, rfl⟩)

/-- A caller takes the block that `malloc` returns. -/
theorem MallocEffect.covers (h : MallocEffect s s' live q k) (hc : s.Covers live) :
    s'.Covers ((q, n) :: live) := by
  rintro c ⟨kc, hk, hfree⟩
  show c ∈ q :: addrs live
  cases kc with
  | block a d => exact h.inv.block_live hk (hfree a d rfl)
  | pages a m =>
    -- its pages were there before, or are the new ones
    obtain ⟨hg, hd, rfl⟩ := hk
    have hold : (a, m) ∈ s.groups → a + arenaSize ∈ q :: addrs live := fun hg =>
      List.mem_cons_of_mem _ (hc _ ⟨.pages a m, ⟨hg, (h.desc _ hg).symm.trans hd, rfl⟩, fun a d he => (by cases he)⟩)
    have htakes := h.takes
    have hq := h.piece
    cases k with
    | pages a' m' =>
      rw [htakes.1.groups] at hg
      rcases List.mem_cons.mp hg with he | hg
      · cases he
        rw [hq.2.2]
        exact List.mem_cons_self
      · exact hold hg
    | block a' d =>
      rcases htakes with ⟨he, -⟩ | ⟨-, htook, -⟩
      · exact hold (he ▸ hg)
      · rw [htook.groups] at hg
        rcases List.mem_cons.mp hg with he | hg
        · cases he
          rw [hq.2.1] at hd
          cases hd
        · exact hold hg

/-- A caller loses the block that it gives back. -/
theorem FreeEffect.covers (hi : HeapInv s live) (hk : s.Is p k) (h : FreeEffect s s' live p k)
    (hc : s.Covers live) : s'.Covers (release live p) := by
  rintro c ⟨kc, hkc, hfree⟩
  cases kc with
  | block a d => exact h.inv.block_live hkc (hfree a d rfl)
  | pages a m =>
    refine mem_addrs_release.mpr ⟨hc c ⟨_, h.was hkc, fun a d he => (by cases he)⟩, ?_⟩
    rintro rfl
    cases hi.is_unique hk (h.was hkc)
    have hg := hkc.1
    rw [h.gives.1.groups] at hg
    exact (hi.groups.mem_erase_iff.mp hg).1 rfl

theorem HeapInv.inUse_iff (hi : HeapInv s live) (hc : s.Covers live) : s.InUse c ↔ c ∈ addrs live :=
  ⟨hc c, hi.inUse⟩

/-! ## The move -/

/-- The bytes of the blocks in use, on the way from the old block to the new one. -/
theorem realloc_memory (hp : p ∈ addrs live) (hk : s.Is p k) {s1 : Heap} {newSize : Nat}
    (heff : MallocEffect s s1 live q k') (hle : newSize ≤ k'.size)
    (hfree : FreeEffect (s1.copied p q (min newSize k.size)) s' ((q, newSize) :: live) p k) :
    (∀ x < min k.size newSize, s'.mem (q + x) = s.mem (p + x)) ∧
      ∀ c kc, c ≠ p → c ∈ addrs live → s.Is c kc →
        s'.Is c kc ∧ ∀ x < kc.size, s'.mem (c + x) = s.mem (c + x) := by
  have hinv := heff.inv.shrink hle
  have hlent : s1.Lent q newSize := hinv.lent _ List.mem_cons_self
  have hq : q ∉ addrs live := (List.nodup_cons.mp hinv.lentNodup).1
  have hsame := hinv.store hlent s1.mem p (Nat.min_le_left newSize k.size)
  have hi2 := (hinv.copy hlent s1.mem p (Nat.min_le_left newSize k.size)).2
  -- `malloc` writes headers only
  have hmem1 : ∀ c kc, s.Is c kc → ∀ x < kc.size, s1.mem (c + x) = s.mem (c + x) := fun c kc hkc x hx =>
    heff.mem _ (hinv.lent_not_header (hinv.is_lent (heff.keeps hkc)) hx)
  constructor
  · intro x hx
    have hqp : q ≠ p := fun he => hq (he ▸ hp)
    have hl2 : (s1.copied p q (min newSize k.size)).Lent q newSize :=
      lent_congr (fun g hg => (hsame g hg).2.1) rfl hlent
    rw [hfree.mem q List.mem_cons_self hqp newSize hl2 x (by omega)]
    show memcpy s1.mem q s1.mem p _ (q + x) = _
    rw [memcpy_in (by omega) (by omega), Nat.add_sub_cancel_left]
    exact hmem1 p k hk x (by omega)
  · intro c kc hne hc hkc
    have hk1 := heff.keeps hkc
    have hk2 : (s1.copied p q (min newSize k.size)).Is c kc := (hsame.is rfl).mpr hk1
    have hc1 : c ∈ addrs ((q, newSize) :: live) := List.mem_cons_of_mem _ hc
    refine ⟨hfree.keeps hi2 hk2 hfree.inv (mem_addrs_release.mpr ⟨hc1, hne⟩), fun x hx => ?_⟩
    rw [hfree.mem c hc1 hne kc.size (hi2.is_lent hk2) x hx, ← hmem1 c kc hkc x hx]
    have hapart := hinv.lent_apart (hinv.is_lent hk1) hlent fun he => hq (he ▸ hc)
    exact memcpy_out (by omega)

/-- **`realloc` preserves contents**: in any state, for any block in use and any new size below
2^31, the bytes move with the block and the other blocks in use stay as they are; without memory
for the new block nothing changes. -/
theorem realloc_preserves (hs : s.Steady) (hp : s.InUse p) (hk : s.Is p k) {newSize : Nat}
    (h0 : 0 < newSize) (hlt : newSize < 2 ^ 31) :
    blockSize p s = .ok (k.size, s) ∧ ∃ r s', realloc (some p) newSize s = .ok (r, s') ∧ s'.Steady ∧
      ReallocKeeps s s' p k newSize r := by
  obtain ⟨live0, hi0, hnone⟩ := hs
  obtain ⟨hi, hcov⟩ := hi0.cover
  generalize bigRest s live0 ++ live0 = live at hi hcov
  have hpl := hcov p hp
  refine ⟨blockSize_run hi hk, ?_⟩
  rcases realloc_effect hi hpl hk h0 (.inl (by omega)) with ⟨l, he⟩ | ⟨q, k', s1, s', he, heff, hle, hfree⟩
  · exact ⟨none, _, he, ⟨live, hi.answers l, hnone⟩, rfl⟩
  have hinv := heff.inv.shrink hle
  have hlent : s1.Lent q newSize := hinv.lent _ List.mem_cons_self
  have hq : q ∉ addrs live := (List.nodup_cons.mp hinv.lentNodup).1
  have hsame := hinv.store hlent s1.mem p (Nat.min_le_left newSize k.size)
  have hi2 := (hinv.copy hlent s1.mem p (Nat.min_le_left newSize k.size)).2
  have hcov2 : (s1.copied p q (min newSize k.size)).Covers ((q, newSize) :: live) := by
    rintro c ⟨kc, hkc, hno⟩
    exact heff.covers hcov c ⟨kc, (hsame.is rfl).mp hkc, hno⟩
  have hcov' := hfree.covers hi2 ((hsame.is rfl).mpr (heff.keeps hk)) hcov2
  obtain ⟨hcopied, hothers⟩ := realloc_memory hpl hk heff hle hfree
  have hnone' := hfree.noneFree (hsame.none_free rfl (heff.noneFree hnone))
  have hqp : q ≠ p := fun he => hq (he ▸ hpl)
  refine ⟨some q, s', he, ⟨_, hfree.inv, hnone'⟩, ?_, fun hu => hq (hcov q hu), hcopied, fun c => ?_,
    fun c kc hne hc hkc => hothers c kc hne (hcov c hc) hkc⟩
  · exact hfree.inv.lent (q, newSize) (mem_release.mpr ⟨List.mem_cons_self, hqp⟩)
  · rw [hfree.inv.inUse_iff hcov', hi.inUse_iff hcov, mem_addrs_release]
    show c ∈ q :: addrs live ∧ c ≠ p ↔ _
    rw [List.mem_cons]
    constructor
    · rintro ⟨hc | hc, hne⟩
      · exact .inl hc
      · exact .inr ⟨hc, hne⟩
    · rintro (rfl | ⟨hc, hne⟩)
      · exact ⟨.inl rfl, hqp⟩
      · exact ⟨.inr hc, hne⟩

end

/-- After a request for 600 bytes; the page allocator is about to hand out its second page. -/
def Heap.oneSmall : Heap :=
  { (HeapSys.call ⟨.eightyPages, [], none⟩ (malloc 600) [some 0] fun r => lend [] r 600).heap with
    answers := [some 1] }

/-- The block of 1024 bytes moves to pages of its own. -/
theorem realloc_preserves_grown : ∃ r s', realloc (some 0xc000100c) 5000 .oneSmall = .ok (r, s') ∧
    r = some 0xc000200c ∧ ReallocKeeps .oneSmall s' 0xc000100c (.block 0xc0001000 6) 5000 r := by
  have hi : SysInv (HeapSys.call ⟨.eightyPages, [], none⟩ (malloc 600) [some 0] fun r => lend [] r 600) := by
    obtain ⟨h1, -⟩ := eightyPages_steady
    have hstart : SysInv ⟨.eightyPages, [], none⟩ := ⟨rfl, h1, fun g hg => absurd hg List.not_mem_nil⟩
    exact hstart.call (malloc_run (h1.answers [some 0]) (.inl (by decide)))
  have hlive : addrs (HeapSys.call ⟨.eightyPages, [], none⟩ (malloc 600) [some 0]
      fun r => lend [] r 600).live = [0xc000100c] := by decide
  have hinv : HeapInv .oneSmall _ := hi.heap.answers [some 1]
  have hk : Heap.oneSmall.Is 0xc000100c (.block 0xc0001000 6) :=
    ⟨by decide, by decide, ⟨1024, 3⟩, 0, by decide, by decide, by decide⟩
  obtain ⟨-, r, s', he, -, hr⟩ := realloc_preserves ⟨_, hinv, hi.noneFree⟩
    (hinv.inUse (hlive ▸ List.mem_singleton.mpr rfl)) hk (show 0 < 5000 by decide) (by decide)
  refine ⟨r, s', he, ?_, hr⟩
  have hfst : (realloc (some 0xc000100c) 5000 .oneSmall).toOption.map Prod.fst = some (some 0xc000200c) := by
    decide
  rw [he] at hfst
  exact Option.some_inj.mp hfst

end Pintos.Threads.Malloc
