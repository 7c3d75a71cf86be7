import Pintos.Threads.MallocRun

/-!
# Blocks of the size asked for

A block that `malloc` returns is one piece of an arena, and `free` gives that piece back, at
once or after any other calls. It is as large as the request exactly where the rounded-up sum
that counts its pages does not wrap; `calloc`, whose test compares the wrapped product with the
factors, lets products through that do not fit in 32 bits.
-/

namespace Pintos.Threads.Malloc

open Pintos.Base Pintos.Kernel

/-- A state of the allocator between calls, whatever the page allocator is about to answer. -/
def Heap.Steady (s : Heap) : Prop := ∃ live, HeapInv s live ∧ NoneFree s

/-- Every run stays in such states. -/
theorem reach_steady {kernelEnd ramPages userPageLimit : Nat} {pool : PoolId → Pool}
    (hinit : pallocInit kernelEnd ramPages userPageLimit = some pool) (hk : physBase ≤ kernelEnd)
    (hram : ramPages ≤ 2 ^ 18) (mem : Buffer) {s : HeapSys}
    (h : Reach HeapSys.step (fun s a => Client s a ∧ Served s a)
      (.boot (pool .kernel) ramPages mem) s) (answers : List (Option Nat)) :
    Heap.Steady { s.heap with answers := answers } := by
  have hi : SysInv s := h.invariant (.boot hinit hk hram mem) fun t a t' ht hok hs =>
    ht.step hok.1 hok.2 hs
  exact ⟨s.live, hi.heap.answers answers, hi.noneFree⟩

/-- A step in which the block at `p` stays in the hands of its caller. -/
def Keeps (p : Nat) (s : HeapSys) (a : HeapAct) : Prop :=
  Client s a ∧ Served s a ∧ ∀ s', s.step a = some s' → p ∈ addrs s'.live

/-- `malloc` returns a null pointer, or a block of the size asked for, whose piece is the one
that `free` gives back whenever the caller is done with it. -/
def MallocEnough (s : Heap) (size : Nat) : Prop :=
  ∃ r s', malloc size s = .ok (r, s') ∧ ∀ p, r = some p → s'.Lent p size ∧ ∃ k, s.Takes s' p k ∧
    ∀ live t, HeapInv s' ((p, size) :: live) →
      Reach HeapSys.step (Keeps p) ⟨s', (p, size) :: live, none⟩ t →
        ∃ t', free (some p) t.heap = .ok ((), t') ∧ t.heap.GivesBack t' p k

/-- The heap after start-up; the page allocator is about to hand out its first page. -/
def Heap.eightyPages : Heap :=
  { (HeapSys.boot ⟨bitmapCreate 39, physBase, physBase + pgSize⟩ 80 zeros).heap with answers := [some 0] }

theorem eightyPages_steady : HeapInv .eightyPages [] ∧ Heap.eightyPages.Steady := by
  have hinit : ∃ pool, pallocInit physBase 80 100 = some pool ∧
      pool .kernel = ⟨bitmapCreate 39, physBase, physBase + pgSize⟩ := ⟨_, rfl, rfl⟩
  obtain ⟨pool, hpool, hkernel⟩ := hinit
  have hi := SysInv.boot hpool le_rfl (by decide) zeros
  rw [hkernel] at hi
  exact ⟨hi.heap.answers [some 0], [], hi.heap.answers [some 0], hi.noneFree⟩

section

variable {s : HeapSys} {h h' : Heap} {live : List (Nat × Nat)} {p q n size : Nat} {k k' : Piece}

/-! ## The piece of a block while it is in use -/

/-- A block in the hands of a caller is a piece. -/
theorem HeapInv.live_piece (hi : HeapInv h live) (hp : p ∈ addrs live) : ∃ k, h.Is p k := by
  obtain ⟨l, hl, rfl⟩ := List.mem_map.mp hp
  obtain ⟨k, hk, -⟩ := (hi.lent l hl).piece
  exact ⟨k, hk⟩

/-- `free` of another block leaves the piece of one that is still in use. -/
theorem FreeEffect.keeps {live' : List (Nat × Nat)} (hi : HeapInv h live)
    (hf : FreeEffect h h' live q k') (hk : h.Is p k) (hi' : HeapInv h' live') (hp : p ∈ addrs live') :
    h'.Is p k := by
  obtain ⟨k2, hk2⟩ := hi'.live_piece hp
  cases hi.is_unique hk (hf.was hk2)
  exact hk2

theorem realloc_keeps (hi : HeapInv h live) {b newSize : Nat} (hb : b ∈ addrs live)
    (hsize : h.Serves newSize) {r : Option Nat} (hrun : realloc (some b) newSize h = .ok (r, h'))
    (hk : h.Is p k) {live' : List (Nat × Nat)} (hi' : HeapInv h' live') (hp : p ∈ addrs live') :
    h'.Is p k := by
  by_cases h0 : newSize = 0
  · obtain ⟨k2, s', -, hfree, heff⟩ := free_effect hi hb
    rw [realloc, if_pos h0, bind_run, hfree] at hrun
    cases hrun
    exact heff.keeps hi hk hi' hp
  obtain ⟨kb, hkb⟩ := hi.live_piece hb
  rcases realloc_effect hi hb hkb (Nat.pos_of_ne_zero h0) hsize with
    ⟨l, he⟩ | ⟨q, k2, s1, s', he, heff, hle, hfree⟩
  · rw [he] at hrun
    cases hrun
    exact hk
  · rw [he] at hrun
    cases hrun
    have hinv := heff.inv.shrink hle
    have hlent := hinv.lent (q, newSize) List.mem_cons_self
    have hsame := hinv.store hlent s1.mem b (Nat.min_le_left newSize kb.size)
    have hi2 := (hinv.copy hlent s1.mem b (Nat.min_le_left newSize kb.size)).2
    exact hfree.keeps hi2 ((hsame.is rfl).mpr (heff.keeps hk)) hi' hp

/-- **One step** leaves the piece of a block that stays in use. -/
theorem SysInv.piece_step {a : HeapAct} {s' : HeapSys} (hi : SysInv s) (ha : Keeps p s a)
    (hs : s.step a = some s') (hk : s.heap.Is p k) : s'.heap.Is p k := by
  obtain ⟨hc, hv, hp⟩ := ha
  have hp := hp s' hs
  have hi' := hi.step hc hv hs
  unfold HeapSys.step at hs
  rw [hi.running, Option.isSome_none, if_neg Bool.false_ne_true, Option.some.injEq] at hs
  cases a with
  | malloc size answers =>
    simp only at hs
    have hia := hi.heap.answers answers
    by_cases h0 : size = 0
    · rw [malloc, if_pos h0] at hs
      subst hs
      exact hk
    rcases malloc_effect hia (Nat.pos_of_ne_zero h0) with ⟨-, l, he⟩ | ⟨-, q, k2, s1, he, heff, -⟩
    · rw [HeapSys.call, he] at hs
      subst hs
      exact hk
    · rw [HeapSys.call, he] at hs
      subst hs
      exact heff.keeps hk
  | calloc x y answers =>
    simp only at hs
    have hia := hi.heap.answers answers
    rcases calloc_effect hia hv with ⟨l, he⟩ | ⟨q, k2, s1, he, heff, hle⟩
    · rw [HeapSys.call, he] at hs
      subst hs
      exact hk
    · rw [HeapSys.call, he] at hs
      subst hs
      have hlent := (heff.inv.lent (q, k2.size) List.mem_cons_self).mono hle
      exact ((heff.inv.store hlent zeros 0 le_rfl).is rfl).mpr (heff.keeps hk)
  | realloc old newSize answers =>
    simp only at hs
    have hia := hi.heap.answers answers
    obtain ⟨r, s1, hrun, -⟩ := realloc_run hia hc.2 hv
    rw [HeapSys.call, hrun] at hs
    subst hs
    cases old with
    | some b => exact realloc_keeps hia (hc.2 b rfl) hv hrun hk hi'.heap hp
    | none =>
      by_cases h0 : newSize = 0
      · rw [realloc, if_pos h0] at hrun
        cases hrun
        exact hk
      · rw [realloc, if_neg h0, bind_run] at hrun
        rcases malloc_effect hia (Nat.pos_of_ne_zero h0) with ⟨-, l, he⟩ | ⟨-, q, k2, s2, he, heff, -⟩
        · rw [he] at hrun
          cases hrun
          exact hk
        · rw [he] at hrun
          cases hrun
          exact heff.keeps hk
  | free p' =>
    simp only at hs
    have hia := hi.heap.answers []
    cases p' with
    | none =>
      subst hs
      exact hk
    | some b =>
      obtain ⟨k2, s1, -, hrun, heff⟩ := free_effect hia (hc b rfl)
      rw [HeapSys.call, hrun] at hs
      subst hs
      exact heff.keeps hia hk hi'.heap hp
  | other mem usedMap =>
    simp only at hs
    subst hs
    exact ((hi.heap.other_headers hc.1).is rfl).mpr hk

/-- **A run** leaves it, and so `free` finds it. -/
theorem reach_piece {t : HeapSys} (hi : SysInv s) (hp : p ∈ addrs s.live) (hk : s.heap.Is p k)
    (h : Reach HeapSys.step (Keeps p) s t) : SysInv t ∧ p ∈ addrs t.live ∧ t.heap.Is p k :=
  h.invariant (I := fun t => SysInv t ∧ p ∈ addrs t.live ∧ t.heap.Is p k) ⟨hi, hp, hk⟩
    fun _ _ _ ht ha hs => ⟨ht.1.step ha.1 ha.2.1 hs, ha.2.2 _ hs, ht.1.piece_step ha hs ht.2.2⟩

/-! ## Sizes that wrap -/

/-- No block reaches to the end of the address space. -/
theorem HeapInv.lent_lt (hi : HeapInv h live) (hl : h'.Lent p n) (hg : h'.groups = h.groups) :
    n < 2 ^ 32 - 11 := by
  obtain ⟨g, hg', h1, h2⟩ := hl.within
  rw [hg] at hg'
  obtain ⟨h3, h4, -, h5⟩ := hi.group_page hg'
  have := hi.top_le
  simp only [arenaSize, pgSize] at *
  omega

/-- A size close to 2^32 is served with the one page that the wrapped sum asks for. -/
theorem not_serves (hsize : size < 2 ^ 32) (h0 : ¬ h.Serves size) :
    2 ^ 32 - 11 ≤ size ∧ ¬ h.Refuses size := by
  unfold Heap.Serves at h0
  push Not at h0
  obtain ⟨hbig, hpage⟩ := h0
  refine ⟨hbig, ?_⟩
  have hnone : (descs.findIdx? fun desc => size ≤ desc.blockSize) = none := by
    refine List.findIdx?_eq_none_iff.mpr fun desc hd => decide_eq_false ?_
    have hall : ∀ desc ∈ descs, desc.blockSize < 2 ^ 31 := by decide
    have := hall desc hd
    omega
  have hone : bigPages size = 1 := by
    simp only [bigPages, arenaSize, pgSize]
    omega
  unfold Heap.Refuses
  rw [hnone, hone]
  obtain ⟨i, h1, h2, h3⟩ := hpage hsize
  refine fun hno => hno ⟨Nat.one_pos, i, h1, h2, fun j hj => ?_⟩
  obtain rfl : j = 0 := by omega
  exact h3

theorem malloc_wraps (hi : HeapInv h live) (hsize : size < 2 ^ 32) (h0 : ¬ h.Serves size) :
    ¬ MallocEnough h size := by
  rintro ⟨r, s', hrun, hp⟩
  obtain ⟨hbig, hroom⟩ := not_serves hsize h0
  rcases malloc_effect hi (show 0 < size by omega) with ⟨hno, -⟩ | ⟨-, p, k, s1, he, heff, -⟩
  · exact hroom hno
  · rw [he] at hrun
    cases hrun
    have := heff.inv.lent_lt (hp p rfl).1 rfl
    omega

/-- **`malloc` returns enough memory**, and `free` gives back what it took, exactly if the number
of pages for the size does not wrap or no page can be had. -/
theorem malloc_enough_iff (hs : h.Steady) (h0 : 0 < size) (hsize : size < 2 ^ 32) :
    MallocEnough h size ↔ h.Serves size := by
  obtain ⟨live, hi, hf⟩ := hs
  constructor
  · intro he
    by_contra hno
    exact malloc_wraps hi hsize hno he
  · intro hv
    rcases malloc_effect hi h0 with ⟨-, l, he⟩ | ⟨-, p, k, s', he, heff, hle⟩
    · exact ⟨none, _, he, fun p hp => (by cases hp)⟩
    · refine ⟨some p, s', he, fun p' hp => ?_⟩
      cases hp
      refine ⟨(heff.inv.is_lent heff.piece).mono (hle hv), k, heff.takes, fun live' t hi' ht => ?_⟩
      have hstart : SysInv ⟨s', (p, size) :: live', none⟩ := ⟨rfl, hi', heff.noneFree hf⟩
      obtain ⟨hit, hpt, hkt⟩ := reach_piece hstart (show p ∈ p :: addrs live' from List.mem_cons_self)
        heff.piece ht
      obtain ⟨k', t', hk', hrun, hfree⟩ := free_effect hit.heap hpt
      cases hit.heap.is_unique hkt hk'
      exact ⟨t', hrun, hfree.gives⟩

/-- A request for 600 bytes. -/
theorem malloc_enough_small : MallocEnough .eightyPages 600 :=
  (malloc_enough_iff eightyPages_steady.2 (by decide) (by decide)).mpr (.inl (by decide))

/-- A request for nearly 4 GB gets one page. -/
theorem malloc_not_enough : ¬ MallocEnough .eightyPages 0xffffffff := by
  refine malloc_wraps eightyPages_steady.1 (by decide) fun h => ?_
  rcases h with h | ⟨-, h⟩
  · revert h
    decide
  · exact h ⟨0, rfl, by decide, by decide⟩

/-! ## `calloc` -/

/-- `calloc` returns a null pointer, or a block for the product that is all zeros. -/
def CallocClears (s : Heap) (a b : Nat) : Prop :=
  ∃ r s', calloc a b s = .ok (r, s') ∧ (2 ^ 32 ≤ a * b → r = none) ∧
    ∀ p, r = some p → s'.Lent p (a * b) ∧ ∀ x < a * b, s'.mem (p + x) = 0

/-- The test lets the wrapped product through, and there is memory for it. -/
theorem calloc_wraps (hi : HeapInv h live) {a b : Nat} (ha : a ≤ a * b % 2 ^ 32)
    (hb : b ≤ a * b % 2 ^ 32) (hroom : ¬ h.Refuses (a * b % 2 ^ 32)) (hbig : 2 ^ 32 - 11 ≤ a * b) :
    ¬ CallocClears h a b := by
  rintro ⟨r, s', hrun, -, hp⟩
  have h0 : 0 < a * b % 2 ^ 32 := by
    by_contra hz
    have hab : a = 0 ∧ b = 0 := by omega
    rw [hab.1, Nat.zero_mul] at hbig
    omega
  rcases malloc_effect hi h0 with ⟨hno, -⟩ | ⟨-, p, k, s1, he, heff, -⟩
  · exact hroom hno
  · rw [calloc, if_neg (by omega), bind_run, he, ok_bind] at hrun
    simp only [bind_run, copy, get_run, ok_bind] at hrun
    split at hrun
    · cases hrun
      have := heff.inv.lent_lt (hp p rfl).1 rfl
      omega
    · cases hrun

/-- **`calloc`** keeps its promise exactly if its test refuses the wrapped product, or there is no
memory for it, or the product itself is below the sizes for which `malloc` wraps. -/
theorem calloc_clears_iff (hs : h.Steady) (a b : Nat) :
    CallocClears h a b ↔ a * b % 2 ^ 32 < a ∨ a * b % 2 ^ 32 < b ∨ h.Refuses (a * b % 2 ^ 32) ∨
      a * b < 2 ^ 32 - 11 := by
  obtain ⟨live, hi, -⟩ := hs
  constructor
  · intro hc
    by_contra hno
    push Not at hno
    obtain ⟨h1, h2, h3, h4⟩ := hno
    exact calloc_wraps hi h1 h2 h3 h4 hc
  · intro hcase
    by_cases htest : a * b % 2 ^ 32 < a ∨ a * b % 2 ^ 32 < b
    · refine ⟨none, h, ?_, fun _ => rfl, fun p hp => (by cases hp)⟩
      rw [calloc, if_pos htest]
      rfl
    rcases Nat.eq_zero_or_pos (a * b % 2 ^ 32) with hz | hpos
    · refine ⟨none, h, ?_, fun _ => rfl, fun p hp => (by cases hp)⟩
      rw [calloc, if_neg htest, hz, bind_run, malloc, if_pos rfl]
      rfl
    by_cases hroom : h.Refuses (a * b % 2 ^ 32)
    · rcases malloc_effect hi hpos with ⟨-, l, he⟩ | ⟨hyes, -⟩
      · refine ⟨none, { h with answers := l }, ?_, fun _ => rfl, fun p hp => (by cases hp)⟩
        rw [calloc, if_neg htest, bind_run, he]
        rfl
      · exact absurd hroom hyes
    · have hlt : a * b < 2 ^ 32 - 11 := by tauto
      have hmod : a * b % 2 ^ 32 = a * b := Nat.mod_eq_of_lt (by omega)
      rcases calloc_effect hi (.inl (hmod.trans_lt hlt)) with ⟨l, he⟩ | ⟨p, k, s1, he, heff, hle⟩
      · exact ⟨none, _, he, fun _ => rfl, fun p hp => (by cases hp)⟩
      · rw [hmod] at he hle
        have hlent := (heff.inv.lent (p, k.size) List.mem_cons_self).mono hle
        refine ⟨some p, _, he, fun hbig => by omega, fun p' hp => ?_⟩
        cases hp
        exact ⟨lent_congr (fun g hg => (heff.inv.store hlent zeros 0 le_rfl g hg).2.1) rfl hlent,
          fun x hx => memcpy_in (by omega) (by omega)⟩

/-- Ten words of zeros. -/
theorem calloc_clears_words : CallocClears .eightyPages 10 4 :=
  (calloc_clears_iff eightyPages_steady.2 10 4).mpr (.inr (.inr (.inr (by decide))))

/-- The product wraps to 0x20001, which is not below the factors: 33 pages for 4 GB. -/
theorem calloc_product_wraps : ¬ CallocClears .eightyPages 0x10001 0x10001 := by
  refine calloc_wraps eightyPages_steady.1 (by decide) (by decide) ?_ (by decide)
  have hnone : (descs.findIdx? fun desc => 0x10001 * 0x10001 % 2 ^ 32 ≤ desc.blockSize) = none := by
    decide
  unfold Heap.Refuses
  rw [hnone]
  exact fun h => h ⟨by decide, 0, rfl, by decide, by decide⟩

end

end Pintos.Threads.Malloc
