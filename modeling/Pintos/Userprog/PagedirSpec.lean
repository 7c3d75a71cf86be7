import Pintos.Userprog.Pagedir
import Mathlib.Data.List.Perm.Basic

/-!
# What the page directory functions do

`Ledger` counts the pages: what was obtained is what was freed and what is held. `Space`
says that the words in memory are the page directory and the page tables of a tree of held
pages: the directory at the root, the tables under it, the frames of user pages under
those, and a page that is not installed yet.
-/

namespace Pintos.Userprog.Loader

open Pintos.Base Pintos.Kernel Pintos.Threads

/-! ## Entries -/

theorem and_addr_mask {x : Nat} (h : x < 2 ^ 32) : x &&& 0xfffff000 = x / 2 ^ 12 * 2 ^ 12 := by
  have hmask : (0xfffff000 : Nat) = (2 ^ 20 - 1) <<< 12 := by decide
  rw [hmask, ← Nat.shiftRight_eq_div_pow, ← Nat.shiftLeft_eq]
  apply Nat.eq_of_testBit_eq
  intro i
  simp only [Nat.testBit_and, Nat.testBit_shiftLeft, Nat.testBit_shiftRight,
    Nat.testBit_two_pow_sub_one]
  by_cases hi : 12 ≤ i
  · rw [show 12 + (i - 12) = i by omega]
    by_cases hi' : i < 32
    · simp [hi, show i - 12 < 20 by omega]
    · have : x.testBit i = false :=
        Nat.testBit_lt_two_pow (Nat.lt_of_lt_of_le h (Nat.pow_le_pow_right (by decide) (by omega)))
      simp [this]
  · simp [hi]

theorem or_flags (k : Nat) {n : Nat} (h : n < 2 ^ 12) : 2 ^ 12 * k ||| n = 2 ^ 12 * k + n :=
  (Nat.two_pow_add_eq_or_of_lt h k).symm

theorem and_one (x : Nat) : x &&& 1 = x % 2 := Nat.and_one_is_mod x

theorem present_iff (x : Nat) : present x = true ↔ x % 2 = 1 := by
  simp only [present, and_one, bne_iff_ne, ne_eq]
  omega

/-- A page of kernel memory. -/
structure KernelPage (page : Nat) : Prop where
  aligned : page % pgSize = 0
  base : physBase ≤ page
  lt : page < 2 ^ 32

/-- A page address that an entry can hold. -/
structure Addressable (page : Nat) : Prop where
  aligned : page % pgSize = 0
  base : physBase ≤ page
  lt : page < physBase + 2 ^ 26

section

variable {page : Nat}

theorem Addressable.kernelPage (h : Addressable page) : KernelPage page where
  aligned := h.aligned
  base := h.base
  lt := by
    have := h.lt
    simp only [physBase] at this
    omega

theorem KernelPage.vtop_eq (h : KernelPage page) :
    ∃ k, vtop page = 2 ^ 12 * k ∧ page = physBase + 2 ^ 12 * k ∧ k < 2 ^ 18 := by
  obtain ⟨h1, h2, h3⟩ := h
  refine ⟨(page - physBase) / 2 ^ 12, ?_, ?_, ?_⟩ <;>
    simp only [vtop, pgSize, physBase] at * <;> omega

/-- Flags below the address bits. -/
theorem KernelPage.entry (h : KernelPage page) {n : Nat} (hn : n < 2 ^ 12) (hodd : n % 2 = 1) :
    present (vtop page ||| n) = true ∧ ptov ((vtop page ||| n) &&& 0xfffff000) = page ∧
      vtop page ||| n < 2 ^ 32 := by
  obtain ⟨k, hk, hpage, hlt⟩ := h.vtop_eq
  rw [hk, or_flags k hn]
  refine ⟨?_, ?_, by omega⟩
  · rw [present_iff]
    omega
  · rw [and_addr_mask (by omega), ptov, hpage]
    omega

theorem KernelPage.pde (h : KernelPage page) :
    present (pdeCreate page) = true ∧ pdeGetPt (pdeCreate page) = page ∧
      pdeCreate page < 2 ^ 32 := by
  have hflags : pdeCreate page = vtop page ||| 7 := by
    unfold pdeCreate
    rw [Nat.or_assoc, Nat.or_assoc]
    rfl
  rw [hflags]
  exact h.entry (by decide) (by decide)

/-- Flags are read past the address bits. -/
theorem or_flags_and (k : Nat) {n m : Nat} (hm : m < 2 ^ 12) : (2 ^ 12 * k ||| n) &&& m = n &&& m := by
  have hand : (2 ^ 12 * k) &&& m = 0 := by
    apply Nat.eq_of_testBit_eq
    intro i
    rw [Nat.testBit_and, Nat.testBit_two_pow_mul]
    by_cases hi : 12 ≤ i
    · have : m.testBit i = false :=
        Nat.testBit_lt_two_pow (Nat.lt_of_lt_of_le hm (Nat.pow_le_pow_right (by decide) hi))
      simp [this]
    · simp [hi]
  rw [Nat.and_or_distrib_right, hand, Nat.zero_or]

theorem Addressable.pde (h : Addressable page) :
    present (pdeCreate page) = true ∧ pdeGetPt (pdeCreate page) = page ∧
      pdeCreate page < 2 ^ 32 := h.kernelPage.pde

theorem Addressable.pte (h : Addressable page) (w : Bool) :
    present (pteCreateUser page w) = true ∧ pteGetPage (pteCreateUser page w) = page ∧
      (pteCreateUser page w &&& 2 != 0) = w ∧ pteCreateUser page w < 2 ^ 32 := by
  have hflags : pteCreateUser page w = vtop page ||| (if w then 7 else 5) := by
    unfold pteCreateUser
    rw [Nat.or_assoc, Nat.or_assoc]
    cases w <;> rfl
  rw [hflags]
  obtain ⟨h1, h2, h3⟩ := h.kernelPage.entry (n := if w then 7 else 5) (by cases w <;> decide)
    (by cases w <;> decide)
  refine ⟨h1, h2, ?_, h3⟩
  obtain ⟨k, hk, -, -⟩ := h.kernelPage.vtop_eq
  rw [hk, or_flags_and k (by decide)]
  cases w <;> rfl

end

theorem load32_wordAt (b : Buffer) (i j : Nat) {w : Nat} (h : w < 2 ^ 32) :
    load32 (store32 b (4 * i) w) (4 * j) = if j = i then w else load32 b (4 * j) := by
  split
  · next hji =>
    subst hji
    exact load32_store32 b _ h
  · exact load32_store32_of_disjoint (by omega)

@[simp] theorem entry_setPage_self (s : Vm) (page i : Nat) (b : Buffer) :
    (s.setPage page b).entry page i = load32 b (4 * i) := by
  simp [Vm.entry, Vm.setPage]

theorem entry_setPage_of_ne (s : Vm) {page q : Nat} (h : q ≠ page) (i : Nat) (b : Buffer) :
    (s.setPage page b).entry q i = s.entry q i := by
  simp [Vm.entry, Vm.setPage, h]

theorem entry_setEntry (s : Vm) (page i q j : Nat) {w : Nat} (h : w < 2 ^ 32) :
    (s.setEntry page i w).entry q j = if q = page ∧ j = i then w else s.entry q j := by
  unfold Vm.setEntry
  by_cases hq : q = page
  · subst hq
    rw [entry_setPage_self, load32_wordAt _ _ _ h]
    simp [Vm.entry]
  · rw [entry_setPage_of_ne s hq, if_neg (fun hc => hq hc.1)]

theorem assert_run {b : Bool} (h : b = true) (s : Vm) : assert b s = .ok ((), s) := by
  subst h
  rfl

/-! ## The pages -/

/-- The pools lie apart, in the memory that the kernel maps. -/
structure VmOk (s : Vm) : Prop where
  layout : Layout s.pool
  base : ∀ p, physBase ≤ (s.pool p).base
  ram : ∀ p, s.page p (s.size p) ≤ physBase + pgSize * s.ramPages
  /-- The loader stops counting memory at 64 MB. -/
  cap : s.ramPages ≤ 2 ^ 14

section

variable {s s' s0 : Vm} {p q : PoolId} {i j : Nat} {held : List Nat} {x : Nat}

theorem VmOk.aligned (h : VmOk s) (p : PoolId) (i : Nat) : s.page p i % pgSize = 0 := by
  have := h.layout.aligned p
  simp only [Vm.page, pgSize] at *
  omega

theorem VmOk.page_lt (h : VmOk s) (hi : i < s.size p) :
    physBase ≤ s.page p i ∧ s.page p i + pgSize ≤ physBase + pgSize * s.ramPages := by
  have h1 := h.base p
  have h2 := h.ram p
  simp only [Vm.page, pgSize] at *
  omega

theorem VmOk.addressable (h : VmOk s) (hi : i < s.size p) : Addressable (s.page p i) := by
  obtain ⟨h1, h2⟩ := h.page_lt hi
  refine ⟨h.aligned p i, h1, ?_⟩
  have h3 := h.cap
  simp only [pgSize] at *
  omega

/-- Pages are told apart by their pool and index. -/
theorem VmOk.page_inj (h : VmOk s) (hi : i < s.size p) (hj : j < s.size q)
    (he : s.page p i = s.page q j) : p = q ∧ i = j := by
  have hm := h.layout.map .user
  have ha := h.layout.apart
  simp only [Vm.page, Vm.size, pgSize, bitmapBufSize] at *
  cases p <;> cases q <;> simp only [reduceCtorEq, true_and, false_and] <;> omega

theorem VmOk.poolOf_page (h : VmOk s) (hi : i < s.size p) : s.poolOf (s.page p i) = some p := by
  have hiff : ∀ q, q = .kernel ∨ p = .user →
      (pageFromPool (s.pool q) (s.page p i) = true ↔ q = p) :=
    fun q hq => @pageFromPool_iff (pallocStart s.pool) h.layout q p i hi hq
  unfold Vm.poolOf
  cases p with
  | kernel => rw [if_pos ((hiff .kernel (.inl rfl)).mpr rfl)]
  | user =>
    rw [if_neg (by simp [hiff .kernel (.inl rfl)]), if_pos ((hiff .user (.inr rfl)).mpr rfl)]

theorem VmOk.index (h : VmOk s) (p : PoolId) (i : Nat) :
    pgNo (s.page p i) - pgNo (s.pool p).base = i := @pgNo_group (pallocStart s.pool) h.layout p i

/-- Same pools but for the bits. -/
structure SamePools (s s' : Vm) : Prop where
  base : ∀ p, (s'.pool p).base = (s.pool p).base
  mapAddr : ∀ p, (s'.pool p).mapAddr = (s.pool p).mapAddr
  size : ∀ p, s'.size p = s.size p
  ram : s'.ramPages = s.ramPages

theorem SamePools.refl (s : Vm) : SamePools s s := ⟨fun _ => rfl, fun _ => rfl, fun _ => rfl, rfl⟩

theorem SamePools.trans {s'' : Vm} (h : SamePools s s') (h' : SamePools s' s'') : SamePools s s'' :=
  ⟨fun p => (h'.base p).trans (h.base p), fun p => (h'.mapAddr p).trans (h.mapAddr p),
    fun p => (h'.size p).trans (h.size p), h'.ram.trans h.ram⟩

theorem SamePools.page (h : SamePools s s') (p : PoolId) (i : Nat) : s'.page p i = s.page p i := by
  rw [Vm.page, h.base, Vm.page]

theorem SamePools.ok (h : SamePools s s') (hs : VmOk s) : VmOk s' where
  layout := by
    have hsize : ∀ p, bitmapSize (s'.pool p).usedMap = bitmapSize (s.pool p).usedMap := h.size
    refine ⟨fun p => ?_, ?_, fun p => ?_⟩
    · rw [h.mapAddr, h.base, hsize]
      exact hs.layout.map p
    · rw [h.mapAddr, h.base, hsize]
      exact hs.layout.apart
    · rw [h.base]
      exact hs.layout.aligned p
  base p := by
    rw [h.base]
    exact hs.base p
  ram p := by
    rw [h.page, h.size, h.ram]
    exact hs.ram p
  cap := by
    rw [h.ram]
    exact hs.cap

theorem setUsed_same (s : Vm) (p : PoolId) (i : Nat) (v : Bool) : SamePools s (s.setUsed p i v) := by
  refine ⟨fun q => ?_, fun q => ?_, fun q => ?_, rfl⟩ <;>
    by_cases hq : q = p
  all_goals
    first
    | (subst hq; simp [Vm.setUsed, Vm.size])
    | simp [Vm.setUsed, Vm.size, hq]

theorem setUsed_used (s : Vm) {p : PoolId} {i : Nat} (hi : i < s.size p) (v : Bool) (q : PoolId)
    (j : Nat) : (s.setUsed p i v).used q j = if q = p ∧ j = i then v else s.used q j := by
  unfold Vm.used Vm.setUsed
  by_cases hq : q = p
  · subst hq
    simp only [Function.update_self, true_and]
    exact bitmapTest_set hi v j
  · simp [hq]

/-! ## What is held -/

/-- From the state `s0` on, what was obtained is what was freed and what is held. -/
structure Ledger (s0 s : Vm) (held : List Nat) : Prop where
  ok : VmOk s0
  same : SamePools s0 s
  baseDir : s.basePageDir = s0.basePageDir
  perm : s.obtained.Perm (s.freed ++ held)
  nodup : held.Nodup
  /-- Only pages that were free at the beginning are obtained. -/
  fresh : ∀ x ∈ s.obtained, ∃ p i, i < s0.size p ∧ x = s0.page p i ∧ s0.used p i = false
  used : ∀ p i, i < s0.size p → (s.used p i = true ↔ s0.used p i = true ∨ s0.page p i ∈ held)

theorem Ledger.start (ok : VmOk s) (ho : s.obtained = []) (hf : s.freed = []) : Ledger s s [] where
  ok := ok
  same := .refl s
  baseDir := rfl
  perm := by rw [ho, hf]; exact .refl _
  nodup := List.nodup_nil
  fresh x hx := by
    rw [ho] at hx
    cases hx
  used p i _ := by simp

theorem Ledger.vmOk (h : Ledger s0 s held) : VmOk s := h.same.ok h.ok

theorem Ledger.held_fresh (h : Ledger s0 s held) (hx : x ∈ held) :
    ∃ p i, i < s0.size p ∧ x = s0.page p i ∧ s0.used p i = false :=
  h.fresh x (h.perm.mem_iff.mpr (List.mem_append_right _ hx))

/-- The ledger does not depend on the contents of memory. -/
theorem Ledger.congr (h : Ledger s0 s held) (hp : s'.pool = s.pool) (hr : s'.ramPages = s.ramPages)
    (hb : s'.basePageDir = s.basePageDir) (ho : s'.obtained = s.obtained)
    (hf : s'.freed = s.freed) : Ledger s0 s' held where
  ok := h.ok
  same := by
    refine h.same.trans ⟨fun p => ?_, fun p => ?_, fun p => ?_, hr⟩ <;>
      simp only [Vm.size, hp]
  baseDir := hb.trans h.baseDir
  perm := by
    rw [ho, hf]
    exact h.perm
  nodup := h.nodup
  fresh := by
    rw [ho]
    exact h.fresh
  used := by
    unfold Vm.used
    rw [hp]
    exact h.used

/-- What `palloc_get_page` can do. -/
theorem pallocGetPage_cases (p : PoolId) (zero : Bool) (s : Vm) :
    pallocGetPage p zero s = .ok (none, { s with answers := s.answers.tail }) ∨
    ∃ i, i < s.size p ∧ s.used p i = false ∧
      pallocGetPage p zero s = .ok (some (s.page p i),
        { s with
          answers := s.answers.tail
          pool := (s.setUsed p i true).pool
          mem := if zero then Function.update s.mem (s.page p i) zeros else s.mem
          obtained := s.obtained ++ [s.page p i] }) := by
  unfold pallocGetPage
  rw [bind_run, get_run, ok_bind]
  simp only
  cases s.answers.headD none with
  | none => exact .inl rfl
  | some i =>
    simp only
    split
    · next h =>
      refine .inr ⟨i, h.1, h.2, ?_⟩
      cases zero <;> rfl
    · exact .inl rfl

theorem Ledger.get (h : Ledger s0 s held) (hi : i < s.size p) (hu : s.used p i = false)
    (hpool : s'.pool = (s.setUsed p i true).pool) (hram : s'.ramPages = s.ramPages)
    (hbase : s'.basePageDir = s.basePageDir) (ho : s'.obtained = s.obtained ++ [s.page p i])
    (hf : s'.freed = s.freed) :
    s.page p i ∉ held ∧ s0.used p i = false ∧ Ledger s0 s' (s.page p i :: held) := by
  have hpage := h.same.page p i
  have hi0 : i < s0.size p := by rw [← h.same.size]; exact hi
  have hno := (h.used p i hi0).not.mp (by simp [hu])
  push Not at hno
  obtain ⟨hu0, hnot⟩ := hno
  rw [hpage]
  have hused : ∀ q j, s'.used q j = if q = p ∧ j = i then true else s.used q j := by
    intro q j
    rw [← setUsed_used s hi true q j]
    unfold Vm.used
    rw [hpool]
  refine ⟨hnot, by simpa using hu0, h.ok, ?_, hbase.trans h.baseDir, ?_,
    List.nodup_cons.mpr ⟨hnot, h.nodup⟩, ?_, ?_⟩
  · have hs := setUsed_same s p i true
    refine h.same.trans ⟨fun q => ?_, fun q => ?_, fun q => ?_, hram⟩
    · rw [hpool]
      exact hs.base q
    · rw [hpool]
      exact hs.mapAddr q
    · rw [Vm.size, hpool]
      exact hs.size q
  · rw [ho, hf, hpage]
    apply (h.perm.append_right _).trans
    rw [List.append_assoc]
    exact (List.perm_append_singleton _ _).append_left _
  · intro x hx
    rw [ho] at hx
    rcases List.mem_append.mp hx with hx | hx
    · exact h.fresh x hx
    · rw [List.mem_singleton] at hx
      exact ⟨p, i, hi0, hx.trans hpage, by simpa using hu0⟩
  · intro q j hj
    rw [hused]
    by_cases hc : q = p ∧ j = i
    · obtain ⟨rfl, rfl⟩ := hc
      simp
    · rw [if_neg hc, h.used q j hj, List.mem_cons]
      have hne : s0.page q j ≠ s0.page p i := fun he => hc (h.ok.page_inj hj hi0 he)
      simp [hne]

/-- The state after a page has been freed. -/
def Vm.free (s : Vm) (p : PoolId) (i : Nat) : Vm :=
  { (s.setUsed p i false).setPage (s.page p i) (fun _ => 0xcc) with
    freed := s.freed ++ [s.page p i] }

/-- A held page is freed without a failed ASSERT. -/
theorem Ledger.free (h : Ledger s0 s held) (hx : x ∈ held) :
    ∃ p i, i < s.size p ∧ x = s.page p i ∧ pallocFreePage x s = .ok ((), s.free p i) ∧
      Ledger s0 (s.free p i) (held.erase x) := by
  obtain ⟨p, i, hi0, hx0, hu0⟩ := h.held_fresh hx
  have hpage := h.same.page p i
  have hi : i < s.size p := by rw [h.same.size]; exact hi0
  have hxp : x = s.page p i := by rw [hpage, hx0]
  have hused : s.used p i = true := (h.used p i hi0).mpr (.inr (hx0 ▸ hx))
  refine ⟨p, i, hi, hxp, ?_, h.ok, ?_, h.baseDir, ?_, h.nodup.erase x, h.fresh, ?_⟩
  · have hal : pgOfs x = 0 := by rw [hxp]; exact h.vmOk.aligned p i
    have hne : ¬ x = 0 := by
      have := (h.vmOk.page_lt hi).1
      simp only [physBase] at this
      omega
    have hpool : s.poolOf x = some p := by rw [hxp]; exact h.vmOk.poolOf_page hi
    have hidx : pgNo x - pgNo (s.pool p).base = i := by rw [hxp]; exact h.vmOk.index p i
    simp only [pallocFreePage, bind_run, assert, hal, beq_self_eq_true, if_true, pure_run, ok_bind,
      if_neg hne, get_run, hpool, hidx, hused, set_run]
    rw [Vm.free, hxp]
  · have hs := setUsed_same s p i false
    exact h.same.trans ⟨hs.base, hs.mapAddr, hs.size, rfl⟩
  · show s.obtained.Perm (s.freed ++ [s.page p i] ++ held.erase x)
    rw [← hxp, List.append_assoc]
    exact h.perm.trans ((List.perm_cons_erase hx).append_left _)
  · intro q j hj
    have hfree : (s.free p i).used q j = (s.setUsed p i false).used q j := rfl
    rw [hfree, setUsed_used s hi]
    by_cases hc : q = p ∧ j = i
    · obtain ⟨rfl, rfl⟩ := hc
      simp [hu0, ← hx0, h.nodup.not_mem_erase]
    · rw [if_neg hc, h.used q j hj]
      have hne : s0.page q j ≠ x := fun he => hc (h.ok.page_inj hj hi0 (he.trans hx0))
      rw [h.nodup.mem_erase_iff]
      simp [hne]

end

/-! ## Address spaces -/

/-- The pages of an address space. -/
inductive Node where
  | root
  | table (i : Nat)
  | frame (v : Nat)
  /-- A page that is not installed yet. -/
  | loose
  deriving DecidableEq

def Node.pool : Node → PoolId
  | .root | .table _ => .kernel
  | .frame _ | .loose => .user

structure Tree where
  addr : Node → Option Nat
  /-- Whether a user page is writable. -/
  writable : Nat → Bool

def Tree.set (T : Tree) (n : Node) (x : Option Nat) : Tree :=
  { T with addr := Function.update T.addr n x }

/-- The loose page becomes the frame of user page `v`. -/
def Tree.install (T : Tree) (v : Nat) (w : Bool) : Tree where
  addr := Function.update (Function.update T.addr (.frame v) (T.addr .loose)) .loose none
  writable := Function.update T.writable v w

@[simp] theorem Tree.set_self (T : Tree) (n : Node) (x : Option Nat) : (T.set n x).addr n = x :=
  Function.update_self ..

theorem Tree.set_of_ne (T : Tree) {n m : Node} (h : m ≠ n) (x : Option Nat) :
    (T.set n x).addr m = T.addr m := Function.update_of_ne h ..

theorem Tree.install_addr (T : Tree) (v : Nat) (w : Bool) (n : Node) :
    (T.install v w).addr n =
      if n = .loose then none else if n = .frame v then T.addr .loose else T.addr n := by
  unfold Tree.install
  by_cases hl : n = .loose
  · subst hl
    simp
  · by_cases hf : n = .frame v
    · subst hf
      simp
    · simp [hl, hf]

/-- A directory entry. -/
def PdeIs (w : Nat) : Option Nat → Prop
  | none => w = 0
  | some pt => present w = true ∧ pdeGetPt w = pt

/-- An entry of a page table. -/
def PteIs (w : Nat) (writable : Bool) : Option Nat → Prop
  | none => present w = false
  | some k => present w = true ∧ pteGetPage w = k ∧ (w &&& 2 != 0) = writable

/-- The directory `pd` and the page tables in memory are those of the tree, whose pages are
the pages held. -/
structure Space (s0 s : Vm) (pd : Nat) (T : Tree) (held : List Nat) : Prop
    extends Ledger s0 s held where
  root : T.addr .root = some pd
  mem : ∀ x, x ∈ held ↔ ∃ n, T.addr n = some x
  pool : ∀ n x, T.addr n = some x → ∃ i, i < s0.size n.pool ∧ x = s0.page n.pool i
  inj : ∀ n m x, T.addr n = some x → T.addr m = some x → n = m
  table : ∀ i x, T.addr (.table i) = some x → i < 768
  frame : ∀ v x, T.addr (.frame v) = some x → ∃ pt, T.addr (.table (v / 1024)) = some pt
  pde : ∀ i, i < 768 → PdeIs (s.entry pd i) (T.addr (.table i))
  pte : ∀ i pt j, T.addr (.table i) = some pt → j < 1024 →
    PteIs (s.entry pt j) (T.writable (1024 * i + j)) (T.addr (.frame (1024 * i + j)))
  baseUsed : ∀ p i, i < s0.size p → s0.page p i = s0.basePageDir → s0.used p i = true

/-- What the page table functions leave alone: all but the tables and the allocator. -/
structure Keeps (T : Tree) (s s' : Vm) : Prop where
  pagedir : s'.pagedir = s.pagedir
  pos : s'.pos = s.pos
  reads : s'.reads = s.reads
  mem : ∀ n x, T.addr n = some x → n.pool = .user → s'.mem x = s.mem x

section

variable {s s' s0 : Vm} {pd : Nat} {T : Tree} {held : List Nat} {n m : Node} {x v i : Nat}
  {w : Bool}

theorem Space.ne (h : Space s0 s pd T held) {y : Nat} (hn : T.addr n = some x)
    (hm : T.addr m = some y) (hnm : n ≠ m) : x ≠ y := by
  rintro rfl
  exact hnm (h.inj n m x hn hm)

theorem Space.addressable (h : Space s0 s pd T held) (hn : T.addr n = some x) : Addressable x := by
  obtain ⟨i, hi, rfl⟩ := h.pool n x hn
  exact h.ok.addressable hi

/-- The directory of the kernel is no page of the space. -/
theorem Space.ne_base (h : Space s0 s pd T held) (hn : T.addr n = some x) :
    x ≠ s.basePageDir := by
  rintro rfl
  obtain ⟨p, i, hi, hx, hu⟩ := h.held_fresh ((h.mem _).mpr ⟨n, hn⟩)
  rw [h.baseUsed p i hi (by rw [← hx, h.baseDir])] at hu
  cases hu

/-- The space depends on the tables and the allocator only. -/
theorem Space.congr (h : Space s0 s pd T held) (hp : s'.pool = s.pool)
    (hr : s'.ramPages = s.ramPages) (hb : s'.basePageDir = s.basePageDir)
    (ho : s'.obtained = s.obtained) (hf : s'.freed = s.freed)
    (hmem : ∀ n x, T.addr n = some x → n.pool = .kernel → s'.mem x = s.mem x) :
    Space s0 s' pd T held where
  toLedger := h.toLedger.congr hp hr hb ho hf
  root := h.root
  mem := h.mem
  pool := h.pool
  inj := h.inj
  table := h.table
  frame := h.frame
  pde i hi := by
    unfold Vm.entry
    rw [hmem .root pd h.root rfl]
    exact h.pde i hi
  pte i pt j hpt hj := by
    unfold Vm.entry
    rw [hmem (.table i) pt hpt rfl]
    exact h.pte i pt j hpt hj
  baseUsed := h.baseUsed

/-- A store to a page of user memory. -/
theorem Space.store (h : Space s0 s pd T held) (hn : T.addr n = some x) (hu : n.pool = .user)
    (b : Buffer) : Space s0 (s.setPage x b) pd T held := by
  refine h.congr rfl rfl rfl rfl rfl fun m y hm hk => ?_
  have hne : m ≠ n := by
    rintro rfl
    rw [hu] at hk
    cases hk
  exact Function.update_of_ne (h.ne hm hn hne) ..

theorem pdNo_lt {va : Nat} (h : isUserVaddr va = true) : pdNo va < 768 := by
  have hlt : va < physBase := of_decide_eq_true h
  simp only [physBase] at hlt
  unfold pdNo
  omega

theorem ptNo_lt (va : Nat) : ptNo va < 1024 := by
  unfold ptNo
  omega

theorem pgNo_eq (va : Nat) : 1024 * pdNo va + ptNo va = pgNo va := by
  simp only [pdNo, ptNo, pgNo, pgSize]
  omega

theorem PdeIs.zero_iff {e : Nat} {o : Option Nat} (h : PdeIs e o) : e = 0 ↔ o = none := by
  cases o with
  | none => exact ⟨fun _ => rfl, fun _ => h⟩
  | some pt =>
    refine ⟨fun he => ?_, fun ho => by cases ho⟩
    rw [he] at h
    cases h.1

/-- `lookup_page` without creating. -/
theorem Space.lookup (h : Space s0 s pd T held) {va : Nat} (hu : isUserVaddr va = true) :
    lookupPage pd va false s = .ok ((T.addr (.table (pdNo va))).map (·, ptNo va), s) := by
  have hpde := h.pde (pdNo va) (pdNo_lt hu)
  cases ho : T.addr (.table (pdNo va)) with
  | none =>
    rw [ho] at hpde
    have hz : s.entry pd (pdNo va) = 0 := hpde
    simp [lookupPage, assert, hz]
  | some pt =>
    rw [ho] at hpde
    have hz : ¬ s.entry pd (pdNo va) = 0 := fun he => by
      have := hpde.zero_iff.mp he
      cases this
    simp [lookupPage, assert, hz, hpde.1, hpde.2]

/-- `pagedir_get_page` finds the frame of a page. -/
theorem Space.get_page (h : Space s0 s pd T held) {va : Nat} (hu : isUserVaddr va = true) :
    pagedirGetPage pd va s = .ok ((T.addr (.frame (pgNo va))).map (· + pgOfs va), s) := by
  have hl := h.lookup hu
  cases ho : T.addr (.table (pdNo va)) with
  | none =>
    rw [ho] at hl
    have hnone : T.addr (.frame (pgNo va)) = none := by
      cases hf : T.addr (.frame (pgNo va)) with
      | none => rfl
      | some x =>
        obtain ⟨pt, hpt⟩ := h.frame _ x hf
        rw [show pgNo va / 1024 = pdNo va by simp only [pgNo, pdNo, pgSize]; omega, ho] at hpt
        cases hpt
    simp [pagedirGetPage, assert, hu, hl, hnone]
  | some pt =>
    rw [ho] at hl
    have hpte := h.pte (pdNo va) pt (ptNo va) ho (ptNo_lt va)
    rw [pgNo_eq] at hpte
    cases hf : T.addr (.frame (pgNo va)) with
    | none =>
      rw [hf] at hpte
      simp only [PteIs] at hpte
      simp [pagedirGetPage, assert, hu, hl, hpte]
    | some k =>
      rw [hf] at hpte
      simp [pagedirGetPage, assert, hu, hl, hpte.1, hpte.2.1]

/-- A page obtained for a new node of the tree. -/
theorem Space.add (h : Space s0 s pd T held) (hn : T.addr n = none) {i : Nat}
    (hi : i < s.size n.pool) (hu : s.used n.pool i = false)
    (hpool : s'.pool = (s.setUsed n.pool i true).pool) (hram : s'.ramPages = s.ramPages)
    (hbase : s'.basePageDir = s.basePageDir)
    (ho : s'.obtained = s.obtained ++ [s.page n.pool i]) (hf : s'.freed = s.freed)
    (htable : ∀ j, n = .table j → j < 768) (hframe : ∀ v, n ≠ .frame v)
    (hpde : ∀ j, j < 768 → PdeIs (s'.entry pd j) ((T.set n (some (s.page n.pool i))).addr (.table j)))
    (hpte : ∀ k pt j, (T.set n (some (s.page n.pool i))).addr (.table k) = some pt → j < 1024 →
      PteIs (s'.entry pt j) (T.writable (1024 * k + j)) (T.addr (.frame (1024 * k + j)))) :
    s.page n.pool i ∉ held ∧
      Space s0 s' pd (T.set n (some (s.page n.pool i))) (s.page n.pool i :: held) := by
  obtain ⟨hnot, -, hl⟩ := h.toLedger.get hi hu hpool hram hbase ho hf
  have hne : ∀ m, m ≠ n → (T.set n (some (s.page n.pool i))).addr m = T.addr m :=
    fun m hm => T.set_of_ne hm _
  have hnew : ∀ m, T.addr m ≠ some (s.page n.pool i) := fun m hm => hnot ((h.mem _).mpr ⟨m, hm⟩)
  refine ⟨hnot, hl, ?_, fun x => ?_, fun m x hm => ?_, fun m m' x hm hm' => ?_, fun j x hj => ?_,
    fun v x hv => ?_, hpde, fun k pt j hk hj => ?_, h.baseUsed⟩
  · rw [hne]
    · exact h.root
    · rintro rfl
      rw [h.root] at hn
      cases hn
  · rw [List.mem_cons, h.mem]
    constructor
    · rintro (rfl | ⟨m, hm⟩)
      · exact ⟨n, T.set_self ..⟩
      · refine ⟨m, ?_⟩
        rwa [hne]
        rintro rfl
        rw [hn] at hm
        cases hm
    · rintro ⟨m, hm⟩
      by_cases hmn : m = n
      · subst hmn
        rw [T.set_self] at hm
        exact .inl (Option.some.inj hm).symm
      · exact .inr ⟨m, by rwa [hne m hmn] at hm⟩
  · by_cases hmn : m = n
    · subst hmn
      rw [T.set_self] at hm
      exact ⟨i, by rw [← h.same.size]; exact hi, by rw [← h.same.page]; exact (Option.some.inj hm).symm⟩
    · rw [hne m hmn] at hm
      exact h.pool m x hm
  · by_cases hmn : m = n <;> by_cases hmn' : m' = n
    · rw [hmn, hmn']
    · subst hmn
      rw [T.set_self] at hm
      rw [hne m' hmn', ← hm] at hm'
      exact absurd hm' (hnew m')
    · subst hmn'
      rw [T.set_self] at hm'
      rw [hne m hmn, ← hm'] at hm
      exact absurd hm (hnew m)
    · rw [hne m hmn] at hm
      rw [hne m' hmn'] at hm'
      exact h.inj m m' x hm hm'
  · by_cases hmn : .table j = n
    · exact htable j hmn.symm
    · rw [hne _ hmn] at hj
      exact h.table j x hj
  · rw [hne _ (Ne.symm (hframe v))] at hv
    obtain ⟨pt, hpt⟩ := h.frame v x hv
    by_cases hmn : .table (v / 1024) = n
    · rw [hmn, T.set_self]
      exact ⟨_, rfl⟩
    · exact ⟨pt, by rw [hne _ hmn]; exact hpt⟩
  · rw [hne _ (Ne.symm (hframe _))]
    exact hpte k pt j hk hj

/-- The tree and the state after `palloc_get_page` for user memory. -/
theorem Space.get_loose (h : Space s0 s pd T held) (hl : T.addr .loose = none) (zero : Bool) :
    pallocGetPage .user zero s = .ok (none, { s with answers := s.answers.tail }) ∨
    ∃ k s', pallocGetPage .user zero s = .ok (some k, s') ∧
      Space s0 s' pd (T.set .loose (some k)) (k :: held) ∧ Keeps T s s' ∧
      (zero = true → s'.mem k = zeros) := by
  rcases pallocGetPage_cases .user zero s with hn | ⟨i, hi, hu, he⟩
  · exact .inl hn
  refine .inr ⟨_, _, he, ?_⟩
  have hmem : ∀ m y, T.addr m = some y →
      (if zero then Function.update s.mem (s.page .user i) zeros else s.mem) y = s.mem y := by
    intro m y hm
    split
    · refine Function.update_of_ne ?_ ..
      rintro rfl
      have hused := (h.used .user i (by rw [← h.same.size]; exact hi)).mpr
        (.inr ((h.mem _).mpr ⟨m, by rw [← h.same.page]; exact hm⟩))
      rw [hu] at hused
      cases hused
    · rfl
  have hloose : ∀ (x : Nat) (j : Nat), (T.set .loose (some x)).addr (.table j) = T.addr (.table j) :=
    fun x j => T.set_of_ne (by simp) _
  refine ⟨And.right (h.add (n := .loose) hl hi hu (by rfl) (by rfl) (by rfl) (by rfl) (by rfl)
    (by simp) (by simp) (fun j hj => ?_) (fun k pt j hk hj => ?_)),
    ⟨rfl, rfl, rfl, fun m y hm _ => hmem m y hm⟩, ?_⟩
  · rw [hloose]
    unfold Vm.entry
    simp only
    rw [hmem .root pd h.root]
    exact h.pde j hj
  · rw [hloose] at hk
    unfold Vm.entry
    simp only
    rw [hmem (.table k) pt hk]
    exact h.pte k pt j hk hj
  · rintro rfl
    simp

theorem load32_zeros (i : Nat) : load32 zeros i = 0 := rfl

/-- There is no page for a page table. -/
def Refused (s : Vm) : Prop := ∃ s', pallocGetPage .kernel true s = .ok (none, s')

/-- The state after kernel page `k` has become the page table of entry `i`. -/
def Vm.addTable (s : Vm) (pd i k : Nat) : Vm :=
  { s with
    answers := s.answers.tail
    pool := (s.setUsed .kernel k true).pool
    mem := Function.update (Function.update s.mem (s.page .kernel k) zeros) pd
      (store32 (Function.update s.mem (s.page .kernel k) zeros pd) (4 * i)
        (pdeCreate (s.page .kernel k)))
    obtained := s.obtained ++ [s.page .kernel k] }

/-- `lookup_page` makes a page table where there is none. -/
theorem Space.add_table (h : Space s0 s pd T held) (hi : i < 768) (hn : T.addr (.table i) = none) :
    addTable pd i s = .ok (false, { s with answers := s.answers.tail }) ∧ Refused s ∨
    ∃ pt s', addTable pd i s = .ok (true, s') ∧ pt ∉ held ∧
      Space s0 s' pd (T.set (.table i) (some pt)) (pt :: held) ∧ Keeps T s s' := by
  rcases pallocGetPage_cases .kernel true s with he | ⟨k, hk, hu, he⟩
  · exact .inl ⟨by simp [addTable, he], _, he⟩
  right
  have haddr : Addressable (s.page .kernel k) := h.vmOk.addressable hk
  have hnew : ∀ m, T.addr m ≠ some (s.page .kernel k) := by
    intro m hm
    have hused := (h.used .kernel k (by rw [← h.same.size]; exact hk)).mpr
      (.inr ((h.mem _).mpr ⟨m, by rw [← h.same.page]; exact hm⟩))
    rw [hu] at hused
    cases hused
  have hpd : pd ≠ s.page .kernel k := fun he => hnew .root (by rw [h.root, he])
  obtain ⟨hp1, hp2, hp3⟩ := haddr.pde
  refine ⟨s.page .kernel k, s.addTable pd i k, ?_, ?_⟩
  · simp only [addTable, bind_run, he, ok_bind, assert, show pgOfs (s.page .kernel k) = 0 from
      haddr.aligned, beq_self_eq_true, if_true, pure_run, modify_run]
    rfl
  have hmem : ∀ m y, T.addr m = some y → m ≠ .root →
      (s.addTable pd i k).mem y = s.mem y := by
    intro m y hm hr
    unfold Vm.addTable
    simp only
    rw [Function.update_of_ne (h.ne hm h.root hr), Function.update_of_ne]
    rintro rfl
    exact hnew m hm
  have hadd := @Space.add s (s.addTable pd i k) s0 pd T held (.table i) h hn k hk hu rfl rfl rfl rfl rfl
    (fun j hj => by cases hj; exact hi) (by simp) (fun j hj => ?_) (fun j pt l hj hl => ?_)
  · exact ⟨hadd.1, hadd.2, rfl, rfl, rfl, fun m y hm hu => hmem m y hm (by rintro rfl; cases hu)⟩
  · -- the directory: entry `i` is new
    simp only [Vm.addTable, Vm.entry, Function.update_self, Function.update_of_ne hpd]
    rw [load32_wordAt _ _ _ hp3]
    by_cases hji : j = i
    · subst hji
      rw [if_pos rfl, T.set_self]
      exact ⟨hp1, hp2⟩
    · rw [if_neg hji, T.set_of_ne (by simpa using hji)]
      exact h.pde j hj
  · -- the tables: the new one is empty
    by_cases hji : j = i
    · subst hji
      rw [T.set_self] at hj
      cases hj
      have hnone : T.addr (.frame (1024 * j + l)) = none := by
        cases hf : T.addr (.frame (1024 * j + l)) with
        | none => rfl
        | some x =>
          obtain ⟨pt, hpt⟩ := h.frame _ x hf
          rw [show (1024 * j + l) / 1024 = j by omega, hn] at hpt
          cases hpt
      rw [hnone]
      simp only [PteIs, Vm.addTable, Vm.entry, Node.pool, Function.update_of_ne (Ne.symm hpd),
        Function.update_self, load32_zeros]
      rfl
    · rw [T.set_of_ne (by simpa using hji)] at hj
      unfold Vm.entry
      rw [hmem (.table j) pt hj (by simp)]
      exact h.pte j pt l hj hl

/-- The store of a page table entry. -/
theorem Space.set_entry (h : Space s0 s pd T held) {pt k : Nat}
    (hpt : T.addr (.table (v / 1024)) = some pt) (hf : T.addr (.frame v) = none)
    (hk : T.addr .loose = some k) (w : Bool) :
    Space s0 (s.setEntry pt (v % 1024) (pteCreateUser k w)) pd (T.install v w) held := by
  obtain ⟨h1, h2, h3, h4⟩ := (h.addressable hk).pte w
  have htable : ∀ i, (T.install v w).addr (.table i) = T.addr (.table i) := by
    intro i
    simp [T.install_addr]
  have hpd : pd ≠ pt := h.ne h.root hpt (by simp)
  -- a page of the new tree was one of the old tree
  have hold : ∀ n x, (T.install v w).addr n = some x →
      ∃ m, T.addr m = some x ∧ m.pool = n.pool ∧ (n = .frame v ∧ m = .loose ∨ n ≠ .frame v ∧ m = n ∧
        n ≠ .loose) := by
    intro n x hn
    rw [T.install_addr] at hn
    split at hn
    · cases hn
    next hl =>
    split at hn
    · next hv =>
      subst hv
      exact ⟨.loose, hn, rfl, .inl ⟨rfl, rfl⟩⟩
    · next hv => exact ⟨n, hn, rfl, .inr ⟨hv, rfl, hl⟩⟩
  refine ⟨h.toLedger.congr rfl rfl rfl rfl rfl, ?_, fun x => ?_, fun n x hn => ?_,
    fun n m x hn hm => ?_, fun i x hi => ?_, fun u x hu => ?_, fun i hi => ?_,
    fun i q j hq hj => ?_, h.baseUsed⟩
  · simp [T.install_addr, h.root]
  · rw [h.mem]
    constructor
    · rintro ⟨n, hn⟩
      by_cases hl : n = .loose
      · subst hl
        exact ⟨.frame v, by simp [T.install_addr, hn]⟩
      · refine ⟨n, ?_⟩
        rw [T.install_addr, if_neg hl, if_neg]
        · exact hn
        · rintro rfl
          rw [hf] at hn
          cases hn
    · rintro ⟨n, hn⟩
      obtain ⟨m, hm, -⟩ := hold n x hn
      exact ⟨m, hm⟩
  · obtain ⟨m, hm, hp, -⟩ := hold n x hn
    rw [← hp]
    exact h.pool m x hm
  · obtain ⟨n', hn', -, hn2⟩ := hold n x hn
    obtain ⟨m', hm', -, hm2⟩ := hold m x hm
    have he := h.inj n' m' x hn' hm'
    rcases hn2 with ⟨rfl, rfl⟩ | ⟨hn3, rfl, hn4⟩ <;> rcases hm2 with ⟨rfl, rfl⟩ | ⟨hm3, rfl, hm4⟩
    · rfl
    · exact absurd he.symm hm4
    · exact absurd he hn4
    · exact he
  · rw [htable] at hi
    exact h.table i x hi
  · rw [htable]
    obtain ⟨m, hm, -, ⟨hv, -⟩ | ⟨-, rfl, -⟩⟩ := hold _ x hu
    · cases hv
      exact ⟨pt, hpt⟩
    · exact h.frame u x hm
  · rw [htable, entry_setEntry s _ _ _ _ h4, if_neg fun hc => hpd hc.1]
    exact h.pde i hi
  · rw [htable] at hq
    rw [entry_setEntry s _ _ _ _ h4]
    by_cases hc : q = pt ∧ j = v % 1024
    · obtain ⟨rfl, rfl⟩ := hc
      have hi : i = v / 1024 := by
        have := h.inj _ _ _ hq hpt
        simpa using this
      subst hi
      have hv : 1024 * (v / 1024) + v % 1024 = v := by omega
      have haddr : (T.install v w).addr (.frame v) = some k := by simp [T.install_addr, hk]
      have hw : (T.install v w).writable v = w := Function.update_self ..
      rw [if_pos ⟨rfl, rfl⟩, hv, haddr, hw]
      exact ⟨h1, h2, h3⟩
    · rw [if_neg hc]
      have hv : 1024 * i + j ≠ v := by
        rintro rfl
        refine hc ⟨?_, by omega⟩
        rw [show (1024 * i + j) / 1024 = i by omega, hq] at hpt
        exact Option.some.inj hpt
      have haddr : (T.install v w).addr (.frame (1024 * i + j)) = T.addr (.frame (1024 * i + j)) := by
        simp [T.install_addr, hv]
      have hw : (T.install v w).writable (1024 * i + j) = T.writable (1024 * i + j) :=
        Function.update_of_ne hv ..
      rw [haddr, hw]
      exact h.pte i q j hq hj

/-- The loose page is now the frame of user page `v`. -/
structure Installed (T T' : Tree) (v k : Nat) (w : Bool) : Prop where
  loose : T'.addr .loose = none
  addr : ∀ u, T'.addr (.frame u) = if u = v then some k else T.addr (.frame u)
  writable : ∀ u, T'.writable u = if u = v then w else T.writable u

theorem Tree.installed (T : Tree) {k : Nat} (hk : T.addr .loose = some k) (v : Nat) (w : Bool) :
    Installed T (T.install v w) v k w := by
  refine ⟨by simp [T.install_addr], fun u => ?_, fun u => ?_⟩
  · simp only [T.install_addr, reduceCtorEq, if_false, Node.frame.injEq, hk]
  · simp only [Tree.install, Function.update_apply]

/-- `lookup_page` with creating. -/
theorem Space.lookup_create (h : Space s0 s pd T held) {va : Nat} (hu : isUserVaddr va = true) :
    (∃ s', lookupPage pd va true s = .ok (none, s') ∧ Space s0 s' pd T held ∧ Keeps T s s' ∧
      Refused s) ∨
    ∃ pt s' T' held', lookupPage pd va true s = .ok (some (pt, ptNo va), s') ∧
      Space s0 s' pd T' held' ∧ Keeps T s s' ∧ T'.addr (.table (pdNo va)) = some pt ∧
      T'.addr .loose = T.addr .loose ∧ T'.writable = T.writable ∧
      ∀ u, T'.addr (.frame u) = T.addr (.frame u) := by
  have hlt := pdNo_lt hu
  have hpde := h.pde (pdNo va) hlt
  cases ho : T.addr (.table (pdNo va)) with
  | some pt =>
    rw [ho] at hpde
    have hz : ¬ s.entry pd (pdNo va) = 0 := fun he => by
      have := hpde.zero_iff.mp he
      cases this
    refine .inr ⟨pt, s, T, held, ?_, h, ⟨rfl, rfl, rfl, fun _ _ _ _ => rfl⟩, ho, rfl, rfl,
      fun _ => rfl⟩
    simp [lookupPage, assert, hu, hz, hpde.1, hpde.2]
  | none =>
    rw [ho] at hpde
    have hz : s.entry pd (pdNo va) = 0 := hpde
    rcases h.add_table hlt ho with ⟨he, hno⟩ | ⟨pt, s', he, -, hs', hk⟩
    · refine .inl ⟨{ s with answers := s.answers.tail }, ?_,
        h.congr rfl rfl rfl rfl rfl fun _ _ _ _ => rfl, ⟨rfl, rfl, rfl, fun _ _ _ _ => rfl⟩, hno⟩
      simp [lookupPage, assert, hu, hz, he]
    · have hpde' := hs'.pde (pdNo va) hlt
      rw [T.set_self] at hpde'
      refine .inr ⟨pt, s', T.set (.table (pdNo va)) (some pt), _, ?_, hs', hk, T.set_self .., ?_, rfl,
        fun u => ?_⟩
      · simp [lookupPage, assert, hu, hz, he, hpde'.1, hpde'.2]
      · exact T.set_of_ne (by simp) _
      · exact T.set_of_ne (by simp) _

theorem Space.in_ram (h : Space s0 s pd T held) (hn : T.addr n = some x) :
    decide (vtop x / pgSize < s.ramPages) = true := by
  obtain ⟨i, hi, rfl⟩ := h.pool n x hn
  obtain ⟨h1, h2⟩ := h.ok.page_lt hi
  have hlt : vtop (s0.page n.pool i) / pgSize < s0.ramPages := by
    simp only [vtop, pgSize, physBase] at *
    omega
  rw [h.same.ram]
  exact decide_eq_true hlt

/-- `pagedir_set_page` for a page that has no frame yet. -/
theorem Space.set_page (h : Space s0 s pd T held) {va k : Nat} (hu : isUserVaddr va = true)
    (hofs : pgOfs va = 0) (hk : T.addr .loose = some k) (hf : T.addr (.frame (pgNo va)) = none)
    (w : Bool) :
    (∃ s', pagedirSetPage pd va k w s = .ok (false, s') ∧ Space s0 s' pd T held ∧ Keeps T s s' ∧
      Refused s) ∨
    ∃ s' T' held', pagedirSetPage pd va k w s = .ok (true, s') ∧
      Space s0 s' pd T' held' ∧ Keeps T s s' ∧ Installed T T' (pgNo va) k w := by
  have hofs' : (pgOfs va == 0) = true := beq_iff_eq.mpr hofs
  have hkofs : (pgOfs k == 0) = true := beq_iff_eq.mpr (h.addressable hk).aligned
  have hram := h.in_ram hk
  have hbase : (pd != s.basePageDir) = true := bne_iff_ne.mpr (h.ne_base h.root)
  have hrun : pagedirSetPage pd va k w s =
      (lookupPage pd va true s).bind fun r => setPte k w r.1 r.2 := by
    rw [pagedirSetPage, bind_run, assert_run hofs', ok_bind, bind_run, assert_run hkofs, ok_bind,
      bind_run, assert_run hu, ok_bind, bind_run, get_run, ok_bind, bind_run, assert_run hram,
      ok_bind, bind_run, assert_run hbase, ok_bind]
    rfl
  rcases h.lookup_create hu with ⟨s', he, hs', hk', hno⟩ | ⟨pt, s', T', held', he, hs', hkeep, htab,
    hl, hw, hfr⟩
  · refine .inl ⟨s', ?_, hs', hk', hno⟩
    rw [hrun, he]
    rfl
  · have hpte := hs'.pte _ pt (ptNo va) htab (ptNo_lt va)
    rw [pgNo_eq, hfr, hf] at hpte
    have hpd : pgNo va / 1024 = pdNo va := by
      have := pgNo_eq va
      have := ptNo_lt va
      omega
    have hpt : pgNo va % 1024 = ptNo va := by
      have := pgNo_eq va
      have := ptNo_lt va
      omega
    rw [← hpd] at htab
    have hnew := hs'.set_entry htab ((hfr _).trans hf) (hl.trans hk) w
    rw [hpt] at hnew
    have hin := T'.installed (hl.trans hk) (pgNo va) w
    refine .inr ⟨s'.setEntry pt (ptNo va) (pteCreateUser k w), _, _, ?_, hnew, ?_, hin.loose,
      fun u => ?_, fun u => ?_⟩
    · have hnot : (!present (s'.entry pt (ptNo va))) = true := by
        rw [show present (s'.entry pt (ptNo va)) = false from hpte]
        rfl
      rw [hrun, he, ok_bind]
      show ((assert (!present (s'.entry pt (ptNo va))) : M Unit) s').bind _ = _
      rw [assert_run hnot]
      rfl
    · refine ⟨hkeep.pagedir, hkeep.pos, hkeep.reads, fun n x hn hp => ?_⟩
      have hn' : T'.addr n = some x := by
        cases n with
        | frame u => rw [hfr]; exact hn
        | loose => rw [hl]; exact hn
        | root => cases hp
        | table i => cases hp
      rw [← hkeep.mem n x hn hp]
      refine Function.update_of_ne (hs'.ne hn' htab ?_) ..
      rintro rfl
      cases hp
    · rw [hin.addr, hfr]
    · rw [hin.writable, hw]

end

end Pintos.Userprog.Loader
