import Pintos.Userprog.LoadStale
import Pintos.Userprog.UserMemory

/-!
# Which valid system calls are performed

A call is valid when its number, its argument words and the bytes that its pointers name lie in
mapped user pages. The loader maps pages from the second page on, the handler refuses pointers
below the usual start of the code segment and looks at a word behind the arguments of
`SYS_CREATE`: `Admitted` is the exact condition for a valid call to be performed.
-/

namespace Pintos.Userprog

open Pintos.Threads Pintos.Kernel

/-! ## Address spaces -/

/-- The mappings of a page directory. -/
def Loader.Vm.pageDir (s : Loader.Vm) : PageDir := fun n => (s.translate (n * pgSize)).map Prod.fst

/-- An address space that `load` has built. -/
structure AddressSpace where
  vm : Loader.Vm
  file : Loader.Image
  loaded : ∃ (s : Loader.Vm) (x : CString) (words : List CString) (stale : Loader.Stale)
    (r : Nat × Nat), Loader.Boot s ∧
      Loader.load (x :: words) stale (some file) s = .ok (some r, vm)

/-- The process with the given contents of memory. -/
def AddressSpace.user (A : AddressSpace) (mem : Nat → UInt8) : User := ⟨A.vm.pageDir, mem⟩

/-! ## Valid calls -/

/-- The start of the code segment that the handler assumes. -/
def codeBase : Nat := 0x08048000

/-- The number of argument words. -/
def Sys.args : Sys → Nat
  | .halt => 0
  | .exit | .exec | .wait | .open | .close => 1
  | .create => 2
  | .read | .write => 3

/-- A byte in a mapped user page. -/
def UserByte (u : User) (a : Nat) : Prop := isUserVaddr a = true ∧ Mapped u.pd a

/-- What the pointer argument of a call names. -/
def ValidArgs (u : User) (p : Nat) : Sys → Prop
  | .exec | .create | .open =>
    let name := u.word (addr p 4)
    ∃ n, (∀ i < n, u.mem (addr name i) ≠ 0) ∧ u.mem (addr name n) = 0 ∧
      ∀ i ≤ n, UserByte u (addr name i)
  | .read | .write => ∀ i < u.word (addr p 12), UserByte u (addr (u.word (addr p 8)) i)
  | .halt | .exit | .wait | .close => True

/-- The words of the call and what they point to lie in mapped user pages. -/
structure ValidCall (u : User) (sys : Sys) (p : Nat) : Prop where
  pointer : p < 2 ^ 32
  number : Sys.ofNr (u.word p) = some sys
  words : ∀ i < 4 * (sys.args + 1), UserByte u (addr p i)
  args : ValidArgs u p sys

/-- What a call does once its arguments are read. -/
def Sys.action (u : User) (fds : Fds) (p : Nat) : Sys → Run
  | .halt => ⟨[], .powerOff⟩
  | .exit => ⟨[], .exit (toInt32 (u.word (addr p 4)))⟩
  | .wait | .close => ⟨[], .returned⟩
  | .exec | .create => ⟨[.str (u.word (addr p 4))], .returned⟩
  | .open =>
    match bitmapScan fds.bitmap 0 1 false with
    | none => ⟨[], .returned⟩
    | some _ => ⟨[.str (u.word (addr p 4))], .returned⟩
  | .read => transfer (u.word (addr p 8))
    (readSize (sysRead fds (toInt32 (u.word (addr p 4)))) (u.word (addr p 12)))
  | .write => transfer (u.word (addr p 8))
    (writeSize (sysWrite fds (toInt32 (u.word (addr p 4)))) (u.word (addr p 12)))

/-- The run ends with the action, and no check has failed. -/
def Run.Performs (action r : Run) : Prop :=
  action.trace <:+ r.trace ∧ r.outcome = action.outcome ∧ ∀ q, .refused q ∉ r.trace

/-- **When a valid call is performed**: the pointers are not below the code base, the word
behind the two arguments of `SYS_CREATE` is below `PHYS_BASE`, and the pointer to an empty
buffer passes the checks. -/
def Admitted (u : User) (p : Nat) : Sys → Prop
  | .exec | .open => codeBase ≤ p ∧ codeBase ≤ u.word (addr p 4)
  | .create => codeBase ≤ p ∧ codeBase ≤ u.word (addr p 4) ∧ p + 12 < physBase
  | .read => codeBase ≤ p ∧ codeBase ≤ u.word (addr p 8) ∧
    (u.word (addr p 12) = 0 → isUserVaddr (u.word (addr p 8)) = true)
  | .write => codeBase ≤ p ∧ codeBase ≤ u.word (addr p 8) ∧
    (u.word (addr p 12) = 0 → UserByte u (u.word (addr p 8)))
  | .halt | .exit | .wait | .close => codeBase ≤ p

/-! ## Runs that perform an action -/

/-- The events of an action. -/
def IsAction (r : Run) : Prop :=
  (∀ e ∈ r.trace, (∃ q, e = .str q) ∨ ∃ q n, e = .bytes q n) ∧ r.outcome ≠ .panic

section

variable {u : User} {fds : Fds} {A k : Run} {p q : Nat}

theorem isAction_stop {o : Outcome} (h : o ≠ .panic) : IsAction ⟨[], o⟩ :=
  ⟨fun _ he => absurd he List.not_mem_nil, h⟩

theorem isAction_str {name : Nat} : IsAction ⟨[.str name], .returned⟩ := by
  refine ⟨fun e he => .inl ⟨name, ?_⟩, by simp⟩
  simpa using he

theorem isAction_transfer {buffer : Nat} {n : Option Nat} : IsAction (transfer buffer n) := by
  cases n with
  | none => exact isAction_stop (by decide)
  | some n =>
    refine ⟨fun e he => .inr ⟨buffer, n, ?_⟩, by simp [transfer]⟩
    simpa [transfer] using he

theorem isAction_action (sys : Sys) : IsAction (sys.action u fds p) := by
  cases sys with
  | halt | exit | wait | close => exact isAction_stop (by simp)
  | exec | create => exact isAction_str
  | «open» =>
    unfold Sys.action
    cases bitmapScan fds.bitmap 0 1 false with
    | none => exact isAction_stop (by decide)
    | some _ => exact isAction_str
  | read | write => exact isAction_transfer

/-- The action itself performs it. -/
theorem performs_self (hA : IsAction A) : A.Performs A := by
  refine ⟨List.suffix_rfl, rfl, fun q hq => ?_⟩
  rcases hA.1 _ hq with ⟨_, he⟩ | ⟨_, _, he⟩ <;> cases he

/-- A step before the action. -/
theorem performs_log (hA : IsAction A) {e : Event} (he : ∀ q, e ≠ .refused q)
    (hs : ∀ q, e ≠ .str q) (hb : ∀ q n, e ≠ .bytes q n) :
    A.Performs (k.log e) ↔ A.Performs k := by
  unfold Run.Performs Run.log
  simp only [List.suffix_cons_iff, List.mem_cons, not_or]
  constructor
  · rintro ⟨h1 | h1, h2, h3⟩
    · rcases hA.1 e (by rw [h1]; exact List.mem_cons_self) with ⟨q, hq⟩ | ⟨q, n, hq⟩
      · exact absurd hq (hs q)
      · exact absurd hq (hb q n)
    · exact ⟨h1, h2, fun q => (h3 q).2⟩
  · rintro ⟨h1, h2, h3⟩
    exact ⟨.inr h1, h2, fun q => ⟨(he q).symm, h3 q⟩⟩

theorem performs_checkValidPointer (hA : IsAction A) :
    A.Performs (checkValidPointer q k) ↔ validPointer q = true ∧ A.Performs k := by
  unfold checkValidPointer
  split
  · next h =>
    rw [performs_log hA (by simp) (by simp) (by simp)]
    exact (and_iff_right h).symm
  · next h =>
    refine iff_of_false (fun hp => hp.2.2 q List.mem_cons_self) fun hp => h hp.1

theorem performs_checkPagedir (hA : IsAction A) :
    A.Performs (checkPagedir u.pd q k) ↔ UserByte u q ∧ A.Performs k := by
  unfold checkPagedir UserByte
  split
  · next hu =>
    split
    · next hm =>
      rw [performs_log hA (by simp) (by simp) (by simp)]
      exact (and_iff_right ⟨hu, hm⟩).symm
    · next hm =>
      refine iff_of_false (fun hp => hp.2.2 q List.mem_cons_self) fun hp => hm hp.1.2
  · next hu => exact iff_of_false (fun hp => hA.2 hp.2.1.symm) fun hp => hu hp.1.1

theorem performs_deref (hA : IsAction A) {k : Nat → Run} (hq : ∀ i < 4, UserByte u (addr q i)) :
    A.Performs (deref u q k) ↔ A.Performs (k (u.word q)) := by
  have hok : ¬ ((List.range 4).any fun i => faults u.pd (addr q i)) = true := by
    simp only [List.any_eq_true, List.mem_range, faults, Bool.and_eq_true, not_exists, not_and]
    intro i hi _ hn
    have := (hq i hi).2
    unfold Mapped at this
    rw [Option.isNone_iff_eq_none.mp hn] at this
    cases this
  unfold deref
  rw [if_neg hok, performs_log hA (by simp) (by simp) (by simp)]

end

/-! ## The exact condition -/

theorem validPointer_iff {q : Nat} :
    validPointer q = true ↔ isUserVaddr q = true ∧ codeBase ≤ q := by
  rw [validPointer, Bool.and_eq_true, decide_eq_true_iff]
  rfl

theorem addr_addr (p i j : Nat) : addr (addr p i) j = addr p (i + j) := by
  unfold addr
  omega

section

variable {u : User} {fds : Fds} {p : Nat} {sys : Sys}

theorem word_lt (u : User) (q : Nat) : u.word q < 2 ^ 32 := by
  unfold User.word
  have h0 := (u.mem (addr q 0)).toNat_lt
  have h1 := (u.mem (addr q 1)).toNat_lt
  have h2 := (u.mem (addr q 2)).toNat_lt
  have h3 := (u.mem (addr q 3)).toNat_lt
  omega

theorem addr_word (u : User) (q : Nat) : addr (u.word q) 0 = u.word q := Nat.mod_eq_of_lt (word_lt u q)

/-- The words of a valid call do not wrap around. -/
theorem ValidCall.word (h : ValidCall u sys p) {k : Nat} (hk : k ≤ sys.args) :
    addr p (4 * k) = p + 4 * k ∧ (∀ i < 4, UserByte u (addr (addr p (4 * k)) i)) ∧
      UserByte u (addr p (4 * k)) := by
  have h0 : addr p 0 < physBase := of_decide_eq_true (h.words 0 (by omega)).1
  have hlt := h.pointer
  have hargs : sys.args ≤ 3 := by cases sys <;> decide
  refine ⟨?_, fun i hi => ?_, h.words _ (by omega)⟩
  · simp only [addr, physBase] at *
    omega
  · rw [addr_addr]
    exact h.words _ (by omega)

/-- A check of an argument word of a valid call. -/
theorem ValidCall.valid (h : ValidCall u sys p) {k : Nat} (hk : k ≤ sys.args) :
    validPointer (addr p (4 * k)) = true ↔ codeBase ≤ p + 4 * k := by
  obtain ⟨he, -, hu⟩ := h.word hk
  rw [validPointer_iff, ← he]
  exact and_iff_right hu.1

/-- The first byte of a string. -/
theorem ValidCall.string (hargs : ∃ n, (∀ i < n, u.mem (addr (u.word (addr p 4)) i) ≠ 0) ∧
    u.mem (addr (u.word (addr p 4)) n) = 0 ∧
      ∀ i ≤ n, UserByte u (addr (u.word (addr p 4)) i)) : UserByte u (u.word (addr p 4)) := by
  obtain ⟨n, -, -, hb⟩ := hargs
  have := hb 0 (Nat.zero_le n)
  rwa [addr_word] at this

/-- The first byte of a buffer. -/
theorem ValidCall.buffer (hargs : ∀ i < u.word (addr p 12), UserByte u (addr (u.word (addr p 8)) i)) :
    u.word (addr p 12) = 0 ∨ UserByte u (u.word (addr p 8)) := by
  rcases Nat.eq_zero_or_pos (u.word (addr p 12)) with h0 | hpos
  · exact .inl h0
  · have := hargs 0 hpos
    rw [addr_word] at this
    exact .inr this

/-- A valid call is performed exactly when it is admitted. -/
theorem performs_iff (h : ValidCall u sys p) :
    (sys.action u fds p).Performs (syscallHandler u fds p) ↔ Admitted u p sys := by
  have hA : IsAction (sys.action u fds p) := isAction_action sys
  obtain ⟨hp, hw0, hu0⟩ := h.word (k := 0) (Nat.zero_le _)
  have hv0 := h.valid (k := 0) (Nat.zero_le _)
  rw [Nat.mul_zero, Nat.add_zero] at hp hv0
  rw [Nat.mul_zero, hp] at hw0 hu0
  rw [hp] at hv0
  rw [syscallHandler, performs_checkValidPointer hA, performs_checkPagedir hA, performs_deref hA hw0,
    callArgs, h.number, hv0]
  have hself := performs_self hA
  have hargs := h.args
  cases sys with
  | halt => exact ⟨fun hp => hp.1, fun hp => ⟨hp, hu0, hself⟩⟩
  | exit | wait | close =>
    obtain ⟨-, hw1, -⟩ := h.word (k := 1) le_rfl
    have hv1 := h.valid (k := 1) le_rfl
    rw [Nat.mul_one] at hw1 hv1
    simp only
    rw [performs_deref hA hw1, performs_checkValidPointer hA, hv1]
    exact ⟨fun hp => hp.1, fun hp => ⟨hp, hu0, Nat.le_add_right_of_le hp, hself⟩⟩
  | exec =>
    obtain ⟨-, hw1, -⟩ := h.word (k := 1) le_rfl
    rw [Nat.mul_one] at hw1
    have hs := ValidCall.string hargs
    simp only
    rw [performs_deref hA hw1, performs_checkValidPointer hA, performs_checkPagedir hA, validPointer_iff]
    constructor
    · rintro ⟨h1, -, ⟨-, h2⟩, -⟩
      exact ⟨h1, h2⟩
    · rintro ⟨h1, h2⟩
      have hne : u.word (addr p 4) ≠ 0 := fun h0 => by
        rw [h0] at h2
        exact absurd h2 (by decide)
      rw [if_neg hne]
      exact ⟨h1, hu0, ⟨hs.1, h2⟩, hs, hself⟩
  | «open» =>
    obtain ⟨-, hw1, -⟩ := h.word (k := 1) le_rfl
    rw [Nat.mul_one] at hw1
    have hs := ValidCall.string hargs
    simp only
    rw [performs_deref hA hw1, performs_checkValidPointer hA, performs_checkPagedir hA, validPointer_iff]
    constructor
    · rintro ⟨h1, -, ⟨-, h2⟩, -⟩
      exact ⟨h1, h2⟩
    · rintro ⟨h1, h2⟩
      exact ⟨h1, hu0, ⟨hs.1, h2⟩, hs, hself⟩
  | create =>
    obtain ⟨he1, hw1, -⟩ := h.word (k := 1) (by decide)
    obtain ⟨he2, hw2, hu2⟩ := h.word (k := 2) le_rfl
    rw [Nat.mul_one] at hw1
    rw [show 4 * 2 = 8 from rfl] at he2 hw2 hu2
    have hs := ValidCall.string hargs
    have hlt : addr p 8 < physBase := of_decide_eq_true hu2.1
    have h12 : addr p 12 = p + 12 := Nat.mod_eq_of_lt (by
      simp only [physBase] at hlt
      omega)
    simp only
    rw [performs_deref hA hw1, performs_checkValidPointer hA, performs_checkPagedir hA,
      performs_deref hA hw2, performs_checkValidPointer hA, validPointer_iff, validPointer_iff, h12]
    constructor
    · rintro ⟨h1, -, ⟨-, h2⟩, -, ⟨h3, -⟩, -⟩
      exact ⟨h1, h2, of_decide_eq_true h3⟩
    · rintro ⟨h1, h2, h3⟩
      exact ⟨h1, hu0, ⟨hs.1, h2⟩, hs, ⟨decide_eq_true h3, Nat.le_add_right_of_le h1⟩, hself⟩
  | read =>
    obtain ⟨-, hw1, -⟩ := h.word (k := 1) (by decide)
    obtain ⟨-, hw2, hu2⟩ := h.word (k := 2) (by decide)
    obtain ⟨-, hw3, -⟩ := h.word (k := 3) le_rfl
    have hv1 := h.valid (k := 1) (by decide)
    have hv3 := h.valid (k := 3) le_rfl
    rw [Nat.mul_one] at hw1 hv1
    rw [show 4 * 2 = 8 from rfl] at hw2 hu2
    rw [show 4 * 3 = 12 from rfl] at hw3 hv3
    have hb := ValidCall.buffer hargs
    simp only
    rw [performs_deref hA hw1, performs_checkValidPointer hA, performs_deref hA hw2,
      performs_checkValidPointer hA, performs_checkPagedir hA, performs_deref hA hw3,
      performs_checkValidPointer hA, hv1, hv3, validPointer_iff]
    constructor
    · rintro ⟨h1, -, -, ⟨h2, h3⟩, -⟩
      exact ⟨h1, h3, fun _ => h2⟩
    · rintro ⟨h1, h2, h3⟩
      refine ⟨h1, hu0, Nat.le_add_right_of_le h1, ⟨?_, h2⟩, hu2, Nat.le_add_right_of_le h1, hself⟩
      exact hb.elim h3 fun hb => hb.1
  | write =>
    obtain ⟨-, hw1, -⟩ := h.word (k := 1) (by decide)
    obtain ⟨-, hw2, -⟩ := h.word (k := 2) (by decide)
    obtain ⟨-, hw3, -⟩ := h.word (k := 3) le_rfl
    have hv1 := h.valid (k := 1) (by decide)
    have hv3 := h.valid (k := 3) le_rfl
    rw [Nat.mul_one] at hw1 hv1
    rw [show 4 * 2 = 8 from rfl] at hw2
    rw [show 4 * 3 = 12 from rfl] at hw3 hv3
    have hb := ValidCall.buffer hargs
    simp only
    rw [performs_deref hA hw1, performs_checkValidPointer hA, performs_deref hA hw2,
      performs_checkValidPointer hA, performs_checkPagedir hA, performs_deref hA hw3,
      performs_checkValidPointer hA, hv1, hv3, validPointer_iff]
    constructor
    · rintro ⟨h1, -, -, ⟨-, h3⟩, h4, -⟩
      exact ⟨h1, h3, fun _ => h4⟩
    · rintro ⟨h1, h2, h3⟩
      have hb := hb.elim h3 id
      exact ⟨h1, hu0, Nat.le_add_right_of_le h1, ⟨hb.1, h2⟩, hb, Nat.le_add_right_of_le h1, hself⟩

end

/-! ## What the loader maps -/

namespace AddressSpace

variable (A : AddressSpace)

theorem built : ∃ (s0 : Loader.Vm) (pd : Nat) (words : List CString) (stale : Loader.Stale)
    (eip esp : Nat) (L : List CString) (m : Buffer) (V : Loader.View),
    Loader.Loaded s0 A.vm pd words stale A.file eip esp L m V := by
  obtain ⟨s, x, words, stale, ⟨eip, esp⟩, hboot, hload⟩ := A.loaded
  rcases (Loader.load_spec hboot).ok hload with ⟨hr, -, -⟩ | ⟨pd, -, hr⟩
  · cases hr
  obtain ⟨f, L, m, V, hf, hl⟩ := hr eip esp rfl
  cases hf
  exact ⟨s, pd, x :: words, stale, eip, esp, L, m, V, hl⟩

/-- `pagedir_get_page` on the tables in memory is the lookup in the mappings. -/
theorem get_page {a : Nat} (hu : isUserVaddr a = true) : ∃ pd, A.vm.pagedir = some pd ∧
    Loader.pagedirGetPage pd a A.vm = .ok (pagedirGetPage A.vm.pageDir a, A.vm) := by
  obtain ⟨s0, pd, words, stale, eip, esp, L, m, V, hl⟩ := A.built
  obtain ⟨⟨T, held, hs, -, -⟩, hpd⟩ := hl.loading
  have hno : pgNo (pgNo a * pgSize) = pgNo a := Nat.mul_div_cancel _ (by decide)
  have hu' : isUserVaddr (pgNo a * pgSize) = true := (isUserVaddr_pgNo hno).trans hu
  refine ⟨pd, hpd, ?_⟩
  rw [hs.get_page hu, pagedirGetPage, Loader.Vm.pageDir, hs.translate hpd hu', hno]
  cases T.addr (.frame (pgNo a)) <;> rfl

/-- The pages of the stack and of the segments are mapped, and no others. -/
theorem mapped_iff {a : Nat} (hu : isUserVaddr a = true) : Mapped A.vm.pageDir a ↔
    Loader.stackBase ≤ a ∨ ∃ i < A.file.phnum, (A.file.phdr i).type = 1 ∧
      (A.file.phdr i).Has (pgNo a) := by
  obtain ⟨s0, pd, words, stale, eip, esp, L, m, V, hl⟩ := A.built
  have hno : pgNo (pgNo a * pgSize) = pgNo a := Nat.mul_div_cancel _ (by decide)
  have hu' : isUserVaddr (pgNo a * pgSize) = true := (isUserVaddr_pgNo hno).trans hu
  have hV : Mapped A.vm.pageDir a ↔ V (pgNo a) ≠ none := by
    have := hl.loading.userByte hu'
    rw [hno] at this
    have hsome := congrArg Option.isSome this
    rw [Loader.Vm.userByte, Option.isSome_map, Option.isSome_map] at hsome
    rw [Mapped, pagedirGetPage, Option.isSome_map, Loader.Vm.pageDir, Option.isSome_map, hsome,
      Option.isSome_iff_ne_none]
  obtain ⟨hkeep, hplaced, -⟩ := Loader.headersView_some hl.view
  rw [hV]
  constructor
  · intro hne
    by_contra hc
    push Not at hc
    refine hne (Loader.headersView_none hl.view ?_ fun i hi ht => hc.2 i hi ht)
    exact if_neg fun h => absurd ((Loader.stackNo_iff hu).mp h) (Nat.not_le.mpr hc.1)
  · rintro (hs | ⟨i, hi, ht, hh⟩)
    · have hstack : Loader.stackView m (pgNo a) = some (true, bufferAt m Loader.stackBase) :=
        if_pos ((Loader.stackNo_iff hu).mpr hs)
      rw [hkeep _ (by rw [hstack]; simp), hstack]
      simp
    · rw [(hplaced i hi ht).pages _ hh]
      simp

theorem stack {mem : Nat → UInt8} {a : Nat} (h1 : Loader.stackBase ≤ a) (h2 : a < physBase) :
    UserByte (A.user mem) a := by
  have hu : isUserVaddr a = true := decide_eq_true h2
  exact ⟨hu, (A.mapped_iff hu).mpr (.inl h1)⟩

end AddressSpace

/-- **The checks and the loader.** In an address space that `load` has built a valid call is
performed exactly when it is admitted. -/
theorem valid_call_performed_iff (A : AddressSpace) (mem : Nat → UInt8) (fds : Fds) {p : Nat}
    {sys : Sys} (h : ValidCall (A.user mem) sys p) :
    (sys.action (A.user mem) fds p).Performs (syscallHandler (A.user mem) fds p) ↔
      Admitted (A.user mem) p sys := performs_iff h

/-- The address space of a small executable. -/
theorem exists_addressSpace : Nonempty AddressSpace := by
  obtain ⟨s', hrun⟩ := Loader.tinyElf_loads fun _ => 0
  exact ⟨⟨s', Loader.tinyElf, _, Loader.echo, [], _, _, Loader.bootVm_boot _, hrun⟩⟩

/-- A call `SYS_CREATE` of an empty file at `p`, with its name at the start of the stack page. -/
def createAt (p : Nat) : Nat → UInt8 := fun a =>
  if p ≤ a then ([4, 0, 0, 0, 0x00, 0xf0, 0xff, 0xbf] : List UInt8).getD (a - p) 0
  else if a = 0xbffff000 then 97 else 0

theorem createAt_byte {p i : Nat} (h : p + i < 2 ^ 32) : createAt p (addr p i) =
    ([4, 0, 0, 0, 0x00, 0xf0, 0xff, 0xbf] : List UInt8).getD i 0 := by
  rw [addr, Nat.mod_eq_of_lt h, createAt, if_pos (Nat.le_add_right ..), Nat.add_sub_cancel_left]

theorem createAt_word {pd : PageDir} {p : Nat} (h : p + 8 < 2 ^ 32) :
    User.word ⟨pd, createAt p⟩ (addr p 0) = 4 ∧ User.word ⟨pd, createAt p⟩ (addr p 4) = 0xbffff000 := by
  have hb : ∀ i j, i + j < 8 → createAt p (addr (addr p i) j) =
      ([4, 0, 0, 0, 0x00, 0xf0, 0xff, 0xbf] : List UInt8).getD (i + j) 0 := by
    intro i j hj
    rw [addr_addr]
    exact createAt_byte (by omega)
  constructor
  · simp only [User.word, hb 0 0 (by omega), hb 0 1 (by omega), hb 0 2 (by omega), hb 0 3 (by omega)]
    rfl
  · simp only [User.word, hb 4 0 (by omega), hb 4 1 (by omega), hb 4 2 (by omega), hb 4 3 (by omega)]
    rfl

/-- The call is valid wherever its three words lie in the stack page. -/
theorem createAt_valid (A : AddressSpace) {p : Nat} (h1 : 0xbffff002 ≤ p) (h2 : p + 12 ≤ physBase) :
    ValidCall (A.user (createAt p)) .create p ∧ (A.user (createAt p)).word (addr p 4) = 0xbffff000 := by
  have hphys : physBase = 0xc0000000 := rfl
  obtain ⟨hnr, hname⟩ := @createAt_word A.vm.pageDir p (by omega)
  rw [addr, Nat.add_zero, Nat.mod_eq_of_lt (by omega)] at hnr
  refine ⟨⟨by omega, (congrArg Sys.ofNr hnr).trans rfl, fun i hi => ?_, ?_⟩, hname⟩
  · rw [Sys.args] at hi
    rw [addr, Nat.mod_eq_of_lt (by omega)]
    exact A.stack (by show 0xbffff000 ≤ p + i; omega) (by omega)
  · have hbyte : ∀ i < 2, createAt p (addr 0xbffff000 i) = if i = 0 then 97 else 0 := by
      intro i hi
      rw [addr, Nat.mod_eq_of_lt (by omega), createAt, if_neg (by omega)]
      split <;> split <;> first | rfl | omega
    unfold ValidArgs
    rw [AddressSpace.user, hname]
    refine ⟨1, fun i hi => ?_, hbyte 1 (by decide), fun i hi => ?_⟩
    · show createAt p _ ≠ 0
      rw [hbyte i (by omega), if_pos (by omega)]
      decide
    · rw [addr, Nat.mod_eq_of_lt (by omega)]
      exact A.stack (by show 0xbffff000 ≤ 0xbffff000 + i; omega) (by omega)

/-- With a word to spare above its arguments the call is performed. -/
theorem create_below_top : ∃ A : AddressSpace,
    (Sys.create.action (A.user (createAt 0xbffffff0)) fdsCreate 0xbffffff0).Performs
      (syscallHandler (A.user (createAt 0xbffffff0)) fdsCreate 0xbffffff0) := by
  obtain ⟨A⟩ := exists_addressSpace
  obtain ⟨hv, hname⟩ := createAt_valid A (p := 0xbffffff0) (by decide) (by decide)
  refine ⟨A, (valid_call_performed_iff A _ fdsCreate hv).mpr ⟨by decide, ?_, by decide⟩⟩
  rw [hname]
  decide

/-- **`SYS_CREATE` at the very top of the stack**: a valid call whose process is terminated. -/
theorem create_at_top : ∃ A : AddressSpace, ValidCall (A.user (createAt 0xbffffff4)) .create 0xbffffff4 ∧
    ¬ (Sys.create.action (A.user (createAt 0xbffffff4)) fdsCreate 0xbffffff4).Performs
      (syscallHandler (A.user (createAt 0xbffffff4)) fdsCreate 0xbffffff4) := by
  obtain ⟨A⟩ := exists_addressSpace
  obtain ⟨hv, -⟩ := createAt_valid A (p := 0xbffffff4) (by decide) (by decide)
  refine ⟨A, hv, fun hp => ?_⟩
  have := ((performs_iff hv).mp hp).2.2
  exact absurd this (by decide)

end Pintos.Userprog
