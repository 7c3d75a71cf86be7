import Pintos.Userprog.Syscall

/-!
# Which system calls touch only checked memory

A byte is established when a `check_pagedir` of its page has passed: the page is
then below `PHYS_BASE` and mapped. `SafeCall` asks this of every byte before the
handler reads it or hands it on, and that no ASSERT fails on the way.

The handler does not check what it reads word by word, so safety depends on where
the stack pointer and the arguments lie. `Covered` is the exact condition, call by
call: the arguments must lie on the page of the stack pointer, a string or the
buffer of a write on that page or the page of its first byte, and the buffer of a
read, whose page is never checked, on the page of the stack pointer itself.
-/

namespace Pintos.Userprog

open Pintos.Threads

/-- The bytes an access touches. -/
def Touches (mem : Nat → UInt8) : Event → Nat → Prop
  | .word p, a => ∃ i < 4, a = addr p i
  | .str p, a => ∃ i, a = addr p i ∧ ∀ j < i, mem (addr p j) ≠ 0
  | .bytes p n, a => ∃ i < n, a = addr p i
  | _, _ => False

/-- A check of the page of `a` has passed. -/
def Established (pre : List Event) (a : Nat) : Prop := ∃ q, Event.paged q ∈ pre ∧ pgNo q = pgNo a

/-- The page of `q` is mapped. -/
def Mapped (pd : PageDir) (q : Nat) : Prop := (pagedirGetPage pd q).isSome = true

/-- **Memory safety of a call**: every byte is established, below `PHYS_BASE` and
mapped before it is touched, a failed check ends the process with status -1, and the
kernel does not panic. -/
def SafeCall (u : User) (fds : Fds) (p : Nat) : Prop :=
  (∀ pre e post, (syscallHandler u fds p).trace = pre ++ e :: post →
    ∀ a, Touches u.mem e a → Established pre a ∧ isUserVaddr a = true ∧ Mapped u.pd a) ∧
  (∀ q, .refused q ∈ (syscallHandler u fds p).trace →
    (syscallHandler u fds p).outcome = .exit (-1)) ∧
  (syscallHandler u fds p).outcome ≠ .panic

/-- `q` passes both checks. -/
def Checked (pd : PageDir) (q : Nat) : Prop := validPointer q = true ∧ Mapped pd q

/-- The bytes of an access lie in the given pages. -/
def Within (mem : Nat → UInt8) (pages : List Nat) (e : Event) : Prop :=
  ∀ a, Touches mem e a → pgNo a ∈ pages

/-! ## Safety, one event at a time -/

/-- The pages established after an event. -/
def Event.pages (est : List Nat) : Event → List Nat
  | .paged q => pgNo q :: est
  | _ => est

/-- The trace is safe when the pages `est` are established before it. -/
def SafeTrace (mem : Nat → UInt8) : List Nat → List Event → Prop
  | _, [] => True
  | est, e :: tr => Within mem est e ∧ SafeTrace mem (e.pages est) tr

theorem safeTrace_iff {mem : Nat → UInt8} {est : List Nat} {tr : List Event} :
    SafeTrace mem est tr ↔ ∀ pre e post, tr = pre ++ e :: post →
      ∀ a, Touches mem e a → pgNo a ∈ est ∨ Established pre a := by
  induction tr generalizing est with
  | nil => simp [SafeTrace]
  | cons x tr ih =>
    rw [SafeTrace, ih]
    constructor
    · rintro ⟨hx, htr⟩ pre e post heq a ha
      rcases pre with _ | ⟨y, pre⟩
      · simp only [List.nil_append, List.cons.injEq] at heq
        exact .inl (hx a (heq.1 ▸ ha))
      · simp only [List.cons_append, List.cons.injEq] at heq
        obtain ⟨rfl, heq⟩ := heq
        rcases htr pre e post heq a ha with h | ⟨q, hq, hpg⟩
        · cases x with
          | paged q =>
            rcases List.mem_cons.mp h with h | h
            · exact .inr ⟨q, List.mem_cons_self, h.symm⟩
            · exact .inl h
          | _ => exact .inl h
        · exact .inr ⟨q, List.mem_cons_of_mem _ hq, hpg⟩
    · intro h
      refine ⟨fun a ha => ?_, fun pre e post heq a ha => ?_⟩
      · rcases h [] x tr rfl a ha with hin | ⟨q, hq, -⟩
        · exact hin
        · cases hq
      · rcases h (x :: pre) e post (by rw [heq]; rfl) a ha with hin | ⟨q, hq, hpg⟩
        · left
          cases x with
          | paged q => exact List.mem_cons_of_mem _ hin
          | _ => exact hin
        · rcases List.mem_cons.mp hq with rfl | hq
          · exact .inl (by rw [Event.pages, ← hpg]; exact List.mem_cons_self)
          · exact .inr ⟨q, hq, hpg⟩

/-- A run is safe from the established pages `est` on. -/
def Run.Safe (mem : Nat → UInt8) (est : List Nat) (r : Run) : Prop :=
  SafeTrace mem est r.trace ∧ (∀ q, .refused q ∈ r.trace → r.outcome = .exit (-1)) ∧
    r.outcome ≠ .panic

/-! ## The pages on the way -/

theorem isUserVaddr_pgNo {a b : Nat} (h : pgNo a = pgNo b) : isUserVaddr a = isUserVaddr b := by
  unfold isUserVaddr physBase
  unfold pgNo pgSize at h
  congr 1
  exact propext (by omega)

/-- The code segment starts on a page boundary. -/
theorem validPointer_pgNo {a b : Nat} (h : pgNo a = pgNo b) :
    validPointer a = validPointer b := by
  unfold validPointer
  rw [isUserVaddr_pgNo h]
  unfold pgNo pgSize at h
  congr 2
  exact propext (by omega)

theorem mapped_pgNo {pd : PageDir} {a b : Nat} (h : pgNo a = pgNo b) :
    Mapped pd a ↔ Mapped pd b := by
  simp [Mapped, pagedirGetPage, h]

/-- The pages `est` have passed the checks. -/
def Sound (pd : PageDir) (est : List Nat) : Prop := ∀ a, pgNo a ∈ est → Checked pd a

theorem Sound.nil {pd : PageDir} : Sound pd [] := fun _ h => absurd h List.not_mem_nil

theorem Sound.cons {pd : PageDir} {est : List Nat} (h : Sound pd est) {q : Nat}
    (hq : Checked pd q) : Sound pd (pgNo q :: est) := by
  intro a ha
  rcases List.mem_cons.mp ha with ha | ha
  · exact ⟨(validPointer_pgNo ha).trans hq.1, (mapped_pgNo ha).mpr hq.2⟩
  · exact h a ha

theorem Checked.user {pd : PageDir} {q : Nat} (h : Checked pd q) : isUserVaddr q = true := by
  have := h.1
  unfold validPointer at this
  exact (Bool.and_eq_true_iff.mp this).1

theorem Within.first {mem : Nat → UInt8} {est : List Nat} {p i : Nat}
    (h : Within mem est (.word (addr p i))) : pgNo (addr p i) ∈ est := by
  refine h _ ⟨0, by decide, ?_⟩
  simp [addr]

/-! ## A check that passes says what it should -/

/-- Every passed `check_pagedir` of the run was of a mapped user page. -/
def Run.Honest (pd : PageDir) (r : Run) : Prop :=
  ∀ q, .paged q ∈ r.trace → isUserVaddr q = true ∧ Mapped pd q

section

variable {u : User} {fds : Fds} {p : Nat}

theorem honest_log {e : Event} {k : Run} (he : ∀ q, e ≠ .paged q) (hk : k.Honest u.pd) :
    (k.log e).Honest u.pd := by
  intro q hq
  rcases List.mem_cons.mp hq with hq | hq
  · exact absurd hq.symm (he q)
  · exact hk q hq

theorem honest_checkValidPointer {k : Run} (hk : k.Honest u.pd) :
    (checkValidPointer p k).Honest u.pd := by
  unfold checkValidPointer
  split
  · exact honest_log (by simp) hk
  · intro q hq
    simp at hq

theorem honest_checkPagedir {k : Run} (hk : k.Honest u.pd) :
    (checkPagedir u.pd p k).Honest u.pd := by
  unfold checkPagedir
  split
  · next hu =>
    split
    · next hm =>
      intro q hq
      rcases List.mem_cons.mp hq with hq | hq
      · obtain rfl := Event.paged.inj hq
        exact ⟨hu, hm⟩
      · exact hk q hq
    · intro q hq
      simp at hq
  · intro q hq
    simp at hq

theorem honest_deref {k : Nat → Run} (hk : ∀ w, (k w).Honest u.pd) :
    (deref u p k).Honest u.pd := by
  unfold deref
  split
  · intro q hq
    simp at hq
  · exact honest_log (by simp) (hk _)

theorem honest_stop {o : Outcome} : (⟨[], o⟩ : Run).Honest u.pd := by
  simp [Run.Honest]

theorem honest_str {name : Nat} : (⟨[.str name], .returned⟩ : Run).Honest u.pd := by
  simp [Run.Honest]

theorem honest_transfer {buffer : Nat} {n : Option Nat} : (transfer buffer n).Honest u.pd := by
  cases n <;> simp [transfer, Run.Honest]

theorem honest_callArgs {nr : Nat} : (callArgs u fds p nr).Honest u.pd := by
  unfold callArgs
  split
  · exact honest_stop
  · exact honest_deref fun _ => honest_checkValidPointer <| honest_deref fun _ =>
      honest_checkValidPointer <| honest_checkPagedir <| honest_deref fun _ =>
      honest_checkValidPointer honest_transfer
  · exact honest_deref fun _ => honest_checkValidPointer <| honest_deref fun _ =>
      honest_checkValidPointer <| honest_checkPagedir <| honest_deref fun _ =>
      honest_checkValidPointer honest_transfer
  · exact honest_deref fun _ => honest_checkValidPointer <| honest_checkPagedir <|
      honest_deref fun _ => honest_checkValidPointer honest_str
  · refine honest_deref fun _ => honest_checkValidPointer <| honest_checkPagedir ?_
    split
    · exact honest_stop
    · exact honest_str
  · exact honest_deref fun _ => honest_checkValidPointer honest_stop
  · refine honest_deref fun _ => honest_checkValidPointer <| honest_checkPagedir ?_
    split
    · exact honest_stop
    · exact honest_str
  · exact honest_deref fun _ => honest_checkValidPointer honest_stop
  · exact honest_deref fun _ => honest_checkValidPointer honest_stop
  · exact honest_stop

theorem honest_syscallHandler : (syscallHandler u fds p).Honest u.pd :=
  honest_checkValidPointer <| honest_checkPagedir <| honest_deref fun _ => honest_callArgs

/-- Safety of a call is safety of its run with no page established at the start. -/
theorem safeCall_iff_safe :
    SafeCall u fds p ↔ (syscallHandler u fds p).Safe u.mem [] := by
  unfold SafeCall Run.Safe
  rw [safeTrace_iff]
  refine and_congr_left fun _ => ⟨fun h pre e post heq a ha => .inr (h pre e post heq a ha).1,
    fun h pre e post heq a ha => ?_⟩
  rcases h pre e post heq a ha with hin | ⟨q, hq, hpg⟩
  · cases hin
  · have := honest_syscallHandler q (by rw [heq]; exact List.mem_append_left _ hq)
    exact ⟨⟨q, hq, hpg⟩, by rw [← isUserVaddr_pgNo hpg]; exact this.1,
      (mapped_pgNo hpg).mp this.2⟩

end

/-! ## Safety, check by check -/

theorem within_dup {mem : Nat → UInt8} {a : Nat} {e : Event} :
    Within mem [a, a] e ↔ Within mem [a] e := by
  simp [Within]

section

variable {u : User} {est : List Nat} {p : Nat} {k : Run}

theorem safe_log {e : Event} (he : ∀ q, e ≠ .refused q) : (k.log e).Safe u.mem est ↔
    Within u.mem est e ∧ k.Safe u.mem (e.pages est) := by
  simp only [Run.Safe, Run.log, SafeTrace, List.mem_cons, (he _).symm, false_or, and_assoc]

theorem safe_checkValidPointer :
    (checkValidPointer p k).Safe u.mem est ↔ (validPointer p = true → k.Safe u.mem est) := by
  unfold checkValidPointer
  split
  · next h => simp [safe_log, Within, Touches, Event.pages, h]
  · next h => simp [Run.Safe, SafeTrace, Within, Touches, h]

theorem safe_checkPagedir (hu : isUserVaddr p = true) : (checkPagedir u.pd p k).Safe u.mem est ↔
    (Mapped u.pd p → k.Safe u.mem (pgNo p :: est)) := by
  unfold checkPagedir
  rw [if_pos hu]
  split
  · next hm => simp [safe_log, Within, Touches, Event.pages, show Mapped u.pd p from hm]
  · next hm => simp [Run.Safe, SafeTrace, Within, Touches, show ¬ Mapped u.pd p from hm]

/-- The two checks, one after the other. -/
theorem safe_check : (checkValidPointer p (checkPagedir u.pd p k)).Safe u.mem est ↔
    (Checked u.pd p → k.Safe u.mem (pgNo p :: est)) := by
  rw [safe_checkValidPointer]
  constructor
  · intro h hc
    exact (safe_checkPagedir hc.user).mp (h hc.1) hc.2
  · intro h hv
    have hu : isUserVaddr p = true := (Bool.and_eq_true_iff.mp hv).1
    exact (safe_checkPagedir hu).mpr fun hm => h ⟨hv, hm⟩

theorem safe_deref (hs : Sound u.pd est) {k : Nat → Run} : (deref u p k).Safe u.mem est ↔
    Within u.mem est (.word p) ∧ (k (u.word p)).Safe u.mem est := by
  unfold deref
  split
  · next hf =>
    refine iff_of_false (fun h => h.2.2 rfl) fun h => ?_
    simp only [List.any_eq_true, List.mem_range, faults, Bool.and_eq_true,
      Option.isNone_iff_eq_none] at hf
    obtain ⟨i, hi, -, hn⟩ := hf
    have := (hs _ (h.1 _ ⟨i, hi, rfl⟩)).2
    simp [Mapped, hn] at this
  · simp [safe_log, Event.pages]

/-- A word that is read and then checked: the check comes too late to matter. -/
theorem safe_arg (hs : Sound u.pd est) {i : Nat} {k : Nat → Run} :
    (deref u (addr p i) fun w => checkValidPointer (addr p i) (k w)).Safe u.mem est ↔
      Within u.mem est (.word (addr p i)) ∧ (k (u.word (addr p i))).Safe u.mem est := by
  rw [safe_deref hs, safe_checkValidPointer]
  constructor
  · intro ⟨hw, hk⟩
    exact ⟨hw, hk (hs _ hw.first).1⟩
  · intro ⟨hw, hk⟩
    exact ⟨hw, fun _ => hk⟩

theorem safe_access {e : Event} (he : ∀ q, e ≠ .refused q) :
    (⟨[e], .returned⟩ : Run).Safe u.mem est ↔ Within u.mem est e := by
  simp [Run.Safe, SafeTrace, (he _).symm]

theorem safe_stop {o : Outcome} (h : o ≠ .panic) : (⟨[], o⟩ : Run).Safe u.mem est := by
  simp [Run.Safe, SafeTrace, h]

/-- The bytes of a transfer, if there is one. -/
theorem safe_transfer {buffer : Nat} {n : Option Nat} : (transfer buffer n).Safe u.mem est ↔
    ∀ m, n = some m → Within u.mem est (.bytes buffer m) := by
  cases n with
  | none => simp [transfer, safe_stop]
  | some m => simp [transfer, safe_access]

end

/-! ## The exact condition -/

/-- The argument word at offset `i` lies on the established pages. -/
def Arg (u : User) (est : List Nat) (p i : Nat) : Prop := Within u.mem est (.word (addr p i))

/-- The arguments of a call, and what they point to. The call number, at `p`, has
been read. -/
def CoveredArgs (u : User) (fds : Fds) (p : Nat) : Option Sys → Prop
  | none | some .halt => True
  | some .exit | some .wait | some .close => Arg u [pgNo p] p 4
  | some .exec =>
    let name := u.word (addr p 4)
    Arg u [pgNo p] p 4 ∧
      (Checked u.pd name → Within u.mem [pgNo name, pgNo p] (.str name))
  | some .open =>
    let name := u.word (addr p 4)
    Arg u [pgNo p] p 4 ∧
      (Checked u.pd name → Kernel.bitmapScan fds.bitmap 0 1 false ≠ none →
        Within u.mem [pgNo name, pgNo p] (.str name))
  | some .create =>
    let name := u.word (addr p 4)
    Arg u [pgNo p] p 4 ∧
      (Checked u.pd name → Arg u [pgNo name, pgNo p] p 8 ∧
        (validPointer (addr p 12) = true → Within u.mem [pgNo name, pgNo p] (.str name)))
  | some .read =>
    let fd := toInt32 (u.word (addr p 4))
    let buffer := u.word (addr p 8)
    Arg u [pgNo p] p 4 ∧ Arg u [pgNo p] p 8 ∧
      (validPointer buffer = true → Arg u [pgNo p] p 12 ∧
        ∀ n, readSize (sysRead fds fd) (u.word (addr p 12)) = some n →
          Within u.mem [pgNo p] (.bytes buffer n))
  | some .write =>
    let fd := toInt32 (u.word (addr p 4))
    let buffer := u.word (addr p 8)
    Arg u [pgNo p] p 4 ∧ Arg u [pgNo p] p 8 ∧
      (Checked u.pd buffer → Arg u [pgNo buffer, pgNo p] p 12 ∧
        ∀ n, writeSize (sysWrite fds fd) (u.word (addr p 12)) = some n →
          Within u.mem [pgNo buffer, pgNo p] (.bytes buffer n))

/-- Everything the call touches lies on the pages it checks. -/
def Covered (u : User) (fds : Fds) (p : Nat) : Prop :=
  Checked u.pd p →
    Within u.mem [pgNo p] (.word p) ∧ CoveredArgs u fds p (Sys.ofNr (u.word p))

/-- After the call number each call is safe exactly when its arguments are covered. -/
theorem safe_args_iff {u : User} {fds : Fds} {p : Nat} (hp : Checked u.pd p) :
    (callArgs u fds p (u.word p)).Safe u.mem [pgNo p] ↔
      CoveredArgs u fds p (Sys.ofNr (u.word p)) := by
  have hs : Sound u.pd [pgNo p] := Sound.nil.cons hp
  unfold callArgs CoveredArgs
  cases Sys.ofNr (u.word p) with
  | none => simp [safe_stop]
  | some sys =>
    cases sys with
    | halt => simp [safe_stop]
    | exit | wait | close => simp [safe_arg hs, safe_stop, Arg]
    | exec =>
      dsimp only
      rw [safe_deref hs, safe_check]
      refine and_congr_right fun _ => forall_congr' fun hc => ?_
      -- A checked name is not the null pointer.
      have hne : u.word (addr p 4) ≠ 0 := fun h0 => by
        rw [h0] at hc
        exact absurd hc.1 (by decide)
      rw [if_neg hne]
      exact safe_access (by simp)
    | «open» =>
      dsimp only
      rw [safe_deref hs, safe_check]
      refine and_congr_right fun _ => forall_congr' fun hc => ?_
      cases Kernel.bitmapScan fds.bitmap 0 1 false with
      | none => simp [safe_stop]
      | some fd => simp [safe_access]
    | create =>
      dsimp only
      rw [safe_deref hs, safe_check]
      refine and_congr_right fun _ => forall_congr' fun hc => ?_
      rw [safe_deref (hs.cons hc), safe_checkValidPointer, safe_access (by simp)]
      rfl
    | read =>
      dsimp only
      rw [safe_arg hs, safe_deref hs, safe_checkValidPointer]
      refine and_congr_right fun _ => and_congr_right fun hw => forall_congr' fun _ => ?_
      -- The page of the second argument is checked in place of the buffer's.
      have hmem : pgNo (addr p 8) = pgNo p := List.mem_singleton.mp hw.first
      have hc : Checked u.pd (addr p 8) := hs _ hw.first
      rw [safe_checkPagedir hc.user, safe_arg (hs.cons hc), safe_transfer, hmem]
      simp only [within_dup, hc.2, true_implies]
      rfl
    | write =>
      dsimp only
      rw [safe_arg hs, safe_deref hs, safe_check]
      refine and_congr_right fun _ => and_congr_right fun _ => forall_congr' fun hc => ?_
      rw [safe_arg (hs.cons hc), safe_transfer]
      rfl

/-- **A system call touches only checked memory exactly when what it touches lies on
the pages it checks.** -/
theorem safeCall_iff_covered (u : User) (fds : Fds) (p : Nat) :
    SafeCall u fds p ↔ Covered u fds p := by
  rw [safeCall_iff_safe, syscallHandler, safe_check]
  refine forall_congr' fun hp => ?_
  rw [safe_deref (Sound.nil.cons hp), safe_args_iff hp]

/-- A read into an unmapped buffer: the check is of the argument, not of the buffer. -/
def unmappedBuffer : User where
  pd n := if n = 0x8048 then some 0 else none
  mem a := ([8, 0, 0, 0, 0, 0, 0, 0, 0, 0, 0, 9, 1, 0, 0, 0] : List UInt8).getD (a - 0x08048000) 0

theorem read_unmapped_buffer : ¬ SafeCall unmappedBuffer fdsCreate 0x08048000 := by
  intro h
  have htr : (syscallHandler unmappedBuffer fdsCreate 0x08048000).trace =
      [.valid 0x08048000, .paged 0x08048000, .word 0x08048000, .word 0x08048004,
        .valid 0x08048004, .word 0x08048008, .valid 0x09000000, .paged 0x08048008,
        .word 0x0804800c, .valid 0x0804800c] ++ [.bytes 0x09000000 1] := by
    decide +kernel
  obtain ⟨-, -, hm⟩ := h.1 _ _ _ htr 0x09000000 ⟨0, by decide, by decide⟩
  exact absurd hm (by unfold Mapped; decide)

end Pintos.Userprog
