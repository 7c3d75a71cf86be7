import Pintos.Userprog.Load
import Pintos.Userprog.PagedirSpec

/-!
# What the loader builds

`View` is the memory that a user program sees: for each page whether it is writable, and its
bytes. `addPages`, `segmentView` and `headersView` say what each loop of the loader adds to
it, with no word about frames, tables or the allocator; the `*_spec` theorems say that
the loops do that, or return false with the address space in order.
-/

namespace Pintos.Userprog.Loader

open Pintos.Base Pintos.Kernel Pintos.Threads

/-! ## The abstract loader -/

/-- User memory by page: whether a page is writable, and its bytes. -/
abbrev View := Nat → Option (Bool × Buffer)

/-- A page with `n` bytes of the file from `pos` on, and zeros. -/
def filePage (f : Image) (pos n : Nat) : Buffer := fun o => if o < n then f.byte (pos + o) else 0

def View.add (V : View) (v : Nat) (w : Bool) (b : Buffer) : View :=
  Function.update V v (some (w, b))

/-- `n` pages from page `v` on with `size` bytes of the file from `pos` on. -/
def addPages (f : Image) (w : Bool) : (n v pos size : Nat) → View → Option View
  | 0, _, _, _, V => some V
  | n + 1, v, pos, size, V =>
    if V v = none ∧ (min size pgSize = 0 ∨ pos + min size pgSize ≤ f.length) then
      addPages f w n (v + 1) (pos + min size pgSize) (size - min size pgSize)
        (V.add v w (filePage f pos (min size pgSize)))
    else none

/-- The pages of a segment. -/
def Phdr.pages (ph : Phdr) : Nat := divRoundUp (ph.vaddr % pgSize + ph.memsz) pgSize

/-- The bytes that are read for a segment, from the start of its first page on. -/
def Phdr.readBytes (ph : Phdr) : Nat := if 0 < ph.filesz then ph.vaddr % pgSize + ph.filesz else 0

def segmentView (f : Image) (ph : Phdr) (V : View) : Option View :=
  if validateSegment ph f then
    addPages f ph.writable ph.pages (pgNo ph.vaddr) (ph.offset - ph.offset % pgSize) ph.readBytes V
  else none

/-- The program header at an offset of the file. -/
def phdrAt (f : Image) (ofs : Nat) : Phdr := phdrOf (bufferAt f.byte ofs)

/-- `n` program headers from `ofs` on. -/
def headersView (f : Image) : Nat → Nat → View → Option View
  | 0, _, V => some V
  | n + 1, ofs, V =>
    if f.length < ofs + phdrSize then none
    else if (phdrAt f ofs).type = 2 ∨ (phdrAt f ofs).type = 3 ∨ (phdrAt f ofs).type = 5 then none
    else if (phdrAt f ofs).type = 1 then
      (segmentView f (phdrAt f ofs) V).bind (headersView f n (ofs + phdrSize))
    else headersView f n (ofs + phdrSize) V

/-- The frames hold what the program is to see. -/
def Shows (s : Vm) (T : Tree) (V : View) : Prop :=
  ∀ v, match T.addr (.frame v) with
    | none => V v = none
    | some k => ∃ b, V v = some (T.writable v, b) ∧ ∀ o < pgSize, s.mem k o = b o

/-- No ASSERT fails. -/
def NoAssert (e : Stop) : Prop := e ≠ .assertion

section

variable {s s' s0 : Vm} {pd : Nat} {T T' : Tree} {held : List Nat} {V : View} {k v : Nat} {w : Bool}

theorem Shows.none_iff (h : Shows s T V) (v : Nat) : V v = none ↔ T.addr (.frame v) = none := by
  have hv := h v
  cases hf : T.addr (.frame v) with
  | none =>
    rw [hf] at hv
    exact ⟨fun _ => rfl, fun _ => hv⟩
  | some k =>
    rw [hf] at hv
    obtain ⟨b, hb, -⟩ := hv
    simp [hb]

/-- The view depends on the frames only. -/
theorem Shows.congr (h : Shows s T V) (haddr : ∀ v, T'.addr (.frame v) = T.addr (.frame v))
    (hw : ∀ v, T'.writable v = T.writable v)
    (hmem : ∀ v k, T.addr (.frame v) = some k → s'.mem k = s.mem k) : Shows s' T' V := by
  intro v
  have hv := h v
  rw [haddr, hw]
  cases hf : T.addr (.frame v) with
  | none =>
    rw [hf] at hv
    exact hv
  | some k =>
    rw [hf] at hv
    obtain ⟨b, hb, ho⟩ := hv
    exact ⟨b, hb, by rw [hmem v k hf]; exact ho⟩

/-- The new frame shows its page. -/
theorem Shows.installed (h : Shows s T V) (hin : Installed T T' v k w)
    (hmem : ∀ u x, u ≠ v → T.addr (.frame u) = some x → s'.mem x = s.mem x) {b : Buffer}
    (hb : ∀ o < pgSize, s'.mem k o = b o) : Shows s' T' (V.add v w b) := by
  intro u
  rw [hin.addr, hin.writable]
  by_cases hu : u = v
  · subst hu
    simp only [if_true]
    exact ⟨b, Function.update_self .., hb⟩
  · simp only [if_neg hu]
    have hV : V.add v w b u = V u := Function.update_of_ne hu ..
    rw [hV]
    have hv := h u
    cases hf : T.addr (.frame u) with
    | none =>
      rw [hf] at hv
      exact hv
    | some x =>
      rw [hf] at hv
      obtain ⟨c, hc, ho⟩ := hv
      exact ⟨c, hc, by rw [hmem u x hu hf]; exact ho⟩

/-! ## Frames -/

/-- The loose page is given back. -/
theorem Space.free_loose (h : Space s0 s pd T held) (hk : T.addr .loose = some k) :
    ∃ s', pallocFreePage k s = .ok ((), s') ∧
      Space s0 s' pd (T.set .loose none) (held.erase k) ∧ s'.pagedir = s.pagedir := by
  obtain ⟨p, i, hi, hkp, hfree, hl⟩ := h.toLedger.free ((h.mem k).mpr ⟨_, hk⟩)
  have hne : ∀ n, n ≠ .loose → (T.set .loose none).addr n = T.addr n := fun n hn => T.set_of_ne hn _
  have hold : ∀ n x, (T.set .loose none).addr n = some x → T.addr n = some x ∧ n ≠ .loose := by
    intro n x hn
    by_cases hl : n = .loose
    · subst hl
      rw [T.set_self] at hn
      cases hn
    · exact ⟨by rwa [hne n hl] at hn, hl⟩
  have hmem : ∀ n x, T.addr n = some x → n ≠ .loose → (s.free p i).mem x = s.mem x := by
    intro n x hn hl
    refine Function.update_of_ne ?_ ..
    rw [← hkp]
    exact h.ne hn hk hl
  refine ⟨_, hfree, ⟨hl, ?_, fun x => ?_, fun n x hn => h.pool n x (hold n x hn).1,
    fun n m x hn hm => h.inj n m x (hold n x hn).1 (hold m x hm).1,
    fun i x hi => h.table i x (hold _ x hi).1, fun v x hv => ?_, fun j hj => ?_,
    fun j pt l hj hl => ?_, h.baseUsed⟩, rfl⟩
  · rw [hne _ (by simp)]
    exact h.root
  · rw [h.nodup.mem_erase_iff, h.mem]
    constructor
    · rintro ⟨hx, n, hn⟩
      refine ⟨n, ?_⟩
      rwa [hne]
      rintro rfl
      rw [hk] at hn
      exact hx (Option.some.inj hn).symm
    · rintro ⟨n, hn⟩
      obtain ⟨hn, hl⟩ := hold n x hn
      exact ⟨h.ne hn hk hl, n, hn⟩
  · obtain ⟨pt, hpt⟩ := h.frame v x (hold _ x hv).1
    exact ⟨pt, by rw [hne _ (by simp)]; exact hpt⟩
  · rw [hne _ (by simp)]
    unfold Vm.entry
    rw [hmem .root pd h.root (by simp)]
    exact h.pde j hj
  · have hj' := (hold _ pt hj).1
    rw [hne _ (by simp)]
    unfold Vm.entry
    rw [hmem (.table j) pt hj' (by simp)]
    exact h.pte j pt l hj' hl

/-- `install_page` -/
theorem Space.install_page (h : Space s0 s pd T held) (hpd : s.pagedir = some pd) {va : Nat}
    (hu : isUserVaddr va = true) (hofs : pgOfs va = 0) (hk : T.addr .loose = some k) (w : Bool) :
    (∃ s', installPage va k w s = .ok (false, s') ∧ Space s0 s' pd T held ∧
      s'.pagedir = some pd ∧ (T.addr (.frame (pgNo va)) ≠ none ∨ Refused s)) ∨
    ∃ s' T' held', installPage va k w s = .ok (true, s') ∧ Space s0 s' pd T' held' ∧
      Keeps T s s' ∧ Installed T T' (pgNo va) k w ∧ T.addr (.frame (pgNo va)) = none := by
  have hget := h.get_page hu
  rw [installPage, bind_run, get_run, ok_bind, hpd]
  simp only
  rw [bind_run, hget, ok_bind]
  cases hf : T.addr (.frame (pgNo va)) with
  | some x => exact .inl ⟨s, rfl, h, hpd, .inl (by simp)⟩
  | none =>
    rcases h.set_page hu hofs hk hf w with ⟨s', he, hs', hk', hno⟩ | ⟨s', T', held', he, hs', hk', hin⟩
    · exact .inl ⟨s', he, hs', hk'.pagedir.trans hpd, .inr hno⟩
    · exact .inr ⟨s', T', held', he, hs', hk', hin, rfl⟩

/-- The inputs to come do not matter to the address space. -/
theorem Space.inputs (h : Space s0 s pd T held) (answers : List (Option Nat)) (pos : Nat)
    (reads : List Nat) :
    Space s0 { s with answers := answers, pos := pos, reads := reads } pd T held :=
  h.congr rfl rfl rfl rfl rfl fun _ _ _ _ => rfl

/-- The address space between the steps of `load`. -/
structure Loading (s0 s : Vm) (pd : Nat) (V : View) : Prop where
  space : ∃ T held, Space s0 s pd T held ∧ T.addr .loose = none ∧ Shows s T V
  pagedir : s.pagedir = some pd

/-- The space is in order, whatever it shows. -/
def Orderly (s0 s : Vm) (pd : Nat) : Prop := ∃ V, Loading s0 s pd V

theorem exists_shows (s : Vm) (T : Tree) : ∃ V, Shows s T V := by
  refine ⟨fun v => (T.addr (.frame v)).map fun k => (T.writable v, s.mem k), fun v => ?_⟩
  cases hf : T.addr (.frame v) with
  | none => simp [hf]
  | some k => exact ⟨s.mem k, by simp [hf], fun _ _ => rfl⟩

theorem Space.orderly (h : Space s0 s pd T held) (hl : T.addr .loose = none)
    (hpd : s.pagedir = some pd) : Orderly s0 s pd := by
  obtain ⟨V, hV⟩ := exists_shows s T
  exact ⟨V, ⟨T, held, h, hl, hV⟩, hpd⟩

/-- The position and the limits of `file_read` do not matter to the address space. -/
theorem Loading.file (h : Loading s0 s pd V) (pos : Nat) (reads : List Nat) :
    Loading s0 { s with pos := pos, reads := reads } pd V := by
  obtain ⟨⟨T, held, hs, hl, hV⟩, hpd⟩ := h
  exact ⟨⟨T, held, hs.inputs s.answers pos reads, hl,
    hV.congr (fun _ => rfl) (fun _ => rfl) fun _ _ _ => rfl⟩, hpd⟩

/-- Nor do the answers of the allocator. -/
theorem Loading.inputs (h : Loading s0 s pd V) (answers : List (Option Nat)) :
    Loading s0 { s with answers := answers } pd V := by
  obtain ⟨⟨T, held, hs, hl, hV⟩, hpd⟩ := h
  exact ⟨⟨T, held, hs.inputs answers s.pos s.reads, hl,
    hV.congr (fun _ => rfl) (fun _ => rfl) fun _ _ _ => rfl⟩, hpd⟩

/-! ## Segments -/

/-- What `loadPage` leaves in the page before it installs it. -/
theorem memcpy_filePage (f : Image) (b : Buffer) (pos : Nat) {n o : Nat} (ho : o < pgSize) :
    memcpy (memcpy b 0 f.byte pos n) n zeros 0 (pgSize - n) o = filePage f pos n o := by
  unfold filePage
  split
  · next h =>
    rw [memcpy_out (by omega), memcpy_in (by omega) (by omega)]
    congr 1
  · next h =>
    rw [memcpy_in (by omega) (by omega)]
    rfl

theorem loadPage_spec (h : Loading s0 s pd V) (f : Image) {va n : Nat} (hu : isUserVaddr va = true)
    (hofs : pgOfs va = 0) (w : Bool) :
    Wp NoAssert (loadPage f va n w) (fun b s' => Orderly s0 s' pd ∧ (b = true →
      V (pgNo va) = none ∧ (n = 0 ∨ s.pos + n ≤ f.length) ∧ s'.pos = s.pos + n ∧
        Loading s0 s' pd (V.add (pgNo va) w (filePage f s.pos n)))) s := by
  obtain ⟨⟨T, held, hs, hl, hV⟩, hpd⟩ := h
  unfold loadPage
  rw [wp_bind]
  rcases hs.get_loose hl false with he | ⟨k, s1, he, hs1, hk1, -⟩
  · rw [wp_of_ok he, wp_pure]
    exact ⟨(hs.inputs s.answers.tail s.pos s.reads).orderly hl hpd, by simp⟩
  rw [wp_of_ok he]
  simp only
  rw [wp_bind, wp_get, wp_bind, fileRead, wp_bind, wp_get, wp_bind, wp_set, wp_pure]
  simp only
  rw [wp_bind, wp_modify]
  have hloose : (T.set .loose (some k)).addr .loose = some k := T.set_self ..
  have hpd1 : s1.pagedir = some pd := hk1.pagedir.trans hpd
  generalize hn' : min (min n (f.length - s1.pos)) (s1.reads.headD n) = n'
  have hs2 : Space s0 ({ s1 with pos := s1.pos + n', reads := s1.reads.tail }.setPage k
      (memcpy (s1.mem k) 0 f.byte s1.pos n')) pd (T.set .loose (some k)) (k :: held) :=
    (hs1.inputs s1.answers (s1.pos + n') s1.reads.tail).store hloose rfl _
  split
  · -- a short read
    obtain ⟨s3, he3, hs3, hp3⟩ := hs2.free_loose hloose
    rw [wp_bind, wp_of_ok he3, wp_pure]
    exact ⟨hs3.orderly (Tree.set_self ..) (hp3.trans hpd1), by simp⟩
  next hfull =>
  have hnn : n' = n := by
    by_contra hc
    exact hfull hc
  subst hnn
  rw [wp_bind, wp_modify]
  have hs3 := hs2.store hloose rfl (memcpy (({ s1 with pos := s1.pos + n', reads := s1.reads.tail
      }.setPage k (memcpy (s1.mem k) 0 f.byte s1.pos n')).mem k) n' zeros 0 (pgSize - n'))
  rw [wp_bind]
  rcases hs3.install_page hpd1 hu hofs hloose w with ⟨s4, he4, hs4, hp4, -⟩ | ⟨s4, T4, held4, he4, hs4,
    hk4, hin, hnone⟩
  · rw [wp_of_ok he4]
    obtain ⟨s5, he5, hs5, hp5⟩ := hs4.free_loose hloose
    simp only [Bool.false_eq_true, if_false]
    rw [wp_bind, wp_of_ok he5, wp_pure]
    exact ⟨hs5.orderly (Tree.set_self ..) (hp5.trans hp4), by simp⟩
  · rw [wp_of_ok he4]
    simp only [if_true]
    rw [wp_pure]
    have hframe : ∀ u, (T.set .loose (some k)).addr (.frame u) = T.addr (.frame u) :=
      fun u => T.set_of_ne (by simp) _
    have hpos : s1.pos = s.pos := hk1.pos
    rw [hframe] at hnone
    -- the frames that were there have not changed
    have hold : ∀ u x, T.addr (.frame u) = some x → s4.mem x = s.mem x := by
      intro u x hux
      have hux' := (hframe u).trans hux
      have hne : x ≠ k := hs1.ne hux' hloose (by simp)
      rw [hk4.mem _ x hux' rfl, ← hk1.mem _ x hux rfl]
      simp only [Vm.setPage, Function.update_of_ne hne]
    have hnew : ∀ o < pgSize, s4.mem k o = filePage f s.pos n' o := by
      intro o ho
      rw [hk4.mem .loose k hloose rfl]
      simp only [Vm.setPage, Function.update_self]
      rw [memcpy_filePage f _ _ ho, hpos]
    have hin' : Installed T T4 (pgNo va) k w :=
      ⟨hin.loose, fun u => by rw [hin.addr, hframe], hin.writable⟩
    refine ⟨hs4.orderly hin.loose (hk4.pagedir.trans hpd1), fun _ => ⟨(hV.none_iff _).mpr hnone, ?_,
      ?_, ⟨T4, held4, hs4, hin.loose, hV.installed hin' (fun u x _ hux => hold u x hux) hnew⟩,
      hk4.pagedir.trans hpd1⟩⟩
    · rw [← hpos]
      omega
    · rw [hk4.pos, ← hpos]
      rfl

theorem pgNo_add_pgSize (va : Nat) : pgNo (va + pgSize) = pgNo va + 1 := by
  simp only [pgNo, pgSize]
  omega

/-- The loop of `load_segment`. -/
theorem loadPages_spec (f : Image) (w : Bool) {n fuel va size rest : Nat} (h : Loading s0 s pd V)
    (hn : size + rest = pgSize * n) (hfuel : n < fuel) (hofs : pgOfs va = 0)
    (hva : va + pgSize * n ≤ physBase) :
    Wp NoAssert (loadPages f w fuel va size rest) (fun b s' => Orderly s0 s' pd ∧ (b = true →
      ∃ V', addPages f w n (pgNo va) s.pos size V = some V' ∧ Loading s0 s' pd V')) s := by
  induction fuel generalizing s V n va size rest with
  | zero => exact absurd hfuel (Nat.not_lt_zero n)
  | succ fuel ih =>
    unfold loadPages
    cases n with
    | zero =>
      rw [if_pos (by omega), wp_pure]
      exact ⟨⟨V, h⟩, fun _ => ⟨V, rfl, h⟩⟩
    | succ n =>
      have hpos : ¬ (size = 0 ∧ rest = 0) := by
        simp only [pgSize] at hn
        omega
      have hu : isUserVaddr va = true := by
        refine decide_eq_true (Nat.lt_of_lt_of_le ?_ hva)
        simp only [pgSize]
        omega
      rw [if_neg hpos]
      simp only
      refine (loadPage_spec h f hu hofs w).bind fun b s1 hq => ?_
      obtain ⟨ho, hb⟩ := hq
      cases b with
      | false =>
        simp only [Bool.false_eq_true, if_false]
        rw [wp_pure]
        exact ⟨ho, by simp⟩
      | true =>
        obtain ⟨hnone, hlen, hpos1, hl1⟩ := hb rfl
        simp only [if_true]
        refine (ih (n := n) hl1 ?_ (by omega) ?_ ?_).mono fun b s2 hq => ⟨hq.1, fun hbt => ?_⟩
        · simp only [pgSize] at hn ⊢
          omega
        · simp only [pgOfs, pgSize] at hofs ⊢
          omega
        · simp only [pgSize] at hva ⊢
          omega
        · obtain ⟨V', hV', hl2⟩ := hq.2 hbt
          refine ⟨V', ?_, hl2⟩
          rw [addPages, if_pos ⟨hnone, hlen⟩, ← pgNo_add_pgSize, ← hpos1]
          exact hV'

/-- What `validate_segment` has checked. -/
theorem validateSegment_bounds {ph : Phdr} {f : Image} (h : validateSegment ph f = true)
    (hsz : ph.memsz < 2 ^ 32) :
    ph.offset % pgSize = ph.vaddr % pgSize ∧ ph.filesz ≤ ph.memsz ∧ 0 < ph.memsz ∧
      pgSize ≤ ph.vaddr ∧ ph.vaddr + ph.memsz < physBase := by
  simp only [validateSegment, Bool.and_eq_true, beq_iff_eq, decide_eq_true_eq, bne_iff_ne,
    ne_eq] at h
  obtain ⟨⟨⟨⟨⟨⟨⟨h1, -⟩, h3⟩, h4⟩, h5⟩, h6⟩, h7⟩, h8⟩ := h
  have h5' : ph.vaddr < physBase := of_decide_eq_true h5
  have h6' : (ph.vaddr + ph.memsz) % 2 ^ 32 < physBase := of_decide_eq_true h6
  refine ⟨h1, h3, by omega, h8, ?_⟩
  simp only [physBase] at *
  omega

/-- A segment ends on the page that `ROUND_UP` finds. -/
theorem Phdr.pages_eq (ph : Phdr) :
    roundUp (ph.vaddr % pgSize + ph.memsz) pgSize = pgSize * ph.pages := Nat.mul_comm ..

/-- The case `PT_LOAD`. -/
theorem loadHeader_spec (h : Loading s0 s pd V) (f : Image) {ph : Phdr} (hsz : ph.memsz < 2 ^ 32) :
    Wp NoAssert (loadHeader f ph) (fun b s' => Orderly s0 s' pd ∧ (b = true →
      ∃ V', segmentView f ph V = some V' ∧ Loading s0 s' pd V')) s := by
  unfold loadHeader
  split
  · next hval =>
    obtain ⟨h1, h2, h3, h4, h5⟩ := validateSegment_bounds hval hsz
    have hpages := ph.pages_eq
    have hread : ph.readBytes ≤ pgSize * ph.pages := by
      simp only [Phdr.readBytes, Phdr.pages, divRoundUp, pgSize]
      split <;> omega
    have hend : ph.vaddr - ph.vaddr % pgSize + pgSize * ph.pages ≤ physBase := by
      simp only [Phdr.pages, divRoundUp, pgSize, physBase] at *
      omega
    simp only
    rw [hpages]
    show Wp NoAssert (loadSegment f _ _ ph.readBytes (pgSize * ph.pages - ph.readBytes) _) _ s
    have ha1 : ((ph.readBytes + (pgSize * ph.pages - ph.readBytes)) % pgSize == 0) = true := by
      rw [Nat.add_sub_cancel' hread, Nat.mul_mod_right]
      rfl
    have ha2 : (pgOfs (ph.vaddr - ph.vaddr % pgSize) == 0) = true := by
      simp only [pgOfs, beq_iff_eq, pgSize]
      omega
    have ha3 : ((ph.offset - ph.offset % pgSize) % pgSize == 0) = true := by
      simp only [beq_iff_eq, pgSize]
      omega
    unfold loadSegment
    rw [wp_bind, wp_of_ok (assert_run ha1 s), wp_bind, wp_of_ok (assert_run ha2 s), wp_bind,
      wp_of_ok (assert_run ha3 s), wp_bind, fileSeek, wp_modify]
    refine (loadPages_spec f ph.writable (h.file (ph.offset - ph.offset % pgSize) s.reads)
      (n := ph.pages) (Nat.add_sub_cancel' hread) ?_ (beq_iff_eq.mp ha2) hend).mono
      fun b s' hq => ⟨hq.1, fun hbt => ?_⟩
    · rw [Nat.add_sub_cancel' hread, Nat.mul_div_cancel_left _ (by decide)]
      exact Nat.lt_succ_self _
    · obtain ⟨V', hV', hl'⟩ := hq.2 hbt
      refine ⟨V', ?_, hl'⟩
      have hpg : pgNo (ph.vaddr - ph.vaddr % pgSize) = pgNo ph.vaddr := by
        simp only [pgNo, pgSize]
        omega
      rw [segmentView, if_pos hval, ← hpg]
      exact hV'
  · rw [wp_pure]
    exact ⟨⟨V, h⟩, by simp⟩

theorem phdrOf_read (f : Image) (ofs : Nat) :
    phdrOf (memcpy zeros 0 f.byte ofs phdrSize) = phdrAt f ofs := by
  have hword : ∀ i, i + 4 ≤ phdrSize →
      load32 (memcpy zeros 0 f.byte ofs phdrSize) i = load32 (bufferAt f.byte ofs) i := by
    intro i hi
    refine load32_eq fun k hk => ?_
    rw [memcpy_in (by omega) (by omega), bufferAt]
    congr 1
  simp only [phdrOf, phdrAt]
  rw [hword 0 (by decide), hword 4 (by decide), hword 8 (by decide), hword 16 (by decide),
    hword 20 (by decide), hword 24 (by decide)]

/-- The loop over the program headers. -/
theorem loadHeaders_spec (f : Image) {n : Nat} {ofs : Int} (h : Loading s0 s pd V) :
    Wp NoAssert (loadHeaders f n ofs) (fun b s' => Orderly s0 s' pd ∧ (b = true →
      (n = 0 ∨ 0 ≤ ofs) ∧
        ∃ V', headersView f n ofs.toNat V = some V' ∧ Loading s0 s' pd V')) s := by
  induction n generalizing s V ofs with
  | zero =>
    rw [loadHeaders, wp_pure]
    exact ⟨⟨V, h⟩, fun _ => ⟨.inl rfl, V, rfl, h⟩⟩
  | succ n ih =>
    unfold loadHeaders
    split
    · rw [wp_pure]
      exact ⟨⟨V, h⟩, by simp⟩
    next hofs =>
    push Not at hofs
    rw [wp_bind, fileSeek, wp_modify, wp_bind, fileRead, wp_bind, wp_get, wp_bind, wp_set, wp_pure]
    simp only
    generalize hgot : min (min phdrSize (f.length - ofs.toNat)) (s.reads.headD phdrSize) = got
    have h1 := h.file (ofs.toNat + got) s.reads.tail
    split
    · rw [wp_pure]
      exact ⟨⟨V, h1⟩, by simp⟩
    next hfull =>
    have hfull : got = phdrSize := by
      by_contra hc
      exact hfull hc
    have hlen : ¬ f.length < ofs.toNat + phdrSize := by
      have : 0 < phdrSize := by decide
      omega
    have hnext : (ofs + phdrSize).toNat = ofs.toNat + phdrSize := by omega
    simp only [hfull, phdrOf_read]
    rw [headersView, if_neg hlen]
    rw [hfull] at h1
    split
    · rw [wp_pure]
      exact ⟨⟨V, h1⟩, by simp⟩
    split
    · refine (loadHeader_spec h1 f (load32_lt _ _)).bind fun b s2 hq => ?_
      obtain ⟨ho2, hb2⟩ := hq
      cases b with
      | false =>
        simp only [Bool.false_eq_true, if_false]
        rw [wp_pure]
        exact ⟨ho2, by simp⟩
      | true =>
        obtain ⟨V2, hV2, hl2⟩ := hb2 rfl
        simp only [if_true]
        refine (ih hl2).mono fun b s3 hq => ⟨hq.1, fun hbt => ?_⟩
        obtain ⟨-, V3, hV3, hl3⟩ := hq.2 hbt
        refine ⟨.inr hofs.1, V3, ?_, hl3⟩
        rw [hV2, Option.bind_some, ← hnext]
        exact hV3
    · refine (ih h1).mono fun b s3 hq => ⟨hq.1, fun hbt => ?_⟩
      obtain ⟨-, V3, hV3, hl3⟩ := hq.2 hbt
      exact ⟨.inr hofs.1, V3, by rw [← hnext]; exact hV3, hl3⟩

end

end Pintos.Userprog.Loader
