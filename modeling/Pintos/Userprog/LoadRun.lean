import Pintos.Userprog.LoadStack

/-!
# Runs of `load` that succeed

The specifications say what holds if a function returns. Here are the converses that a
run of `load` needs: a push on the stack page goes through, and a page is installed where
there is none as long as the allocator has a page for the page table.
-/

namespace Pintos.Userprog.Loader

open Pintos.Base Pintos.Kernel Pintos.Threads

/-! ## The stack -/

/-- Only the contents of memory differ. -/
def MemOnly (s s' : Vm) : Prop := ∃ mem, s' = { s with mem := mem }

theorem MemOnly.trans {s s' s'' : Vm} (h : MemOnly s s') (h' : MemOnly s' s'') : MemOnly s s'' := by
  obtain ⟨mem, rfl⟩ := h
  obtain ⟨mem', rfl⟩ := h'
  exact ⟨mem', rfl⟩

section

variable {s s' s0 : Vm} {pd : Nat} {T : Tree} {held : List Nat} {V : View} {m : Buffer} {esp : Nat}

theorem userStore_ok (h : Loading s0 s pd (stackView m)) {a : Nat} (ha : stackBase ≤ a)
    (hlt : a < physBase) (x : UInt8) : ∃ s', userStore a x s = .ok ((), s') ∧ MemOnly s s' := by
  have hload := userLoad_spec h ha hlt
  rw [userLoad, bind_run, get_run, ok_bind] at hload
  rw [userStore, bind_run, get_run, ok_bind]
  cases htr : s.translate a with
  | none =>
    rw [htr] at hload
    cases hload
  | some r =>
    obtain ⟨page, w⟩ := r
    exact ⟨_, rfl, _, rfl⟩

theorem copyOut_ok {bytes : List UInt8} {a : Nat} (h : Loading s0 s pd (stackView m))
    (ha : stackBase ≤ a) (hlt : a + bytes.length ≤ physBase) :
    ∃ s', copyOut a bytes s = .ok ((), s') ∧ MemOnly s s' := by
  induction bytes generalizing s m a with
  | nil => exact ⟨s, rfl, s.mem, rfl⟩
  | cons x bytes ih =>
    rw [List.length_cons] at hlt
    obtain ⟨s1, he1, hm1⟩ := userStore_ok h ha (by omega) x
    obtain ⟨-, -, h1⟩ := (userStore_spec h a x).ok he1
    obtain ⟨s2, he2, hm2⟩ := ih h1 (Nat.le_succ_of_le ha) (by omega)
    refine ⟨s2, ?_, hm1.trans hm2⟩
    rw [copyOut, bind_run, he1]
    exact he2

/-- A push goes through where the abstract one does. -/
theorem push_ok {bytes : List UInt8} (h : Loading s0 s pd (stackView m)) (h2 : esp ≤ physBase)
    {m' : Buffer} {esp' : Nat} (hp : pushBytes m esp bytes = some (m', esp')) :
    ∃ s', push esp bytes s = .ok (esp', s') ∧ MemOnly s s' ∧ esp' ≤ physBase ∧
      Loading s0 s' pd (stackView m') := by
  obtain ⟨hle, he⟩ := pushBytes_some hp
  cases he
  have hsub : sub32 esp bytes.length = esp - bytes.length := by
    simp only [sub32, stackBase, physBase, pgSize] at *
    omega
  obtain ⟨s', he, hm⟩ := @copyOut_ok _ _ _ m bytes (esp - bytes.length) h (by omega) (by omega)
  obtain ⟨-, hl⟩ := (copyOut_spec h).ok he
  refine ⟨s', ?_, hm, by omega, hl⟩
  rw [push, hsub, bind_run, he]
  rfl

theorem pushStrings_ok {L : List CString} (h : Loading s0 s pd (stackView m)) (h2 : esp ≤ physBase)
    {m' : Buffer} {esp' : Nat} {argv : List Nat}
    (hp : stackStrings L m esp = some ((m', esp'), argv)) :
    ∃ s', pushStrings (L.map .str) esp s = .ok ((esp', argv), s') ∧ MemOnly s s' ∧
      esp' ≤ physBase ∧ Loading s0 s' pd (stackView m') := by
  induction L generalizing m' esp' argv with
  | nil =>
    cases hp
    exact ⟨s, rfl, ⟨s.mem, rfl⟩, h2, h⟩
  | cons c L ih =>
    simp only [stackStrings, Option.bind_eq_bind, Option.bind_eq_some_iff] at hp
    obtain ⟨⟨⟨m1, esp1⟩, argv1⟩, hst, ⟨m2, esp2⟩, hpush, he⟩ := hp
    cases he
    obtain ⟨s1, he1, hm1, hle1, hl1⟩ := ih hst
    obtain ⟨s2, he2, hm2, hle2, hl2⟩ := push_ok hl1 hle1 hpush
    refine ⟨s2, ?_, hm1.trans hm2, hle2, hl2⟩
    have hlen : ¬ 2 ^ 26 ≤ strlen c := by
      obtain ⟨hle, -⟩ := pushBytes_some hpush
      simp only [List.length_append, List.length_singleton, stackBase, physBase, pgSize, strlen] at *
      omega
    rw [List.map_cons, pushStrings, bind_run, he1]
    simp only [ok_bind, if_neg hlen]
    rw [bind_run, he2]
    rfl

theorem pushWords_ok {ws : List Nat} (h : Loading s0 s pd (stackView m)) (h2 : esp ≤ physBase)
    {m' : Buffer} {esp' : Nat} (hp : stackWords ws m esp = some (m', esp')) :
    ∃ s', pushWords ws esp s = .ok (esp', s') ∧ MemOnly s s' ∧ esp' ≤ physBase ∧
      Loading s0 s' pd (stackView m') := by
  induction ws generalizing m' esp' with
  | nil =>
    cases hp
    exact ⟨s, rfl, ⟨s.mem, rfl⟩, h2, h⟩
  | cons x ws ih =>
    simp only [stackWords, Option.bind_eq_bind, Option.bind_eq_some_iff] at hp
    obtain ⟨⟨m1, esp1⟩, hst, hpush⟩ := hp
    obtain ⟨s1, he1, hm1, hle1, hl1⟩ := ih hst
    obtain ⟨s2, he2, hm2, hle2, hl2⟩ := push_ok hl1 hle1 hpush
    refine ⟨s2, ?_, hm1.trans hm2, hle2, hl2⟩
    rw [pushWords, bind_run, he1]
    exact he2

theorem pushBytes_nil (h : stackBase ≤ esp) : pushBytes m esp [] = some (m, esp) := by
  rw [pushBytes, if_pos (by simpa using h), putBytes_nil]
  rfl

theorem stackStrings_base {L : List CString} (h1 : stackBase ≤ esp) {r : (Buffer × Nat) × List Nat}
    (hp : stackStrings L m esp = some r) : stackBase ≤ r.1.2 := by
  cases L with
  | nil =>
    cases hp
    exact h1
  | cons c L =>
    simp only [stackStrings, Option.bind_eq_bind, Option.bind_eq_some_iff] at hp
    obtain ⟨r1, -, r2, hpush, he⟩ := hp
    cases he
    obtain ⟨hle, rfl⟩ := pushBytes_some hpush
    simp only
    omega

theorem roundEsp_ok (h : Loading s0 s pd (stackView m)) (h1 : stackBase ≤ esp)
    (h2 : esp ≤ physBase) {m' : Buffer} {esp' : Nat}
    (hp : pushBytes m esp (List.replicate (esp % 4) 0) = some (m', esp')) :
    ∃ s', roundEsp esp s = .ok (esp', s') ∧ MemOnly s s' ∧ esp' ≤ physBase ∧
      Loading s0 s' pd (stackView m') := by
  unfold roundEsp
  split
  · exact push_ok h h2 hp
  · next hz =>
    rw [show esp % 4 = 0 by omega, List.replicate_zero, pushBytes_nil h1] at hp
    cases hp
    exact ⟨s, rfl, ⟨s.mem, rfl⟩, h2, h⟩

/-- The pushes of `setup_stack` go through when the stack fits on its page. -/
theorem pushArguments_ok {L : List CString} {stale : Stale} (h : Loading s0 s pd (stackView zeros))
    {m' : Buffer} {esp' : Nat} (hp : stackImage L (stale.argv L.length) = some (m', esp')) :
    ∃ s', pushArguments (L.map .str) stale physBase s = .ok (esp', s') ∧ MemOnly s s' := by
  simp only [stackImage, Option.bind_eq_bind, Option.bind_eq_some_iff] at hp
  obtain ⟨⟨⟨m1, esp1⟩, argv⟩, hp1, ⟨m2, esp2⟩, hp2, ⟨m3, esp3⟩, hp3, ⟨m4, esp4⟩, hp4, ⟨m5, esp5⟩, hp5,
    ⟨m6, esp6⟩, hp6, hp7⟩ := hp
  have hbase1 := stackStrings_base (by decide) hp1
  obtain ⟨s1, he1, hm1, hle1, hl1⟩ := pushStrings_ok h le_rfl hp1
  obtain ⟨s2, he2, hm2, hle2, hl2⟩ := roundEsp_ok hl1 hbase1 hle1 hp2
  obtain ⟨s3, he3, hm3, hle3, hl3⟩ := push_ok hl2 hle2 hp3
  obtain ⟨s4, he4, hm4, hle4, hl4⟩ := pushWords_ok hl3 hle3 hp4
  obtain ⟨s5, he5, hm5, hle5, hl5⟩ := push_ok hl4 hle4 hp5
  obtain ⟨s6, he6, hm6, hle6, hl6⟩ := push_ok hl5 hle5 hp6
  obtain ⟨s7, he7, hm7, -, -⟩ := push_ok hl6 hle6 hp7
  have hesp3 : stackBase ≤ esp3 ∧ esp3 + 4 ≤ physBase := by
    obtain ⟨hle, he⟩ := pushBytes_some hp3
    rw [wordBytes_length] at hle he
    have := congrArg Prod.snd he
    simp only [stackBase, physBase, pgSize] at *
    omega
  have hload : ∀ i < 4, userLoad (esp3 + i) s6 = .ok (m6 (esp3 + i), s6) :=
    fun i hi => userLoad_spec hl6 (by omega) (by omega)
  have hload0 : userLoad esp3 s6 = .ok (m6 esp3, s6) := hload 0 (by decide)
  refine ⟨s7, ?_, hm1.trans (hm2.trans (hm3.trans (hm4.trans (hm5.trans (hm6.trans hm7)))))⟩
  rw [pushArguments, bind_run, he1]
  simp only [ok_bind, List.length_map]
  rw [bind_run, he2, ok_bind, bind_run, he3, ok_bind, bind_run, he4, ok_bind, bind_run, he5, ok_bind,
    bind_run, he6, ok_bind, bind_run, hload0, ok_bind, bind_run, hload 1 (by decide), ok_bind,
    bind_run, hload 2 (by decide), ok_bind, bind_run, hload 3 (by decide), ok_bind]
  exact he7

/-- **`setup_stack`** succeeds when it gets its page and there is a page table for it. -/
theorem setupStack_ok {ws : List Word} {stale : Stale} (h : Loading s0 s pd fun _ => none) {k : Nat}
    {s1 : Vm} (hget : pallocGetPage .user true s = .ok (some k, s1)) (hno : ¬ Refused s1) {argc : Nat}
    (hc : countArgs ws = some argc) {L : List CString} (hL : ws.take argc = L.map .str) {m' : Buffer}
    {esp' : Nat} (hst : stackImage L (stale.argv L.length) = some (m', esp')) :
    ∃ s2 s3, installPage (physBase - pgSize) k true s1 = .ok (true, s2) ∧
      setupStack ws stale s = .ok (some esp', s3) ∧ MemOnly s2 s3 := by
  rcases h.stack_page with he | ⟨k', s1', he, ⟨-, -, -, -, -, hc⟩ | ⟨s2, he2, hl2⟩⟩
  · rw [hget] at he
    cases he
  · rw [hget] at he
    cases he
    exact absurd hc hno
  · rw [hget] at he
    cases he
    obtain ⟨s3, he3, hm⟩ := pushArguments_ok hl2 hst
    refine ⟨s2, s3, he2, ?_, hm⟩
    rw [setupStack, bind_run, hget]
    simp only [ok_bind]
    rw [bind_run, he2]
    simp only [ok_bind, if_true]
    rw [setupStack.go, hc]
    simp only
    rw [bind_run, hL, he3]
    rfl

/-! ## Segments -/

/-- A page is granted when the answer of the allocator is a free page. -/
theorem pallocGetPage_granted {p : PoolId} {zero : Bool} {i : Nat} (ha : s.answers.headD none = some i)
    (hi : i < s.size p) (hu : s.used p i = false) :
    ∃ s', pallocGetPage p zero s = .ok (some (s.page p i), s') := by
  rw [pallocGetPage, bind_run, get_run, ok_bind, ha]
  simp only
  rw [if_pos ⟨hi, hu⟩]
  exact ⟨_, rfl⟩

theorem not_refused {i : Nat} (ha : s.answers.headD none = some i) (hi : i < s.size .kernel)
    (hu : s.used .kernel i = false) : ¬ Refused s := by
  rintro ⟨s', he⟩
  obtain ⟨s1, he1⟩ := @pallocGetPage_granted s .kernel true i ha hi hu
  rw [he] at he1
  cases he1

/-- **A round of `load_segment`** succeeds when there is a page, and one for the page table. -/
theorem loadPage_ok (h : Loading s0 s pd V) (f : Image) {va n i j : Nat} {l : List (Option Nat)}
    (hu : isUserVaddr va = true) (hofs : pgOfs va = 0) (w : Bool) (hV : V (pgNo va) = none)
    (hreads : s.reads = []) (hlen : s.pos + n ≤ f.length)
    (ha : s.answers = some i :: some j :: l) (hi : i < s.size .user) (hui : s.used .user i = false)
    (hj : j < s.size .kernel) (huj : s.used .kernel j = false) :
    ∃ s', loadPage f va n w s = .ok (true, s') := by
  obtain ⟨⟨T, held, hs, hl, hsh⟩, hpd⟩ := h
  have hget : pallocGetPage .user false s = .ok (some (s.page .user i),
      { s with
        answers := some j :: l
        pool := (s.setUsed .user i true).pool
        obtained := s.obtained ++ [s.page .user i] }) := by
    rw [pallocGetPage, bind_run, get_run, ok_bind, ha]
    simp only [List.headD_cons]
    rw [if_pos ⟨hi, hui⟩]
    rfl
  rcases hs.get_loose hl false with he | ⟨k, s1, he, hs1, hk1, -⟩
  · rw [hget] at he
    cases he
  have hfree : s1.answers = some j :: l ∧ s1.size .kernel = s.size .kernel ∧
      s1.used .kernel j = false := by
    rw [hget] at he
    cases he
    refine ⟨rfl, (setUsed_same s .user i true).size .kernel, ?_⟩
    apply (setUsed_used s hi true .kernel j).trans
    rw [if_neg (by simp), huj]
  suffices hwp : Wp (fun _ => False) (loadPage f va n w) (fun b _ => b = true) s by
    obtain ⟨b, s', he, rfl⟩ := hwp.total
    exact ⟨s', he⟩
  unfold loadPage
  rw [wp_bind, wp_of_ok he]
  simp only
  rw [wp_bind, wp_get, wp_bind, fileRead, wp_bind, wp_get, wp_bind, wp_set, wp_pure]
  have hn : min (min n (f.length - s1.pos)) (s1.reads.headD n) = n := by
    rw [hk1.reads, hk1.pos, hreads, List.headD_nil]
    omega
  simp only [hn]
  rw [wp_bind, wp_modify]
  simp only [ne_eq, not_true, if_false]
  rw [wp_bind, wp_modify]
  have hloose : (T.set .loose (some k)).addr .loose = some k := T.set_self ..
  have hs2 := (hs1.inputs s1.answers (s1.pos + n) s1.reads.tail).store hloose rfl
    (memcpy (s1.mem k) 0 f.byte s1.pos n)
  have hs3 := hs2.store hloose rfl (memcpy (({ s1 with pos := s1.pos + n, reads := s1.reads.tail
      }.setPage k (memcpy (s1.mem k) 0 f.byte s1.pos n)).mem k) n zeros 0 (pgSize - n))
  rw [wp_bind]
  rcases hs3.install_page (hk1.pagedir.trans hpd) hu hofs hloose w with ⟨-, -, -, -, hc⟩ | ⟨s4, -, -,
    he4, -⟩
  · exfalso
    rcases hc with hc | hc
    · exact hc ((T.set_of_ne (by simp) _).trans ((hsh.none_iff _).mp hV))
    · refine absurd hc (not_refused (i := j) ?_ ?_ ?_)
      · show s1.answers.headD none = some j
        rw [hfree.1]
        rfl
      · exact Nat.lt_of_lt_of_eq hj hfree.2.1.symm
      · exact hfree.2.2
  · rw [wp_of_ok he4]
    simp only [if_true]
    rw [wp_pure]

end

/-! ## A run -/

/-- An executable of one segment: 84 bytes of the file and 16 more, at 0x08048000. -/
def tinyBytes : List UInt8 :=
  [0x7f, 0x45, 0x4c, 0x46, 1, 1, 1, 0, 0, 0, 0, 0, 0, 0, 0, 0,
   2, 0, 3, 0, 1, 0, 0, 0, 0x54, 0x80, 0x04, 0x08, 52, 0, 0, 0,
   0, 0, 0, 0, 0, 0, 0, 0, 52, 0, 32, 0, 1, 0, 0, 0, 0, 0, 0, 0,
   1, 0, 0, 0, 0, 0, 0, 0, 0x00, 0x80, 0x04, 0x08, 0, 0, 0, 0,
   84, 0, 0, 0, 100, 0, 0, 0, 5, 0, 0, 0, 0, 0x10, 0, 0]

def tinyElf : Image where
  length := tinyBytes.length
  byte i := tinyBytes.getD i 0
  length_lt := by decide

def tinyPhdr : Phdr := ⟨1, 0, 0x08048000, 84, 100, 5⟩

theorem tinyElf_segment {s s0 : Vm} {pd : Nat} {m : Buffer} {i j : Nat} {l : List (Option Nat)}
    (h : Loading s0 s pd (stackView m)) (hreads : s.reads = [])
    (ha : s.answers = some i :: some j :: l) (hi : i < s.size .user) (hui : s.used .user i = false)
    (hj : j < s.size .kernel) (huj : s.used .kernel j = false) :
    ∃ s', loadHeaders tinyElf 1 52 s = .ok (true, s') := by
  obtain ⟨s', he⟩ := @loadPage_ok _ _ _ _ (h.file 0 []) tinyElf 0x08048000 84 _ _ _ (by decide)
    (by decide) false (if_neg (by decide)) rfl (Nat.le_of_ble_eq_true rfl) ha hi hui hj huj
  refine ⟨s', ?_⟩
  rw [loadHeaders, if_neg (by decide), bind_run, fileSeek, modify_run, ok_bind, bind_run, fileRead,
    bind_run, get_run, ok_bind]
  simp only [hreads, List.headD_nil, List.tail_nil]
  rw [bind_run, set_run, ok_bind, pure_run, ok_bind]
  have hgot : min (min phdrSize (tinyElf.length - Int.toNat 52)) phdrSize = phdrSize := by decide
  rw [hgot]
  have hph : phdrOf (memcpy zeros 0 tinyElf.byte (Int.toNat 52) phdrSize) = tinyPhdr := by decide
  rw [if_neg (by simp), hph, if_neg (by decide), if_pos (by decide), bind_run, loadHeader,
    if_pos (by decide)]
  show ((loadSegment tinyElf 0 0x08048000 84 4012 false { s with pos := 84, reads := [] }).bind _) = _
  rw [loadSegment, bind_run, assert_run (by decide), ok_bind, bind_run, assert_run (by decide),
    ok_bind, bind_run, assert_run (by decide), ok_bind, bind_run, fileSeek, modify_run, ok_bind,
    loadPages, if_neg (by decide)]
  simp only
  rw [bind_run]
  show (((loadPage tinyElf 0x08048000 84 false { s with pos := 0, reads := [] }).bind _).bind _) = _
  rw [he]
  rfl

def echo : CString := ⟨[101, 99, 104, 111], by decide⟩

/-- What lies in the arrays: null pointers behind the command line, and the given words. -/
def nullStale (argv : Nat → UInt32) : Stale := ⟨fun _ => .null, argv⟩

theorem tinyElf_loads (argv : Nat → UInt32) : ∃ s',
    load [echo] (nullStale argv) (some tinyElf) (bootVm [some 1, some 0, some 2, some 1, some 3]) =
      .ok (some (0x08048054, 0xbfffffe4), s') := by
  have hcreate : pagedirCreate (bootVm [some 1, some 0, some 2, some 1, some 3]) =
      .ok (some (physBase + 8192), _) := rfl
  rcases (bootVm_boot [some 1, some 0, some 2, some 1, some 3]).create with he | ⟨pd, s1, he, hl1⟩
  · rw [hcreate] at he
    cases he
  rw [hcreate] at he
  cases he
  have hst : ∃ m, stackImage [echo] (argv 1) = some (m, 0xbfffffe4) := ⟨_, rfl⟩
  obtain ⟨m, hst⟩ := hst
  obtain ⟨s2, s3, he2, he3, hm⟩ := @setupStack_ok _ _ _ (argumentsOf [echo] (nullStale argv))
    (nullStale argv) hl1 _ _ rfl (not_refused (i := 2) rfl (by decide) rfl) 1 rfl [echo] rfl _ _ hst
  have hfacts := congrArg (fun r => r.toOption.map fun p => (p.2.answers, p.2.reads, p.2.size .user,
    p.2.used .user 1, p.2.size .kernel, p.2.used .kernel 3)) he2
  have hs2 : ([some 1, some 3], [], 5, false, 5, false) = (s2.answers, s2.reads, s2.size .user,
    s2.used .user 1, s2.size .kernel, s2.used .kernel 3) := Option.some.inj hfacts
  simp only [Prod.mk.injEq] at hs2
  obtain ⟨ha, hr, hu, hu1, hk, hk3⟩ := hs2
  obtain ⟨-, hr3⟩ := (setupStack_spec hl1).ok he3
  obtain ⟨-, -, m', -, -, -, hl3⟩ := hr3 _ rfl
  obtain ⟨mem, rfl⟩ := hm
  obtain ⟨s4, he4⟩ := tinyElf_segment (i := 1) (j := 3) (l := []) (hl3.file (0 + ehdrSize) []) rfl ha.symm
    (Nat.lt_of_lt_of_eq (by decide) hu) hu1.symm (Nat.lt_of_lt_of_eq (by decide) hk) hk3.symm
  refine ⟨s4, ?_⟩
  simp only at he4
  rw [load, if_neg (by decide), bind_run, hcreate, ok_bind, bind_run, modify_run, ok_bind]
  simp only
  rw [bind_run, he3, ok_bind]
  simp only
  rw [bind_run, fileSeek, modify_run, ok_bind, bind_run, fileRead, bind_run, get_run, ok_bind, ← hr]
  simp only [List.headD_nil, List.tail_nil]
  rw [bind_run, set_run, ok_bind, pure_run, ok_bind]
  have hgot : min (min ehdrSize (tinyElf.length - 0)) ehdrSize = ehdrSize := by decide
  have hok : ehdrOk (memcpy zeros 0 tinyElf.byte 0 ehdrSize) = true := by decide
  rw [hgot, if_neg fun hc => hc.elim (fun h => h rfl) fun h => absurd (hok.symm.trans h) (by decide),
    bind_run]
  simp only
  have hnum : ehdrPhnum (memcpy zeros 0 tinyElf.byte 0 ehdrSize) = 1 := by decide
  have hoff : asInt32 (ehdrPhoff (memcpy zeros 0 tinyElf.byte 0 ehdrSize)) = 52 := by decide
  have hentry : ehdrEntry (memcpy zeros 0 tinyElf.byte 0 ehdrSize) = 0x08048054 := by decide
  rw [hnum, hoff, hentry, he4]
  rfl

end Pintos.Userprog.Loader
