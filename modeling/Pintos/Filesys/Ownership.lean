import Pintos.Filesys.Format

/-!
# Who owns the sectors over whole runs

The file system as a transition system: one call at a time, with any arguments, any
answers of the allocator and anything on the stack. From a formatted disk on, no
sector has two owners, a removed file keeps its sectors while it has a handle and
gives them up once, with the last one.
-/

namespace Pintos.Filesys

open Pintos.Base Pintos.Kernel

inductive Call where
  | create (name : CString) (initialSize : Int)
  | open (name : CString)
  | remove (name : CString)
  | write (file : Ptr) (buffer : Buffer) (size : Int)
  | close (file : Option Ptr)

/-- A call, with the answers of the allocator to it and what its stack holds. -/
structure Op where
  call : Call
  mem : List Bool
  stack : Buffer

inductive Ret where
  | bool (b : Bool)
  | file (f : Option Ptr)
  | count (n : Nat)
  | done

def fsCall (stack : Buffer) : Call → M Ret
  | .create name initialSize => do
    let b ← filesysCreate name initialSize stack
    pure (.bool b)
  | .open name => do
    let f ← filesysOpen name stack
    pure (.file f)
  | .remove name => do
    let b ← filesysRemove name stack
    pure (.bool b)
  | .write file buffer size => do
    let n ← fileWrite file buffer size
    pure (.count n)
  | .close file => do
    fileClose file
    pure .done

def Op.run (op : Op) (s : Fs) : Except Panic (Ret × Fs) :=
  fsCall op.stack op.call { s with mem := op.mem }

def fsStep (s : Fs) (op : Op) : Option Fs :=
  match op.run s with
  | .ok (_, s') => some s'
  | .error _ => none

/-- Sizes are of type `off_t`, and files are handles the callers have. -/
def Allowed (s : Fs) (op : Op) : Prop :=
  match op.call with
  | .create _ initialSize => -2 ^ 31 ≤ initialSize ∧ initialSize < 2 ^ 31
  | .open _ => True
  | .remove _ => True
  | .write file _ size => (∃ f, IsHandle s f ∧ f.addr = file) ∧ -2 ^ 31 ≤ size ∧ size < 2 ^ 31
  | .close none => True
  | .close (some file) => ∃ f, IsHandle s f ∧ f.addr = file

/-- Some file is open on the inode. -/
def HasHandle (s : Fs) (n : Inode) : Prop := ∃ f ∈ s.files, f.inode = n.addr

section

variable {s s' : Fs}

theorem hasHandle_iff {n : Inode} : HasHandle s n ↔ 0 < fileRefs s.files n.addr := by
  unfold HasHandle fileRefs
  rw [List.countP_pos_iff]
  simp only [beq_iff_eq]

/-- The last handle on a removed file gives up its sectors, each once. -/
def LastClose (s s' : Fs) : Prop := ∀ n ∈ s.openInodes, n.removed = true → ¬ HasHandle s' n →
  s'.released = s.released ++ [(n.sector, 1), (n.data.start, bytesToSectors n.data.length)] ∧
    ∀ t, Extent s.disk n.sector t → bitmapTest s'.freeMap t = false

theorem lastClose_of_le (h : Ready s) (hle : ∀ p, fileRefs s.files p ≤ fileRefs s'.files p) :
    LastClose s s' := by
  intro n hn _ hno
  have hpos := (h.inv.count n hn).2
  exact absurd (hasHandle_iff.mpr (Nat.lt_of_lt_of_le hpos (hle _))) hno

theorem Ready.setMem (h : Ready s) (mem : List Bool) : Ready { s with mem := mem } :=
  ⟨h.inv.setMem mem, h.root⟩

theorem Effect.clear (he : Effect s s') {l : List (Nat × Nat)} (hl : s'.released = s.released ++ l)
    {r : Nat × Nat} (hr : r ∈ l) {t : Nat} (h1 : r.1 ≤ t) (h2 : t < r.1 + r.2) :
    bitmapTest s'.freeMap t = false := by
  obtain ⟨l', hl', hfree⟩ := he.log
  obtain rfl := List.append_cancel_left (hl.symm.trans hl')
  exact hfree r hr t h1 h2

/-- `file_close` gives up the sectors of a removed file with its last handle. -/
theorem Ready.close_last (h : Ready s) {f : File} (hf : f ∈ s.files) {n : Inode}
    (hn : n ∈ s.openInodes) (haddr : n.addr = f.inode)
    (he : Effect s (dropFile (afterClose s n) f.addr)) :
    LastClose s (dropFile (afterClose s n) f.addr) := by
  intro m hm hr hno
  have hfiles : (dropFile (afterClose s n) f.addr).files =
      s.files.filter fun g => g.addr ≠ f.addr := by
    unfold dropFile
    rw [(afterClose_files s n).1]
  have hrefs := fileRefs_filter h.inv.file_addrs hf
  have hzero : fileRefs (s.files.filter fun g => g.addr ≠ f.addr) m.addr = 0 := by
    have := mt hasHandle_iff.mpr hno
    rw [hfiles] at this
    omega
  have hm1 : m.addr = f.inode := by
    by_contra hne
    have hpos := (h.inv.count m hm).2
    rw [hrefs, addRef_of_ne _ hne] at hpos
    omega
  obtain rfl := h.inv.inode_ext hn hm (haddr.trans hm1.symm)
  have hlast : n.openCnt - 1 = 0 := by
    have := (h.inv.count n hn).1
    rw [hrefs, ← haddr, addRef_self, hzero] at this
    omega
  have hrel : (dropFile (afterClose s n) f.addr).released =
      s.released ++ [(n.sector, 1), (n.data.start, bytesToSectors n.data.length)] :=
    afterClose_last hr hlast
  refine ⟨hrel, fun t ht => ?_⟩
  rw [Extent, ← h.inv.data n hn] at ht
  rcases ht with rfl | ht
  · exact he.clear hrel List.mem_cons_self (Nat.le_refl _) (Nat.lt_succ_self _)
  · exact he.clear hrel (List.mem_cons_of_mem _ List.mem_cons_self) ht.1 ht.2

/-- What every call does, and what it says about removal. -/
structure CallOutcome (s s' : Fs) (c : Call) (r : Ret) : Prop where
  effect : Effect s s'
  last : LastClose s s'
  remove : ∀ name, c = .remove name → r = .bool true → ∃ x, Removed s s' x

theorem Ready.call (h : Ready s) (stack : Buffer) {c : Call} (mem : List Bool)
    (hok : Allowed s ⟨c, mem, stack⟩) :
    (∃ r s', fsCall stack c s = .ok (r, s') ∧ CallOutcome s s' c r) ∨
      (fsCall stack c s = .error .length ∧ ∃ name size, c = .create name size ∧ size < 0) := by
  cases c with
  | create name size =>
    simp only [fsCall, bind_run]
    by_cases h0 : 0 ≤ size
    · obtain ⟨ok, s', hrun, he, hfiles, -, -⟩ := h.create_run h0 hok.2 name stack
      refine .inl ⟨.bool ok, s', by rw [hrun]; rfl, he, lastClose_of_le h fun p => ?_, by simp⟩
      rw [hfiles]
    · rcases h.create_negative (Int.not_le.mp h0) name stack with
        ⟨-, hrun⟩ | ⟨-, s', hrun, he, hfiles⟩
      · exact .inr ⟨by rw [hrun]; rfl, name, size, rfl, Int.not_le.mp h0⟩
      · refine .inl ⟨.bool false, s', by rw [hrun]; rfl, he, lastClose_of_le h fun p => ?_, by simp⟩
        rw [hfiles]
  | «open» name =>
    obtain ⟨f, s', hrun, he, -, hle⟩ := h.open_run name stack
    refine .inl ⟨.file f, s', ?_, he, lastClose_of_le h hle, by simp⟩
    simp only [fsCall, bind_run, hrun, ok_bind, pure_run]
  | remove name =>
    obtain ⟨ok, s', hrun, he, hfiles, hout⟩ := h.remove_run name stack
    refine .inl ⟨.bool ok, s', ?_, he, lastClose_of_le h fun p => ?_, fun _ _ hr => ?_⟩
    · simp only [fsCall, bind_run, hrun, ok_bind, pure_run]
    · rw [hfiles]
    · cases hr
      exact hout
  | write file buffer size =>
    obtain ⟨⟨f, hf, rfl⟩, -⟩ := hok
    obtain ⟨n, s', hrun, he, -, hrefs⟩ := h.write_run hf.1 buffer size
    refine .inl ⟨.count n, s', ?_, he, lastClose_of_le h fun p => ?_, by simp⟩
    · simp only [fsCall, bind_run, hrun, ok_bind, pure_run]
    · rw [hrefs]
  | close file =>
    cases file with
    | none =>
      have he : Effect s s := h.noRoot (Nat.le_refl _) s.mem
      exact .inl ⟨.done, s, rfl, he, lastClose_of_le h fun _ => Nat.le_refl _, by simp⟩
    | some file =>
      obtain ⟨f, hf, rfl⟩ := hok
      obtain ⟨n, hn, haddr, hrun, he⟩ := h.close_run hf
      refine .inl ⟨.done, _, ?_, he, h.close_last hf.1 hn haddr he, by simp⟩
      simp only [fsCall, bind_run, hrun, ok_bind, pure_run]

/-- A call between two states, whatever the answers of the allocator. -/
theorem Ready.run (h : Ready s) {op : Op} (hok : Allowed s op) :
    (∃ r s', op.run s = .ok (r, s') ∧ CallOutcome s s' op.call r) ∨
      (op.run s = .error .length ∧ ∃ name size, op.call = .create name size ∧ size < 0) := by
  apply ((h.setMem op.mem).call op.stack op.mem hok).imp_left
  rintro ⟨r, s', hrun, hout⟩
  have he := hout.effect
  refine ⟨r, s', hrun, ⟨he.ready, ⟨he.evolves.next_le, he.evolves.inode⟩, he.log, he.fresh⟩,
    hout.last, fun name hc hr => ?_⟩
  obtain ⟨x, hx⟩ := hout.remove name hc hr
  exact ⟨x, hx.named, hx.unnamed, hx.opened, hx.closed⟩

theorem fsStep_eq_some {op : Op} (h : fsStep s op = some s') : ∃ r, op.run s = .ok (r, s') := by
  unfold fsStep at h
  split at h
  · next r s1 hrun =>
    cases h
    exact ⟨r, hrun⟩
  · cases h

theorem Ready.step (h : Ready s) {op : Op} (hok : Allowed s op) (hs : fsStep s op = some s') :
    Effect s s' := by
  obtain ⟨r, hrun⟩ := fsStep_eq_some hs
  rcases h.run hok with ⟨r', s1, hrun', hout⟩ | ⟨hrun', -⟩
  · cases hrun.symm.trans hrun'
    exact hout.effect
  · cases hrun.symm.trans hrun'

theorem Ready.reach (h : Ready s) (hr : Reach fsStep Allowed s s') : Ready s' :=
  hr.invariant h fun _ _ _ hs hok hstep => (hs.step hok hstep).ready

/-- While a removed file is open its sectors are not released. -/
structure Spared (s s' : Fs) : Prop where
  evolves : Evolves s s'
  log : ∃ l, s'.released = s.released ++ l ∧ ∀ n ∈ s.openInodes, n.removed = true →
    (∃ n' ∈ s'.openInodes, n'.addr = n.addr) →
      ∀ r ∈ l, ∀ t, Extent s.disk n.sector t → ¬ (r.1 ≤ t ∧ t < r.1 + r.2)

/-- The inode of a removed file and its sectors are the same as long as it is open. -/
theorem Ready.same_extent (h : Ready s) (h' : Ready s') (he : Evolves s s') {n n' : Inode}
    (hn : n ∈ s.openInodes) (hn' : n' ∈ s'.openInodes) (haddr : n'.addr = n.addr) {t : Nat}
    (ht : Extent s.disk n.sector t) : Extent s'.disk n'.sector t := by
  obtain ⟨n0, hn0, h1, h2, h3, -⟩ := he.inode n' hn' (haddr ▸ h.inv.fresh n hn)
  obtain rfl := h.inv.inode_ext hn0 hn (h1.trans haddr)
  rw [Extent, ← h.inv.data n0 hn] at ht
  rw [Extent, ← h'.inv.data n' hn', ← h2, ← h3]
  exact ht

theorem Ready.spared (h : Ready s) (hr : Reach fsStep Allowed s s') : Ready s' ∧ Spared s s' := by
  -- Along the run: what a call releases is free after it, and the sectors of an open file are marked.
  refine hr.invariant (I := fun s' => Ready s' ∧ Spared s s') ⟨h, Evolves.rfl s, [],
    (List.append_nil _).symm, fun _ _ _ _ r hr => by cases hr⟩ fun s1 op s2 hs1 hok hstep => ?_
  obtain ⟨hready, hev, l, hl, hkept⟩ := hs1
  have he := hready.step hok hstep
  obtain ⟨l', hl', hfree⟩ := he.log
  refine ⟨he.ready, hev.trans he.evolves, l ++ l', ?_, fun n hn hrem hopen r hr t ht hcov => ?_⟩
  · rw [hl', hl, List.append_assoc]
  · obtain ⟨n2, hn2, haddr⟩ := hopen
    rcases List.mem_append.mp hr with hr | hr
    · obtain ⟨n1, hn1, haddr1, -⟩ := he.evolves.inode n2 hn2
        (haddr ▸ Nat.lt_of_lt_of_le (h.inv.fresh n hn) hev.next_le)
      exact hkept n hn hrem ⟨n1, hn1, haddr1.trans haddr⟩ r hr t ht hcov
    · have hext := h.same_extent he.ready (hev.trans he.evolves) hn hn2 haddr ht
      have hmark := he.ready.inv.layout.owns.marked _ _ (he.ready.inv.live hn2) hext
      rw [hfree r hr t hcov.1 hcov.2] at hmark
      cases hmark

end

/-- **Sector ownership**: on every run from a formatted disk, the sectors of the free map
file, the root directory, the named and the open files are marked and no two of them
share one. No call stops the kernel but `filesys_create` with a negative size; a file
gets a name with sectors that were free; a removed file keeps its sectors, unreleased,
while it has a handle, and the call that takes away the last one releases each once. -/
theorem sector_ownership {capacity : Nat} {lba28 : capacity ≤ 2 ^ 28} {disk : Disk} {mem : List Bool}
    {s₀ s : Fs} (hinit : filesysInit (bootState capacity lba28 disk mem) = .ok ((), s₀))
    (hrun : Reach fsStep Allowed s₀ s) :
    Owns (Live s.disk (Opened s.openInodes)) (Extent s.disk)
        (fun t => bitmapTest s.freeMap t = true) ∧
      (∀ op, Allowed s op →
        (∀ e, op.run s = .error e → e = .length ∧ ∃ name size, op.call = .create name size ∧ size < 0) ∧
        ∀ r s', op.run s = .ok (r, s') → Fresh s s' ∧ LastClose s s' ∧
          ∀ name, op.call = .remove name → r = .bool true → ∃ x, Removed s s' x) ∧
      ∀ s', Reach fsStep Allowed s s' → ∀ n ∈ s.openInodes, n.removed = true → HasHandle s' n →
        ∀ t, Extent s.disk n.sector t → bitmapTest s'.freeMap t = true ∧
          ∃ l, s'.released = s.released ++ l ∧ ∀ r ∈ l, ¬ (r.1 ≤ t ∧ t < r.1 + r.2) := by
  have h := (filesysInit_ready hinit).reach hrun
  refine ⟨h.inv.layout.owns, fun op hok => ⟨fun e he => ?_, fun r s' hrun' => ?_⟩, ?_⟩
  · rcases h.run hok with ⟨r', s1, hrun1, -⟩ | ⟨hrun1, hneg⟩
    · cases he.symm.trans hrun1
    · cases he.symm.trans hrun1
      exact ⟨rfl, hneg⟩
  · rcases h.run hok with ⟨r', s1, hrun1, hout⟩ | ⟨hrun1, -⟩
    · cases hrun'.symm.trans hrun1
      exact ⟨hout.effect.fresh, hout.last, hout.remove⟩
    · cases hrun'.symm.trans hrun1
  · intro s' hr n hn hrem hhandle t ht
    obtain ⟨hready, hev, l, hl, hkept⟩ := h.spared hr
    obtain ⟨n', hn', haddr⟩ := hready.inv.refs_open n.addr (hasHandle_iff.mp hhandle)
    refine ⟨?_, l, hl, fun r hr' => hkept n hn hrem ⟨n', hn', haddr⟩ r hr' t ht⟩
    exact hready.inv.layout.owns.marked _ _ (hready.inv.live hn')
      (h.same_extent hready hev hn hn' haddr ht)

/-- A blank disk of eight sectors. -/
def blankDisk : Fs := bootState 8 (by decide) (fun _ => zeros) []

/-- The same disk formatted. -/
def smallDisk : Fs :=
  match filesysInit blankDisk with
  | .ok (_, s) => s
  | .error _ => blankDisk

theorem smallDisk_init : filesysInit blankDisk = .ok ((), smallDisk) := by
  have hok : (filesysInit blankDisk).isOk = true := by decide +kernel
  unfold smallDisk
  cases h : filesysInit blankDisk with
  | error e =>
    rw [h] at hok
    cases hok
  | ok r => rfl

/-- The name "a". -/
def shortName : CString := ⟨[97], by decide⟩

/-- A file is created, opened and removed. -/
def removeOpen : List Op :=
  [⟨.create shortName 1, [], zeros⟩, ⟨.open shortName, [], zeros⟩, ⟨.remove shortName, [], zeros⟩]

theorem removed_file_owned :
    ∃ s n, Reach fsStep Allowed smallDisk s ∧ n ∈ s.openInodes ∧ n.removed = true ∧ HasHandle s n ∧
      Owns (Live s.disk (Opened s.openInodes)) (Extent s.disk)
        (fun t => bitmapTest s.freeMap t = true) := by
  have hsome : ((runFrom fsStep smallDisk removeOpen).any fun s => s.openInodes.any fun n =>
      n.removed && s.files.any fun f => f.inode == n.addr) = true := by decide +kernel
  cases hs : runFrom fsStep smallDisk removeOpen with
  | none =>
    rw [hs] at hsome
    cases hsome
  | some s =>
    rw [hs, Option.any_some] at hsome
    obtain ⟨n, hn, hboth⟩ := List.any_eq_true.mp hsome
    obtain ⟨hr, hfile⟩ := Bool.and_eq_true_iff.mp hboth
    obtain ⟨f, hf, he⟩ := List.any_eq_true.mp hfile
    simp only [removeOpen, runFrom, Option.bind_eq_some_iff, Option.some.injEq] at hs
    obtain ⟨s1, h1, s2, h2, s3, h3, rfl⟩ := hs
    have hcreate : Allowed smallDisk ⟨.create shortName 1, [], zeros⟩ := ⟨by decide, by decide⟩
    have hopen : Allowed s1 ⟨.open shortName, [], zeros⟩ := trivial
    have hremove : Allowed s2 ⟨.remove shortName, [], zeros⟩ := trivial
    have hreach : Reach fsStep Allowed smallDisk s3 :=
      .next (.next (.next .refl hcreate h1) hopen h2) hremove h3
    exact ⟨s3, n, hreach, hn, hr, ⟨f, hf, beq_iff_eq.mp he⟩,
      (sector_ownership smallDisk_init hreach).1⟩

end Pintos.Filesys
