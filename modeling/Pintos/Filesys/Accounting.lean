import Pintos.Filesys.Format

/-!
# Who refers to an inode

The counters of an open inode against the structures that refer to it, whatever the
disk holds and whichever allocations fail. A function given an inode closes it where
it fails, so `refs` counts the references the caller still has to give up.
-/

namespace Pintos.Filesys

open Pintos.Base Pintos.Kernel

/-- The kernel does not stop for its reference counts, nor on a pointer to nothing. -/
def Outside (e : Panic) : Prop := e ≠ .denyWrite ∧ e ≠ .reopen ∧ e ≠ .wild

/-- The files on `p` that have denied writes. -/
def denials (files : List File) (p : Ptr) : Nat :=
  files.countP fun f => f.inode == p && f.denyWrite

/-- The free map file is open, and its reference is one of `refs`. -/
def MapFile (s : Fs) (refs : Ptr → Nat) : Prop :=
  ∃ f, s.freeMapFile = some f.addr ∧ s.file? f.addr = some f ∧ f.addr < s.next ∧ 0 < refs f.inode

/-- The list of open inodes, each with `refs` references and `denies` denials. -/
structure Counts (s : Fs) (refs denies : Ptr → Nat) : Prop where
  addrs : (s.openInodes.map Inode.addr).Nodup
  fresh : ∀ n ∈ s.openInodes, n.addr < s.next
  sectors : (s.openInodes.map Inode.sector).Nodup
  open_cnt : ∀ n ∈ s.openInodes, n.openCnt = refs n.addr ∧ 0 < refs n.addr
  deny_cnt : ∀ n ∈ s.openInodes, n.denyWriteCnt = denies n.addr
  listed : ∀ p, 0 < refs p → ∃ n ∈ s.openInodes, n.addr = p
  deny_le : ∀ p, denies p ≤ refs p
  map_file : MapFile s refs

/-- The structures in memory are those of `s`. -/
structure SameTables (s s' : Fs) : Prop where
  inodes : s'.openInodes = s.openInodes
  files : s'.files = s.files
  mapFile : s'.freeMapFile = s.freeMapFile
  next : s'.next = s.next

theorem SameTables.rfl {s : Fs} : SameTables s s := ⟨by trivial, by trivial, by trivial, by trivial⟩

theorem SameTables.trans {s s' s'' : Fs} (h : SameTables s s') (h' : SameTables s' s'') :
    SameTables s s'' :=
  ⟨h'.inodes.trans h.inodes, h'.files.trans h.files, h'.mapFile.trans h.mapFile,
    h'.next.trans h.next⟩

theorem Counts.congr {s s' : Fs} {refs denies : Ptr → Nat} (h : Counts s refs denies)
    (hs : SameTables s s') : Counts s' refs denies := by
  obtain ⟨hi, hf, hm, hn⟩ := hs
  refine ⟨hi ▸ h.addrs, ?_, hi ▸ h.sectors, hi ▸ h.open_cnt, hi ▸ h.deny_cnt, hi ▸ h.listed,
    h.deny_le, ?_⟩
  · rw [hi, hn]
    exact h.fresh
  · unfold MapFile Fs.file?
    rw [hm, hf, hn]
    exact h.map_file

/-! ## Programs that leave the tables alone -/

def Keeps {α : Type} (m : M α) (s : Fs) : Prop := Wp Outside m (fun _ s' => SameTables s s') s

section

variable {α β : Type} {m : M α} {f : α → M β} {s s' : Fs} {refs denies : Ptr → Nat}

theorem Keeps.bind (h : Keeps m s) (hf : ∀ a s', SameTables s s' → Keeps (f a) s') :
    Keeps (m >>= f) s :=
  Wp.bind h fun a s' hs => (hf a s' hs).mono fun _ _ hs' => hs.trans hs'

theorem keeps_pure (a : α) (s : Fs) : Keeps (pure a) s := wp_pure.mpr .rfl

theorem keeps_get {f : Fs → M β} (h : Keeps (f s) s) : Keeps (get >>= f) s := h

theorem keeps_discard (h : Keeps m s) : Keeps (discard m : M PUnit) s :=
  h.bind fun _ s' _ => keeps_pure PUnit.unit s'

theorem keeps_modify {g : Fs → Fs} (h : SameTables s (g s)) : Keeps (modify g) s := wp_modify.mpr h

theorem keeps_throw {e : Panic} (h : Outside e) (s : Fs) : Keeps (throw e : M α) s := wp_throw.mpr h

theorem keeps_of_run {a : α} (h : m s = .ok (a, s')) (hs : SameTables s s') : Keeps m s :=
  (wp_of_ok h).mpr hs

theorem keeps_assert (b : Bool) {e : Panic} (h : Outside e) (s : Fs) : Keeps (assert b e) s := by
  cases b
  · exact keeps_throw h s
  · exact keeps_pure () s

theorem keeps_guard {k : M β} (b : Bool) {e : Panic} (h : Outside e) (hk : Keeps k s) :
    Keeps (assert b e >>= fun _ => k) s := by
  cases b
  · exact wp_bind.mpr ((wp_of_error (show assert false e s = .error e from rfl)).mpr h)
  · exact hk

theorem deref_run {o : Option α} {a : α} (h : o = some a) (s : Fs) : deref o s = .ok (a, s) := by
  rw [h]
  rfl

theorem keeps_malloc (s : Fs) : Keeps malloc s :=
  keeps_of_run (malloc_run s) ⟨by rfl, by rfl, by rfl, by rfl⟩

theorem outside_capacity : Outside .capacity := ⟨by decide, by decide, by decide⟩

theorem outside_lba28 : Outside .lba28 := ⟨by decide, by decide, by decide⟩

theorem keeps_selectSector (n : Nat) (s : Fs) : Keeps (selectSector n) s :=
  keeps_get ((keeps_assert _ outside_capacity s).bind fun _ s' _ =>
    keeps_assert _ outside_lba28 s')

theorem keeps_diskRead (n : Nat) (s : Fs) : Keeps (diskRead n) s :=
  (keeps_selectSector n s).bind fun _ s' _ => keeps_get (keeps_pure (s'.disk n) s')

theorem keeps_diskWrite (n : Nat) (b : Buffer) (s : Fs) : Keeps (diskWrite n b) s :=
  (keeps_selectSector n s).bind fun _ _ _ =>
    keeps_modify ⟨by rfl, by rfl, by rfl, by rfl⟩

theorem keeps_getBounce (bounce : Bool) (s : Fs) : Keeps (getBounce bounce) s := by
  cases bounce
  · exact keeps_malloc s
  · exact keeps_pure true s

theorem keeps_readLoop (d : DiskInode) (fuel : Nat) :
    ∀ (buffer : Buffer) (size offset bytesRead : Nat) (bounce : Bool) (s : Fs),
      Keeps (readLoop d fuel buffer size offset bytesRead bounce) s := by
  induction fuel with
  | zero => exact fun buffer _ _ bytesRead _ s => keeps_pure (bytesRead, buffer) s
  | succ fuel ih =>
    intro buffer size offset bytesRead bounce s
    unfold readLoop
    cases nextChunk d size offset with
    | none => exact keeps_pure _ s
    | some c =>
      dsimp only
      split
      · exact (keeps_diskRead _ s).bind fun _ s' _ => ih _ _ _ _ _ s'
      · refine (keeps_getBounce bounce s).bind fun ok s' _ => ?_
        cases ok
        · exact keeps_pure _ s'
        · exact (keeps_diskRead _ s').bind fun _ s'' _ => ih _ _ _ _ _ s''

theorem keeps_writePart (c : Chunk) (buffer : Buffer) (bytesWritten : Nat) (s : Fs) :
    Keeps (writePart c buffer bytesWritten) s := by
  unfold writePart
  dsimp only
  split
  · exact (keeps_diskRead _ s).bind fun _ s' _ => keeps_diskWrite _ _ s'
  · exact (keeps_pure zeros s).bind fun _ s' _ => keeps_diskWrite _ _ s'

theorem keeps_writeLoop (d : DiskInode) (buffer : Buffer) (fuel : Nat) :
    ∀ (size offset bytesWritten : Nat) (bounce : Bool) (s : Fs),
      Keeps (writeLoop d buffer fuel size offset bytesWritten bounce) s := by
  induction fuel with
  | zero => exact fun _ _ bytesWritten _ s => keeps_pure bytesWritten s
  | succ fuel ih =>
    intro size offset bytesWritten bounce s
    unfold writeLoop
    cases nextChunk d size offset with
    | none => exact keeps_pure _ s
    | some c =>
      dsimp only
      split
      · exact (keeps_diskWrite _ _ s).bind fun _ s' _ => ih _ _ _ _ s'
      · refine (keeps_getBounce bounce s).bind fun ok s' _ => ?_
        cases ok
        · exact keeps_pure _ s'
        · exact (keeps_writePart c buffer bytesWritten s').bind fun _ s'' _ => ih _ _ _ _ s''

/-! An inode with a reference is there to be used. -/

theorem Counts.inode? (h : Counts s refs denies) {n : Inode} (hn : n ∈ s.openInodes) :
    s.inode? n.addr = some n := find?_addr h.addrs hn

theorem Counts.getInode_run (h : Counts s refs denies) {p : Ptr} (hp : 0 < refs p) :
    ∃ n ∈ s.openInodes, n.addr = p ∧ getInode p s = .ok (n, s) := by
  obtain ⟨n, hn, rfl⟩ := h.listed p hp
  exact ⟨n, hn, rfl, Filesys.getInode_run (h.inode? hn)⟩

theorem Counts.keeps_getInode (h : Counts s refs denies) {p : Ptr} (hp : 0 < refs p) :
    Keeps (getInode p) s := by
  obtain ⟨n, -, -, hrun⟩ := h.getInode_run hp
  exact keeps_of_run hrun .rfl

theorem Counts.keeps_readAt (h : Counts s refs denies) {p : Ptr} (hp : 0 < refs p) (buffer : Buffer)
    (size : Int) (offset : Nat) : Keeps (inodeReadAt p buffer size offset) s :=
  (h.keeps_getInode hp).bind fun _ s' _ => keeps_readLoop _ _ _ _ _ _ _ s'

theorem Counts.keeps_writeAt (h : Counts s refs denies) {p : Ptr} (hp : 0 < refs p) (buffer : Buffer)
    (size : Int) (offset : Nat) : Keeps (inodeWriteAt p buffer size offset) s := by
  refine (h.keeps_getInode hp).bind fun n s' _ => ?_
  split
  · exact keeps_pure 0 s'
  · exact keeps_writeLoop _ _ _ _ _ _ _ s'

/-- A first part that runs, and what follows it. -/
theorem keeps_step {a : α} (hm : m s = .ok (a, s')) (hs : SameTables s s') (hf : Keeps (f a) s') :
    Keeps (m >>= f) s :=
  wp_bind.mpr ((wp_of_ok hm).mpr (hf.mono fun _ _ hs' => hs.trans hs'))

theorem Counts.keeps_bitmapWrite (h : Counts s refs denies) {f : Ptr} (hf : s.freeMapFile = some f) :
    Keeps (bitmapWrite f) s := by
  obtain ⟨file, hmap, hfile, -, hpos⟩ := h.map_file
  obtain rfl : file.addr = f := Option.some.inj (hmap.symm.trans hf)
  refine keeps_get (Keeps.bind ?_ fun _ s' _ => keeps_pure _ s')
  exact keeps_step (getFile_run hfile) .rfl (h.keeps_writeAt hpos _ _ _)

theorem Counts.keeps_bitmapRead (h : Counts s refs denies) {f : Ptr} (hf : s.freeMapFile = some f) :
    Keeps (bitmapRead f) s := by
  obtain ⟨file, hmap, hfile, -, hpos⟩ := h.map_file
  obtain rfl : file.addr = f := Option.some.inj (hmap.symm.trans hf)
  apply keeps_get
  split
  · exact keeps_pure true s
  · refine Keeps.bind ?_ fun r s' _ => ?_
    · exact keeps_step (getFile_run hfile) .rfl (h.keeps_readAt hpos _ _ _)
    · exact keeps_step (modify_run _ s') ⟨by rfl, by rfl, by rfl, by rfl⟩ (keeps_pure _ _)

theorem Counts.keeps_allocate (h : Counts s refs denies) (cnt : Nat) :
    Keeps (freeMapAllocate cnt) s := by
  apply keeps_get
  split
  · exact keeps_pure none s
  · next sector map _ =>
    refine keeps_step (modify_run _ s) ⟨by rfl, by rfl, by rfl, by rfl⟩ ?_
    have h' : Counts { s with freeMap := map } refs denies :=
      h.congr ⟨by rfl, by rfl, by rfl, by rfl⟩
    split
    · exact keeps_pure (some sector) _
    · next f hf =>
      refine (h'.keeps_bitmapWrite hf).bind fun ok s' _ => ?_
      cases ok
      · exact keeps_step (modify_run _ s') ⟨by rfl, by rfl, by rfl, by rfl⟩ (keeps_pure none _)
      · exact keeps_pure (some sector) s'

theorem Counts.keeps_release (h : Counts s refs denies) (sector cnt : Nat) :
    Keeps (freeMapRelease sector cnt) s := by
  obtain ⟨file, hmap, -⟩ := h.map_file
  apply keeps_get
  refine keeps_guard _ ⟨by decide, by decide, by decide⟩ ?_
  refine keeps_guard _ ⟨by decide, by decide, by decide⟩ ?_
  have h' : Counts { s with
      freeMap := bitmapSetMultiple s.freeMap sector cnt false
      released := s.released ++ [(sector, cnt)] } refs denies :=
    h.congr ⟨by rfl, by rfl, by rfl, by rfl⟩
  refine keeps_step (set_run _ s) ⟨by rfl, by rfl, by rfl, by rfl⟩ ?_
  exact keeps_step (deref_run hmap _) .rfl (keeps_discard (h'.keeps_bitmapWrite hmap))

/-! ## The directory's loops -/

theorem Counts.keeps_lookupLoop {p : Ptr} (hp : 0 < refs p) (name : CString) (fuel : Nat) :
    ∀ (e : Buffer) (ofs : Nat) (s : Fs), Counts s refs denies →
      Keeps (lookupLoop p name fuel e ofs) s := by
  induction fuel with
  | zero => exact fun _ _ s _ => keeps_pure none s
  | succ fuel ih =>
    intro e ofs s h
    refine (h.keeps_readAt hp _ _ _).bind fun r s' hs => ?_
    split
    · split
      · exact keeps_pure _ s'
      · exact ih _ _ s' (h.congr hs)
    · exact keeps_pure none s'

theorem Counts.keeps_lookup (h : Counts s refs denies) {dir : Dir} (hp : 0 < refs dir.inode)
    (name : CString) (stack : Buffer) : Keeps (lookup dir name stack) s :=
  (h.keeps_getInode hp).bind fun _ s' hs => keeps_lookupLoop hp name _ _ _ s' (h.congr hs)

theorem Counts.keeps_freeSlotLoop {p : Ptr} (hp : 0 < refs p) (fuel : Nat) :
    ∀ (e : Buffer) (ofs : Nat) (s : Fs), Counts s refs denies → Keeps (freeSlotLoop p fuel e ofs) s := by
  induction fuel with
  | zero => exact fun e ofs s _ => keeps_pure (e, ofs) s
  | succ fuel ih =>
    intro e ofs s h
    refine (h.keeps_readAt hp _ _ _).bind fun r s' hs => ?_
    split
    · split
      · exact ih _ _ s' (h.congr hs)
      · exact keeps_pure _ s'
    · exact keeps_pure _ s'

theorem Counts.keeps_dirAdd (h : Counts s refs denies) {dir : Dir} (hp : 0 < refs dir.inode)
    (name : CString) (sector : Nat) (stack : Buffer) : Keeps (dirAdd dir name sector stack) s := by
  unfold dirAdd
  split
  · refine (h.keeps_lookup hp name stack).bind fun r s1 hs1 => ?_
    have h1 := h.congr hs1
    split
    · exact keeps_pure false s1
    · refine (h1.keeps_getInode hp).bind fun n s2 hs2 => ?_
      have h2 := h1.congr hs2
      refine (keeps_freeSlotLoop hp _ _ _ s2 h2).bind fun r s3 hs3 => ?_
      exact ((h2.congr hs3).keeps_writeAt hp _ _ _).bind fun _ s4 _ => keeps_pure _ s4
  · exact keeps_pure false s

theorem keeps_zeroSectors (n : Nat) : ∀ (start : Nat) (s : Fs), Keeps (zeroSectors start n) s := by
  induction n with
  | zero => exact fun _ s => keeps_pure () s
  | succ n ih => exact fun start s => (keeps_diskWrite start zeros s).bind fun _ s' _ => ih _ s'

theorem Counts.keeps_inodeCreate (h : Counts s refs denies) (sector : Nat) (length : Int) :
    Keeps (inodeCreate sector length) s := by
  refine keeps_guard _ ⟨by decide, by decide, by decide⟩ ?_
  refine (keeps_malloc s).bind fun ok s1 hs1 => ?_
  cases ok
  · exact keeps_pure false s1
  · refine ((h.congr hs1).keeps_allocate _).bind fun r s2 _ => ?_
    split
    · exact keeps_pure false s2
    · refine (keeps_diskWrite _ _ s2).bind fun _ s3 _ => ?_
      exact (keeps_zeroSectors _ _ s3).bind fun _ s4 _ => keeps_pure true s4

theorem Counts.keeps_createChain (h : Counts s refs denies) {dir : Dir} (hp : 0 < refs dir.inode)
    (name : CString) (size : Int) (stack : Buffer) : Keeps (createChain dir name size stack) s := by
  refine (h.keeps_allocate 1).bind fun r s1 hs1 => ?_
  have h1 := h.congr hs1
  split
  · exact keeps_pure _ s1
  · refine (h1.keeps_inodeCreate _ _).bind fun ok s2 hs2 => ?_
    cases ok
    · exact keeps_pure _ s2
    · exact ((h1.congr hs2).keeps_dirAdd hp name _ stack).bind fun _ s3 _ => keeps_pure _ s3

theorem Counts.keeps_cleanUp (h : Counts s refs denies) (success : Bool) (sector : Nat) :
    Keeps (cleanUp success sector) s := by
  unfold cleanUp
  split
  · exact h.keeps_release sector 1
  · exact keeps_pure () s

/-! ## References handed out and given up -/

/-- The references, and the one of the pointer if there is one. -/
def withRef (refs : Ptr → Nat) : Option Ptr → Ptr → Nat
  | none => refs
  | some p => addRef refs p

/-- The files are as they were, and the inodes have `refs` references. -/
structure Gives (s s' : Fs) (refs denies : Ptr → Nat) : Prop where
  files : s'.files = s.files
  mapFile : s'.freeMapFile = s.freeMapFile
  next : s.next ≤ s'.next
  counts : Counts s' refs denies

/-- The references `refs` are enough for the free map file and for the denials. -/
structure Enough (s : Fs) (refs denies : Ptr → Nat) : Prop where
  map_file : MapFile s refs
  deny_le : ∀ p, denies p ≤ refs p

theorem Counts.enough (h : Counts s refs denies) : Enough s refs denies := ⟨h.map_file, h.deny_le⟩

theorem MapFile.mono {refs' : Ptr → Nat} (h : MapFile s refs) (hle : ∀ p, refs p ≤ refs' p) :
    MapFile s refs' := by
  obtain ⟨f, hmap, hfile, hlt, hpos⟩ := h
  exact ⟨f, hmap, hfile, hlt, Nat.lt_of_lt_of_le hpos (hle _)⟩

theorem Enough.mono {refs' : Ptr → Nat} (h : Enough s refs denies) (hle : ∀ p, refs p ≤ refs' p) :
    Enough s refs' denies :=
  ⟨h.map_file.mono hle, fun p => (h.deny_le p).trans (hle p)⟩

theorem Enough.of_gives {refs' denies' : Ptr → Nat} (h : Enough s refs denies)
    (hg : Gives s s' refs' denies') : Enough s' refs denies := by
  obtain ⟨f, hmap, hfile, hlt, hpos⟩ := h.map_file
  refine ⟨⟨f, hg.mapFile.trans hmap, ?_, Nat.lt_of_lt_of_le hlt hg.next, hpos⟩, h.deny_le⟩
  unfold Fs.file? at hfile ⊢
  rw [hg.files]
  exact hfile

theorem Gives.of_same (h : Counts s refs denies) (hs : SameTables s s') : Gives s s' refs denies :=
  ⟨hs.files, hs.mapFile, hs.next.ge, h.congr hs⟩

theorem Gives.after {refs' denies' : Ptr → Nat} {s'' : Fs} (h : Gives s s' refs' denies')
    (h' : Gives s' s'' refs denies) : Gives s s'' refs denies :=
  ⟨h'.files.trans h.files, h'.mapFile.trans h.mapFile, h.next.trans h'.next, h'.counts⟩

/-- What a program gives after a first part that leaves the tables alone. -/
theorem Keeps.then {k : α → M β} {R : β → Ptr → Nat} (h : Keeps m s)
    (hk : ∀ a s', SameTables s s' → Wp Outside (k a) (fun b s'' => Gives s' s'' (R b) denies) s') :
    Wp Outside (m >>= k) (fun b s'' => Gives s s'' (R b) denies) s :=
  Wp.bind h fun a s' hs => (hk a s' hs).mono fun _ _ hg =>
    ⟨hg.files.trans hs.files, hg.mapFile.trans hs.mapFile, hs.next ▸ hg.next, hg.counts⟩

theorem Counts.counted (h : Counts s refs denies) : Counted s.next s.openInodes refs :=
  ⟨h.addrs, h.fresh, h.open_cnt, h.listed, h.sectors⟩

/-- The list of open inodes changes. -/
theorem Counted.counts (hc : Counted s.next s.openInodes refs)
    (hdeny : ∀ n ∈ s.openInodes, n.denyWriteCnt = denies n.addr) (hle : ∀ p, denies p ≤ refs p)
    (hm : MapFile s refs) : Counts s refs denies :=
  ⟨hc.addrs, hc.fresh, hc.sectors, hc.count, hdeny, hc.refs_open, hle, hm⟩

/-- **`inode_reopen`** -/
theorem Counts.reopen (h : Counts s refs denies) {p : Ptr} (hp : 0 < refs p) :
    Wp Outside (inodeReopen p) (fun _ s' => Gives s s' (addRef refs p) denies) s := by
  obtain ⟨n, hn, rfl, -⟩ := h.getInode_run hp
  refine (wp_of_ok (h.counted.reopen_run hn)).mpr ⟨rfl, rfl, Nat.le_refl _, ?_⟩
  have hen := h.enough.mono (le_addRef refs n.addr)
  refine (h.counted.incRef hn).counts (List.forall_mem_map.mpr fun m hm => ?_) hen.deny_le hen.map_file
  obtain ⟨h1, -, -, h4, -⟩ := count_map (f := (· + 1)) n.addr m
  rw [h1, h4]
  exact h.deny_cnt m hm

/-- A new inode enters the list. -/
theorem Counts.push (h : Counts s refs denies) {n : Inode} (haddr : n.addr = s.next)
    (hcnt : n.openCnt = 1) (hdeny : n.denyWriteCnt = 0) (hno : ¬ Opened s.openInodes n.sector)
    (hi : s'.openInodes = n :: s.openInodes) (hnext : s'.next = s.next + 1)
    (hfiles : s'.files = s.files) (hmap : s'.freeMapFile = s.freeMapFile) :
    Gives s s' (addRef refs s.next) denies := by
  have hle : s.next ≤ s'.next := hnext ▸ Nat.le_succ _
  have hen : Enough s' (addRef refs s.next) denies := by
    obtain ⟨f, h1, h2, h3, h4⟩ := h.map_file
    refine Enough.mono ⟨⟨f, hmap.trans h1, ?_, Nat.lt_of_lt_of_le h3 hle, h4⟩, h.deny_le⟩ (le_addRef _ _)
    unfold Fs.file? at h2 ⊢
    rw [hfiles]
    exact h2
  have hc : Counted s'.next s'.openInodes (addRef refs s.next) := by
    rw [hi, hnext]
    exact h.counted.cons haddr hcnt hno
  refine ⟨hfiles, hmap, hle, hc.counts ?_ hen.deny_le hen.map_file⟩
  rw [hi]
  refine List.forall_mem_cons.mpr ⟨?_, h.deny_cnt⟩
  have hz := h.deny_le s.next
  rw [h.counted.refs_next] at hz
  rw [haddr, hdeny]
  omega

theorem addRef_pos (refs : Ptr → Nat) (p : Ptr) : 0 < addRef refs p p := by
  rw [addRef_self]
  exact Nat.succ_pos _

/-- **`inode_open`** -/
theorem Counts.inodeOpen (h : Counts s refs denies) (x : Nat) :
    Wp Outside (inodeOpen x) (fun r s' => Gives s s' (withRef refs r) denies) s := by
  unfold Filesys.inodeOpen
  refine wp_bind.mpr (wp_get.mpr ?_)
  split
  · next n hf =>
    have hn := List.mem_of_find?_eq_some hf
    exact Wp.bind (h.reopen (h.open_cnt n hn).2) fun _ s' hg => wp_pure.mpr hg
  · next hf =>
    refine (keeps_malloc s).then fun ok s1 hs1 => ?_
    have h1 := h.congr hs1
    cases ok
    · exact wp_pure.mpr (Gives.of_same h1 .rfl)
    · refine wp_bind.mpr ((wp_of_ok (newAddr_run s1)).mpr ?_)
      refine Wp.bind (keeps_diskRead x _) fun b s3 hs3 => wp_bind.mpr (wp_modify.mpr (wp_pure.mpr ?_))
      refine h1.push (by rfl) (by rfl) (by rfl) ?_ (congrArg _ hs3.inodes) hs3.next hs3.files hs3.mapFile
      rintro ⟨n, hn, hsec⟩
      rw [hs1.inodes] at hn
      simpa [hsec] using List.find?_eq_none.mp hf n hn

/-- One reference of several is given up. -/
theorem Counts.decRef {p : Ptr} (h : Counts s (addRef refs p) denies) (hp : refs p ≠ 0)
    (hen : Enough s refs denies) : Counts (decRef s p) refs denies := by
  refine (h.counted.decRef (Nat.pos_of_ne_zero hp)).counts (List.forall_mem_map.mpr fun m hm => ?_)
    hen.deny_le hen.map_file
  obtain ⟨h1, -, -, h4, -⟩ := count_map (f := (· - 1)) p m
  rw [h1, h4]
  exact h.deny_cnt m hm

/-- The last reference is given up: the inode leaves the list. -/
theorem Counts.dropInode {p : Ptr} (h : Counts s (addRef refs p) denies) (hp : refs p = 0)
    (hen : Enough s refs denies) : Gives s (dropInode s p) refs denies := by
  have hc : Counted s.next (Filesys.dropInode s p).openInodes refs :=
    h.counted.filter hp fun _ hq => (addRef_of_ne refs hq).symm
  exact ⟨rfl, rfl, Nat.le_refl _, hc.counts (fun n hn => h.deny_cnt n (List.mem_filter.mp hn).1) hen.deny_le
    hen.map_file⟩

/-- **`inode_close`** -/
theorem Counts.inodeClose {r : Option Ptr} (h : Counts s (withRef refs r) denies)
    (hen : Enough s refs denies) :
    Wp Outside (inodeClose r) (fun _ s' => Gives s s' refs denies) s := by
  cases r with
  | none => exact wp_pure.mpr (Gives.of_same h .rfl)
  | some p =>
    obtain ⟨n, hn, rfl, hget⟩ := h.getInode_run (addRef_pos refs p)
    have hcnt := (h.open_cnt n hn).1
    rw [withRef, addRef_self] at hcnt
    unfold Filesys.inodeClose
    refine wp_bind.mpr ((wp_of_ok hget).mpr (wp_bind.mpr (wp_modify.mpr ?_)))
    by_cases hlast : refs n.addr = 0
    · rw [if_pos (by omega)]
      have hdrop : removeInode n.addr (Filesys.decRef s n.addr) =
          .ok ((), Filesys.dropInode s n.addr) := by
        rw [← dropInode_decRef]
        rfl
      have hg := h.dropInode hlast hen
      refine wp_bind.mpr ((wp_of_ok hdrop).mpr ?_)
      split
      · refine Wp.bind (hg.counts.keeps_release _ _) fun _ s1 hs1 => ?_
        exact ((hg.counts.congr hs1).keeps_release _ _).mono fun _ s2 hs2 =>
          hg.after (Gives.of_same hg.counts (hs1.trans hs2))
      · exact wp_pure.mpr hg
    · rw [if_neg (by omega)]
      exact wp_pure.mpr ⟨rfl, rfl, Nat.le_refl _, h.decRef hlast hen⟩

/-- **`dir_open`** takes the reference to the inode. -/
theorem Counts.dirOpen {r : Option Ptr} (h : Counts s (withRef refs r) denies)
    (hen : Enough s refs denies) :
    Wp Outside (dirOpen r)
      (fun d s' => Gives s s' (withRef refs (d.map Dir.inode)) denies) s := by
  refine (keeps_malloc s).then fun ok s1 hs1 => ?_
  have h1 := h.congr hs1
  have hg1 := Gives.of_same h hs1
  split
  · exact wp_pure.mpr (Gives.of_same h1 .rfl)
  · exact Wp.bind (h1.inodeClose (hen.of_gives hg1)) fun _ s2 hg => wp_pure.mpr hg

theorem Counts.dirOpenRoot (h : Counts s refs denies) :
    Wp Outside dirOpenRoot
      (fun d s' => Gives s s' (withRef refs (d.map Dir.inode)) denies) s :=
  Wp.bind (h.inodeOpen _) fun _ _ hg => (hg.counts.dirOpen (h.enough.of_gives hg)).mono
    fun _ _ hg' => hg.after hg'

/-- **`dir_close`** -/
theorem Counts.dirClose {d : Option Dir} (h : Counts s (withRef refs (d.map Dir.inode)) denies)
    (hen : Enough s refs denies) :
    Wp Outside (dirClose d) (fun _ s' => Gives s s' refs denies) s := by
  cases d with
  | none => exact wp_pure.mpr (Gives.of_same h .rfl)
  | some d => exact Counts.inodeClose (r := some d.inode) h hen

theorem Counts.inodeRemove (h : Counts s refs denies) {p : Ptr} (hp : 0 < refs p) :
    Wp Outside (inodeRemove p) (fun _ s' => Gives s s' refs denies) s := by
  obtain ⟨n, hn, rfl, hget⟩ := h.getInode_run hp
  refine wp_bind.mpr ((wp_of_ok (discard_run hget)).mpr (wp_modify.mpr ⟨rfl, rfl, Nat.le_refl _, ?_⟩))
  refine (h.counted.map (fun m => ?_) (fun m hm => ?_) h.listed).counts
    (List.forall_mem_map.mpr fun m hm => ?_) h.deny_le h.map_file
  · split <;> exact ⟨rfl, rfl⟩
  · have := h.open_cnt m hm
    split <;> exact this
  · have := h.deny_cnt m hm
    split <;> exact this

theorem Counts.dirLookup (h : Counts s refs denies) {dir : Dir} (hp : 0 < refs dir.inode)
    (name : CString) (stack : Buffer) :
    Wp Outside (dirLookup dir name stack) (fun r s' => Gives s s' (withRef refs r) denies) s := by
  refine (h.keeps_lookup hp name stack).then fun r s1 hs1 => ?_
  have h1 := h.congr hs1
  split
  · exact h1.inodeOpen _
  · exact wp_pure.mpr (Gives.of_same h1 .rfl)

theorem Counts.eraseEntry (h : Counts s refs denies) {dir : Dir} (hdir : 0 < refs dir.inode)
    {p : Ptr} (hp : 0 < refs p) (e : Buffer) (ofs : Nat) :
    Wp Outside (eraseEntry dir e ofs p) (fun _ s' => Gives s s' refs denies) s := by
  refine (h.keeps_writeAt hdir _ _ _).then fun m s1 hs1 => ?_
  have h1 := h.congr hs1
  split
  · exact Wp.bind (h1.inodeRemove hp) fun _ _ hg => wp_pure.mpr hg
  · exact wp_pure.mpr (Gives.of_same h1 .rfl)

theorem Counts.dirRemove (h : Counts s refs denies) {dir : Dir} (hp : 0 < refs dir.inode)
    (name : CString) (stack : Buffer) :
    Wp Outside (dirRemove dir name stack) (fun _ s' => Gives s s' refs denies) s := by
  refine (h.keeps_lookup hp name stack).then fun r s1 hs1 => ?_
  have h1 := h.congr hs1
  split
  · exact wp_pure.mpr (Gives.of_same h1 .rfl)
  · next r =>
    refine Wp.bind (h1.inodeOpen _) fun o s2 hg2 => ?_
    split
    · exact wp_pure.mpr hg2
    · next p =>
      have hdir : 0 < addRef refs p dir.inode := Nat.lt_of_lt_of_le hp (le_addRef _ _ _)
      refine Wp.bind (hg2.counts.eraseEntry hdir (addRef_pos _ _) _ _) fun ok s3 hg3 => ?_
      have hg := hg2.after hg3
      refine Wp.bind (Counts.inodeClose (r := some p) hg.counts (h1.enough.of_gives hg)) fun _ s4 hg4 => ?_
      exact wp_pure.mpr (hg.after hg4)

/-- **`filesys_create`** -/
theorem Counts.filesysCreate (h : Counts s refs denies) (name : CString) (size : Int)
    (stack : Buffer) :
    Wp Outside (filesysCreate name size stack) (fun _ s' => Gives s s' refs denies) s := by
  refine Wp.bind h.dirOpenRoot fun d s1 hg1 => ?_
  split
  · exact wp_pure.mpr hg1
  · next dir =>
    refine Wp.bind (hg1.counts.keeps_createChain (addRef_pos _ _) name size stack) fun r s2 hs2 => ?_
    have h2 := hg1.counts.congr hs2
    refine Wp.bind (h2.keeps_cleanUp r.1 r.2) fun _ s3 hs3 => ?_
    have hg3 := hg1.after (Gives.of_same hg1.counts (hs2.trans hs3))
    refine Wp.bind (Counts.dirClose (d := some dir) hg3.counts (h.enough.of_gives hg3))
      fun _ s4 hg4 => ?_
    exact wp_pure.mpr (hg3.after hg4)

/-- **`filesys_remove`** -/
theorem Counts.filesysRemove (h : Counts s refs denies) (name : CString) (stack : Buffer) :
    Wp Outside (filesysRemove name stack) (fun _ s' => Gives s s' refs denies) s := by
  refine Wp.bind h.dirOpenRoot fun d s1 hg1 => ?_
  split
  · exact wp_pure.mpr hg1
  · next dir =>
    refine Wp.bind (hg1.counts.dirRemove (addRef_pos _ _) name stack) fun r s2 hg2 => ?_
    have hg := hg1.after hg2
    refine Wp.bind (Counts.dirClose (d := some dir) hg.counts (h.enough.of_gives hg)) fun _ s3 hg3 => ?_
    exact wp_pure.mpr (hg.after hg3)

end

end Pintos.Filesys
