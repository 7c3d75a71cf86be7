import Pintos.Filesys.Accounting
import Pintos.Filesys.Ownership

/-!
# Reference counts over whole runs

Any sequence of calls on files and directories, with any disk and any answers of the
allocator. Between two calls the counters of an inode are the numbers of the
structures that refer to it and of the files that deny writes to it.
-/

namespace Pintos.Filesys

open Pintos.Base Pintos.Kernel

deriving instance DecidableEq for Dir

/-- The file system and the `struct dir`s allocated. -/
structure RefSys where
  fs : Fs
  dirs : List Dir

/-- A sector stands for `inode_open (sector)`, `none` for a null pointer. -/
inductive RefCall where
  | fileOpen (inode : Option Nat)
  | fileReopen (file : Ptr)
  | fileClose (file : Option Ptr)
  | fileDenyWrite (file : Ptr)
  | fileAllowWrite (file : Ptr)
  | dirOpen (inode : Option Nat)
  | dirReopen (dir : Dir)
  | dirClose (dir : Option Dir)
  | create (name : CString) (initialSize : Int)
  | open (name : CString)
  | remove (name : CString)

/-- A call, with the answers of the allocator to it and what its stack holds. -/
structure RefOp where
  call : RefCall
  mem : List Bool
  stack : Buffer

def inodeArg : Option Nat → M (Option Ptr)
  | none => pure none
  | some sector => inodeOpen sector

/-- The call, and the directories there are after it. -/
def refCall (stack : Buffer) (dirs : List Dir) : RefCall → M (List Dir)
  | .fileOpen inode => do
    let p ← inodeArg inode
    discard (fileOpen p)
    pure dirs
  | .fileReopen file => do
    discard (fileReopen file)
    pure dirs
  | .fileClose file => do
    fileClose file
    pure dirs
  | .fileDenyWrite file => do
    fileDenyWrite file
    pure dirs
  | .fileAllowWrite file => do
    fileAllowWrite file
    pure dirs
  | .dirOpen inode => do
    let p ← inodeArg inode
    let d ← dirOpen p
    pure (d.toList ++ dirs)
  | .dirReopen dir => do
    let d ← dirReopen dir
    pure (d.toList ++ dirs)
  | .dirClose dir => do
    dirClose dir
    pure (match dir with
      | none => dirs
      | some d => dirs.erase d)
  | .create name initialSize => do
    discard (filesysCreate name initialSize stack)
    pure dirs
  | .open name => do
    discard (filesysOpen name stack)
    pure dirs
  | .remove name => do
    discard (filesysRemove name stack)
    pure dirs

def RefOp.run (op : RefOp) (y : RefSys) : Except Panic RefSys :=
  (refCall op.stack y.dirs op.call { y.fs with mem := op.mem }).map fun r => ⟨r.2, r.1⟩

def refStep (y : RefSys) (op : RefOp) : Option RefSys := (op.run y).toOption

/-- The callers use the files and directories they have. -/
def Permitted (y : RefSys) (op : RefOp) : Prop :=
  match op.call with
  | .fileReopen file | .fileClose (some file) | .fileDenyWrite file | .fileAllowWrite file =>
    ∃ f, IsHandle y.fs f ∧ f.addr = file
  | .dirReopen dir | .dirClose (some dir) => dir ∈ y.dirs
  | _ => True

/-- The live `struct file`s and `struct dir`s that refer to `p`. -/
def RefSys.refs (y : RefSys) (p : Ptr) : Nat :=
  fileRefs y.fs.files p + y.dirs.countP fun d => d.inode == p

/-- The counters are right, and the list holds the inodes referred to, once each. -/
structure Accounted (y : RefSys) : Prop where
  open_cnt : ∀ n ∈ y.fs.openInodes, n.openCnt = y.refs n.addr
  deny_cnt : ∀ n ∈ y.fs.openInodes, n.denyWriteCnt = denials y.fs.files n.addr
  deny_le : ∀ n ∈ y.fs.openInodes, 0 ≤ n.denyWriteCnt ∧ n.denyWriteCnt ≤ n.openCnt
  sectors : (y.fs.openInodes.map Inode.sector).Nodup
  listed : ∀ p, (∃ n ∈ y.fs.openInodes, n.addr = p) ↔ 0 < y.refs p

structure RefInv (y : RefSys) : Prop where
  counts : Counts y.fs y.refs (denials y.fs.files)
  file_addrs : (y.fs.files.map File.addr).Nodup
  file_fresh : ∀ f ∈ y.fs.files, f.addr < y.fs.next

theorem denials_le (files : List File) (p : Ptr) : denials files p ≤ fileRefs files p := by
  refine List.countP_mono_left fun f _ h => ?_
  exact (Bool.and_eq_true_iff.mp h).1

/-! ## One file of the list -/

section

variable {files : List File} {f : File} {g : File → File} {q : File → Bool}

/-- Counting after a change of one file. -/
theorem countP_modify (hn : (files.map File.addr).Nodup) (hf : f ∈ files) :
    (files.map fun x => if x.addr = f.addr then g x else x).countP q + (q f).toNat =
      files.countP q + (q (g f)).toNat := by
  induction files with
  | nil => cases hf
  | cons x l ih =>
    rw [List.map_cons, List.nodup_cons] at hn
    rw [List.map_cons, List.countP_cons, List.countP_cons]
    rcases List.mem_cons.mp hf with rfl | hf
    · have hrest : (l.map fun x => if x.addr = f.addr then g x else x) = l := by
        refine (List.map_congr_left fun x hx => if_neg fun he => hn.1 ?_).trans (List.map_id _)
        exact he ▸ List.mem_map_of_mem hx
      rw [if_pos rfl, hrest]
      cases q f <;> cases q (g f) <;> simp
    · have hne : x.addr ≠ f.addr := fun he => hn.1 (he ▸ List.mem_map_of_mem hf)
      have := ih hn.2 hf
      rw [if_neg hne]
      omega

/-- Counting after one file is freed. -/
theorem countP_free (hn : (files.map File.addr).Nodup) (hf : f ∈ files) :
    (files.filter fun x => x.addr ≠ f.addr).countP q + (q f).toNat = files.countP q := by
  induction files with
  | nil => cases hf
  | cons x l ih =>
    rw [List.map_cons, List.nodup_cons] at hn
    rw [List.countP_cons]
    rcases List.mem_cons.mp hf with rfl | hf
    · have hrest : (l.filter fun x => x.addr ≠ f.addr) = l := by
        refine List.filter_eq_self.mpr fun x hx => ?_
        have hne : x.addr ≠ f.addr := fun he => hn.1 (he ▸ List.mem_map_of_mem hx)
        simpa using hne
      rw [List.filter_cons_of_neg (by simp), hrest]
      cases q f <;> simp
    · have hne : x.addr ≠ f.addr := fun he => hn.1 (he ▸ List.mem_map_of_mem hf)
      rw [List.filter_cons_of_pos (by simpa using hne), List.countP_cons]
      have := ih hn.2 hf
      omega

end

/-! ## The calls -/

section

variable {s s' : Fs} {dirs dirs' : List Dir} {refs denies : Ptr → Nat} {f : File}

theorem RefInv.setMem (h : RefInv ⟨s, dirs⟩) (mem : List Bool) :
    RefInv ⟨{ s with mem := mem }, dirs⟩ :=
  ⟨h.counts.congr ⟨by rfl, by rfl, by rfl, by rfl⟩, h.file_addrs, h.file_fresh⟩

theorem RefInv.gives (h : RefInv ⟨s, dirs⟩) {refs' : Ptr → Nat}
    (hg : Gives s s' refs' (denials s.files))
    (hrefs : ∀ p, refs' p = fileRefs s.files p + dirs'.countP fun d => d.inode == p) :
    RefInv ⟨s', dirs'⟩ := by
  obtain rfl : refs' = RefSys.refs ⟨s', dirs'⟩ := by
    funext p
    rw [hrefs p, RefSys.refs, hg.files]
  refine ⟨?_, ?_, fun f hf => ?_⟩
  · show Counts s' _ (denials s'.files)
    rw [hg.files]
    exact hg.counts
  · show (s'.files.map File.addr).Nodup
    rw [hg.files]
    exact h.file_addrs
  · have hf : f ∈ s.files := hg.files ▸ hf
    exact Nat.lt_of_lt_of_le (h.file_fresh f hf) hg.next

/-- The call leaves files and directories as they were. -/
theorem RefInv.same (h : RefInv ⟨s, dirs⟩)
    (hg : Gives s s' (RefSys.refs ⟨s, dirs⟩) (denials s.files)) : RefInv ⟨s', dirs⟩ :=
  h.gives hg fun _ => rfl

theorem RefInv.newDir (h : RefInv ⟨s, dirs⟩) {d : Option Dir}
    (hg : Gives s s' (withRef (RefSys.refs ⟨s, dirs⟩) (d.map Dir.inode)) (denials s.files)) :
    RefInv ⟨s', d.toList ++ dirs⟩ := by
  refine h.gives hg fun p => ?_
  cases d with
  | none => rfl
  | some d =>
    show addRef _ d.inode p = _
    unfold addRef RefSys.refs
    rw [Option.toList_some, List.singleton_append, List.countP_cons]
    by_cases hp : p = d.inode
    · simp [hp, Nat.add_assoc]
    · simp [hp, Ne.symm hp]

theorem RefInv.file? (h : RefInv ⟨s, dirs⟩) (hf : f ∈ s.files) : s.file? f.addr = some f :=
  find?_addr h.file_addrs hf

theorem RefInv.file_ref (_ : RefInv ⟨s, dirs⟩) (hf : f ∈ s.files) :
    0 < RefSys.refs ⟨s, dirs⟩ f.inode :=
  Nat.add_pos_left (List.countP_pos_iff.mpr ⟨f, hf, beq_self_eq_true f.inode⟩) _

/-- A new `struct file` for the inode at `p`. -/
def pushFile (s : Fs) (p : Ptr) : Fs :=
  { s with
    next := s.next + 1
    files := { addr := s.next, inode := p, pos := 0, denyWrite := false } :: s.files }

theorem Counts.pushFile (h : Counts s refs denies) (p : Ptr) : Counts (pushFile s p) refs denies := by
  obtain ⟨f, hmap, hfile, hlt, hpos⟩ := h.map_file
  refine { h with
    fresh := fun n hn => Nat.lt_succ_of_lt (h.fresh n hn)
    map_file := ⟨f, hmap, ?_, Nat.lt_succ_of_lt hlt, hpos⟩ }
  unfold Fs.file? at hfile ⊢
  rw [← hfile]
  exact List.find?_cons_of_neg (by simpa using Nat.ne_of_gt hlt)

theorem RefInv.pushFile (h : RefInv ⟨s, dirs⟩) {p : Ptr}
    (hg : Gives s s' (addRef (RefSys.refs ⟨s, dirs⟩) p) (denials s.files)) :
    RefInv ⟨pushFile s' p, dirs⟩ := by
  have hfiles : (Filesys.pushFile s' p).files =
      { addr := s'.next, inode := p, pos := 0, denyWrite := false } :: s.files :=
    congrArg _ hg.files
  have hrefs : RefSys.refs ⟨Filesys.pushFile s' p, dirs⟩ = addRef (RefSys.refs ⟨s, dirs⟩) p := by
    funext q
    show fileRefs (Filesys.pushFile s' p).files q + _ = _
    rw [hfiles, fileRefs_cons]
    show fileRefs s.files q + (if q = p then 1 else 0) + dirs.countP _ =
      fileRefs s.files q + dirs.countP _ + if q = p then 1 else 0
    omega
  have hdeny : denials (Filesys.pushFile s' p).files = denials s.files := by
    funext q
    rw [hfiles]
    exact List.countP_cons_of_neg (by simp)
  refine ⟨?_, ?_, fun f hf => ?_⟩
  · show Counts (Filesys.pushFile s' p) _ (denials (Filesys.pushFile s' p).files)
    rw [hrefs, hdeny]
    exact hg.counts.pushFile p
  · show ((Filesys.pushFile s' p).files.map File.addr).Nodup
    rw [hfiles]
    refine List.nodup_cons.mpr ⟨fun hm => ?_, h.file_addrs⟩
    obtain ⟨f, hf, he⟩ := List.mem_map.mp hm
    have hlt : f.addr < s'.next := Nat.lt_of_lt_of_le (h.file_fresh f hf) hg.next
    exact absurd he (Nat.ne_of_lt hlt)
  · have hf : f ∈ { addr := s'.next, inode := p, pos := 0, denyWrite := false } :: s.files :=
      hfiles ▸ hf
    rcases List.mem_cons.mp hf with rfl | hf
    · exact Nat.lt_succ_self _
    · exact Nat.lt_succ_of_lt (Nat.lt_of_lt_of_le (h.file_fresh f hf) hg.next)

/-- **`file_open`** takes the reference to the inode. -/
theorem RefInv.fileOpen (h : RefInv ⟨s, dirs⟩) {s1 : Fs} {r : Option Ptr}
    (hg : Gives s s1 (withRef (RefSys.refs ⟨s, dirs⟩) r) (denials s.files)) :
    Wp Outside (fileOpen r) (fun _ s' => RefInv ⟨s', dirs⟩) s1 := by
  refine Wp.bind (keeps_malloc s1) fun ok s2 hs2 => ?_
  have hg2 := hg.after (Gives.of_same hg.counts hs2)
  split
  · next p =>
    refine wp_bind.mpr ((wp_of_ok (newAddr_run s2)).mpr ?_)
    exact wp_bind.mpr (wp_modify.mpr (wp_pure.mpr (h.pushFile hg2)))
  · refine Wp.bind (hg2.counts.inodeClose (h.counts.enough.of_gives hg2)) fun _ s3 hg3 => ?_
    exact wp_pure.mpr (h.same (hg2.after hg3))

/-! ## Denying writes -/

def withDeny (files : List File) (a : Ptr) (b : Bool) : List File :=
  files.map fun x => if x.addr = a then { x with denyWrite := b } else x

theorem withDeny_same (a : Ptr) (b : Bool) (x : File) :
    (if x.addr = a then { x with denyWrite := b } else x).addr = x.addr ∧
      (if x.addr = a then { x with denyWrite := b } else x).inode = x.inode := by
  split <;> exact ⟨rfl, rfl⟩

theorem fileRefs_withDeny (files : List File) (a : Ptr) (b : Bool) :
    fileRefs (withDeny files a b) = fileRefs files :=
  fileRefs_map (fun x => (withDeny_same a b x).2) files

theorem addrs_withDeny (files : List File) (a : Ptr) (b : Bool) :
    (withDeny files a b).map File.addr = files.map File.addr := by
  unfold withDeny
  rw [List.map_map]
  exact List.map_congr_left fun x _ => (withDeny_same a b x).1

theorem mem_withDeny {files : List File} (hf : f ∈ files) (b : Bool) :
    { f with denyWrite := b } ∈ withDeny files f.addr b :=
  List.mem_map.mpr ⟨f, hf, if_pos rfl⟩

theorem denials_withDeny {files : List File} (hn : (files.map File.addr).Nodup) (hf : f ∈ files)
    (b : Bool) (p : Ptr) :
    denials (withDeny files f.addr b) p + (f.inode == p && f.denyWrite).toNat =
      denials files p + (f.inode == p && b).toNat :=
  countP_modify (g := fun x => { x with denyWrite := b }) hn hf

/-- The files are as they were up to their flags and positions. -/
theorem MapFile.of_files {l : List File} (h : MapFile s refs) (hn : (l.map File.addr).Nodup)
    (hl : ∀ f ∈ s.files, s.freeMapFile = some f.addr → ∃ f' ∈ l, f'.addr = f.addr ∧ f'.inode = f.inode) :
    MapFile { s with files := l } refs := by
  obtain ⟨f, hmap, hfile, hlt, hpos⟩ := h
  obtain ⟨f', hf', haddr, hinode⟩ := hl f (List.mem_of_find?_eq_some hfile) hmap
  exact ⟨f', haddr ▸ hmap, find?_addr hn hf', haddr ▸ hlt, hinode ▸ hpos⟩

/-- The state after the flag of `f` has become `b`. -/
def setDeny (s : Fs) (f : File) (b : Bool) : Fs :=
  { s with
    files := withDeny s.files f.addr b
    openInodes := s.openInodes.map fun n =>
      if n.addr = f.inode then { n with denyWriteCnt := n.denyWriteCnt + if b then 1 else -1 } else n }

theorem RefInv.setDeny (h : RefInv ⟨s, dirs⟩) (hf : f ∈ s.files) {b : Bool} (hb : f.denyWrite = !b) :
    RefInv ⟨setDeny s f b, dirs⟩ := by
  have hrefs : RefSys.refs ⟨Filesys.setDeny s f b, dirs⟩ = RefSys.refs ⟨s, dirs⟩ := by
    funext p
    show fileRefs (withDeny s.files f.addr b) p + _ = fileRefs s.files p + _
    rw [fileRefs_withDeny]
  have haddrs : ((withDeny s.files f.addr b).map File.addr).Nodup := by
    rw [addrs_withDeny]
    exact h.file_addrs
  have hmap : MapFile { s with files := withDeny s.files f.addr b } (RefSys.refs ⟨s, dirs⟩) := by
    refine h.counts.map_file.of_files haddrs fun x hx _ => ⟨_, List.mem_map_of_mem hx, ?_⟩
    exact withDeny_same f.addr b x
  have hcounts : Counts { s with files := withDeny s.files f.addr b } (RefSys.refs ⟨s, dirs⟩)
      (denials s.files) := { h.counts with map_file := hmap }
  refine ⟨?_, haddrs, fun x' hx' => ?_⟩
  · show Counts (Filesys.setDeny s f b) (RefSys.refs ⟨Filesys.setDeny s f b, dirs⟩)
      (denials (withDeny s.files f.addr b))
    rw [hrefs]
    refine (hcounts.counted.map (fun n => ?_) (fun n hn => ?_) h.counts.listed).counts
      (List.forall_mem_map.mpr fun n hn => ?_) (fun p => ?_) hmap
    · split <;> exact ⟨rfl, rfl⟩
    · have := h.counts.open_cnt n hn
      split <;> exact this
    · have hcnt := h.counts.deny_cnt n hn
      have hd := denials_withDeny h.file_addrs hf b n.addr
      rw [hb] at hd
      split
      · next he =>
        rw [he] at hd hcnt ⊢
        cases b <;> simp at hd hcnt ⊢ <;> omega
      · next hne =>
        have hbeq : (f.inode == n.addr) = false := by simpa using Ne.symm hne
        rw [hbeq] at hd
        exact hcnt.trans (congrArg Nat.cast hd.symm)
    · apply (denials_le _ p).trans
      rw [fileRefs_withDeny]
      exact Nat.le_add_right _ _
  · obtain ⟨x, hx, rfl⟩ := List.mem_map.mp hx'
    rw [(withDeny_same f.addr b x).1]
    exact h.file_fresh x hx

theorem RefInv.inode (h : RefInv ⟨s, dirs⟩) (hf : f ∈ s.files) :
    ∃ n ∈ s.openInodes, n.addr = f.inode := h.counts.listed _ (h.file_ref hf)

/-- **`file_deny_write`**: its ASSERT holds. -/
theorem RefInv.deny_run (h : RefInv ⟨s, dirs⟩) (hf : f ∈ s.files) (hd : f.denyWrite = false) :
    fileDenyWrite f.addr s = .ok ((), Filesys.setDeny s f true) := by
  obtain ⟨n, hn, haddr⟩ := h.inode hf
  have hnew := (h.setDeny hf (b := true) hd).counts
  have hle : n.denyWriteCnt + 1 ≤ n.openCnt := by
    have hn' : (if n.addr = f.inode then
        { n with denyWriteCnt := n.denyWriteCnt + if true then 1 else -1 } else n) ∈
          (Filesys.setDeny s f true).openInodes := List.mem_map_of_mem hn
    rw [if_pos haddr] at hn'
    have h1 : n.openCnt = _ := (hnew.open_cnt _ hn').1
    have h2 : n.denyWriteCnt + 1 = _ := hnew.deny_cnt _ hn'
    have h3 := hnew.deny_le n.addr
    rw [h1, h2]
    exact Int.ofNat_le.mpr h3
  have hget : getInode f.inode { s with files := withDeny s.files f.addr true } =
      .ok (n, { s with files := withDeny s.files f.addr true }) := by
    rw [← haddr]
    exact getInode_run (h.counts.inode? hn)
  rw [fileDenyWrite, bind_run, getFile_run (h.file? hf), ok_bind, hd, if_neg Bool.false_ne_true]
  show inodeDenyWrite f.inode { s with files := withDeny s.files f.addr true } = _
  rw [inodeDenyWrite, bind_run, hget, ok_bind]
  exact assert_run (by simpa using hle) _ _

/-- **`file_allow_write`** -/
theorem RefInv.allow_run (h : RefInv ⟨s, dirs⟩) (hf : f ∈ s.files) (hd : f.denyWrite = true) :
    fileAllowWrite f.addr s = .ok ((), Filesys.setDeny s f false) := by
  obtain ⟨n, hn, haddr⟩ := h.inode hf
  have hcnt := h.counts.deny_cnt n hn
  have hpos : 0 < denials s.files n.addr := List.countP_pos_iff.mpr ⟨f, hf, by simp [haddr, hd]⟩
  have hle : n.denyWriteCnt ≤ n.openCnt := by
    rw [hcnt, (h.counts.open_cnt n hn).1]
    exact Int.ofNat_le.mpr (h.counts.deny_le n.addr)
  have hget : getInode f.inode { s with files := withDeny s.files f.addr false } =
      .ok (n, { s with files := withDeny s.files f.addr false }) := by
    rw [← haddr]
    exact getInode_run (h.counts.inode? hn)
  rw [fileAllowWrite, bind_run, getFile_run (h.file? hf), ok_bind, hd, if_pos rfl]
  show inodeAllowWrite f.inode { s with files := withDeny s.files f.addr false } = _
  rw [inodeAllowWrite, bind_run, hget, ok_bind, bind_run,
    assert_run (by simpa [hcnt] using Int.ofNat_lt.mpr hpos), ok_bind, bind_run,
    assert_run (by simpa using hle), ok_bind]
  rfl

/-- The end of `file_close`, after the file allows writes. -/
theorem RefInv.free (h : RefInv ⟨s, dirs⟩) (hf : IsHandle s f) (hd : f.denyWrite = false) :
    Wp Outside (do inodeClose (some f.inode); freeFile f.addr) (fun _ s' => RefInv ⟨s', dirs⟩) s := by
  obtain ⟨hf, hmapf⟩ := hf
  let rest := s.files.filter fun x => x.addr ≠ f.addr
  let refs' : Ptr → Nat := fun p => fileRefs rest p + dirs.countP fun d => d.inode == p
  have hrefs : RefSys.refs ⟨s, dirs⟩ = addRef refs' f.inode := by
    funext p
    have hp := congrFun (fileRefs_filter h.file_addrs hf) p
    show fileRefs s.files p + dirs.countP _ = fileRefs rest p + dirs.countP _ + if p = f.inode then 1 else 0
    rw [hp]
    show fileRefs rest p + (if p = f.inode then 1 else 0) + _ = _
    omega
  have hdeny : denials rest = denials s.files := by
    funext p
    have := countP_free (q := fun x => x.inode == p && x.denyWrite) h.file_addrs hf
    rw [hd, Bool.and_false] at this
    exact this
  have hkept : ∀ x ∈ s.files, s.freeMapFile = some x.addr → x ∈ rest := by
    intro x hx hm
    have hne : x.addr ≠ f.addr := fun he => hmapf (he ▸ hm)
    exact List.mem_filter.mpr ⟨hx, by simpa using hne⟩
  have hen : Enough s refs' (denials s.files) := by
    obtain ⟨x, hmap, hfile, hlt, -⟩ := h.counts.map_file
    refine ⟨⟨x, hmap, hfile, hlt, Nat.add_pos_left (List.countP_pos_iff.mpr ?_) _⟩, fun p => ?_⟩
    · exact ⟨x, hkept x (List.mem_of_find?_eq_some hfile) hmap, beq_self_eq_true x.inode⟩
    · rw [← hdeny]
      exact (denials_le rest p).trans (Nat.le_add_right _ _)
  have hcounts : Counts s (addRef refs' f.inode) (denials s.files) := hrefs ▸ h.counts
  refine Wp.bind (Counts.inodeClose (r := some f.inode) hcounts hen) fun _ s1 hg => wp_modify.mpr ?_
  have hrest : s1.files.filter (fun x => x.addr ≠ f.addr) = rest := by rw [hg.files]
  have haddrs : (rest.map File.addr).Nodup := h.file_addrs.sublist (List.filter_sublist.map _)
  rw [hrest]
  refine ⟨?_, haddrs, fun x hx => ?_⟩
  · show Counts { s1 with files := rest } refs' (denials rest)
    rw [hdeny]
    refine { hg.counts with map_file := hg.counts.map_file.of_files haddrs fun x hx hm => ?_ }
    rw [hg.files] at hx
    rw [hg.mapFile] at hm
    exact ⟨x, hkept x hx hm, rfl, rfl⟩
  · exact Nat.lt_of_lt_of_le (h.file_fresh x (List.mem_filter.mp hx).1) hg.next

/-- **`file_close`** -/
theorem RefInv.close (h : RefInv ⟨s, dirs⟩) (hf : IsHandle s f) :
    Wp Outside (fileClose (some f.addr)) (fun _ s' => RefInv ⟨s', dirs⟩) s := by
  unfold fileClose
  cases hd : f.denyWrite with
  | false =>
    have hallow : fileAllowWrite f.addr s = .ok ((), s) := by
      rw [fileAllowWrite, bind_run, getFile_run (h.file? hf.1), ok_bind, hd]
      rfl
    refine wp_bind.mpr ((wp_of_ok hallow).mpr ?_)
    exact wp_bind.mpr ((wp_of_ok (getFile_run (h.file? hf.1))).mpr (h.free hf hd))
  | true =>
    have h1 : RefInv ⟨Filesys.setDeny s f false, dirs⟩ := h.setDeny hf.1 hd
    have hf1 : IsHandle (Filesys.setDeny s f false) { f with denyWrite := false } :=
      ⟨mem_withDeny hf.1 false, hf.2⟩
    refine wp_bind.mpr ((wp_of_ok (h.allow_run hf.1 hd)).mpr ?_)
    exact wp_bind.mpr ((wp_of_ok (getFile_run (h1.file? hf1.1))).mpr (h1.free hf1 rfl))

/-- **`file_reopen`** -/
theorem RefInv.reopen (h : RefInv ⟨s, dirs⟩) (hf : f ∈ s.files) :
    Wp Outside (fileReopen f.addr) (fun _ s' => RefInv ⟨s', dirs⟩) s := by
  refine wp_bind.mpr ((wp_of_ok (getFile_run (h.file? hf))).mpr ?_)
  exact Wp.bind (h.counts.reopen (h.file_ref hf)) fun _ s1 hg =>
    h.fileOpen (r := some f.inode) hg

/-- **`filesys_open`** -/
theorem RefInv.filesysOpen (h : RefInv ⟨s, dirs⟩) (name : CString) (stack : Buffer) :
    Wp Outside (filesysOpen name stack) (fun _ s' => RefInv ⟨s', dirs⟩) s := by
  refine Wp.bind h.counts.dirOpenRoot fun d s1 hg1 => ?_
  split
  · exact h.fileOpen (r := none) hg1
  · next dir =>
    refine Wp.bind (hg1.counts.dirLookup (addRef_pos _ _) name stack) fun r s2 hg2 => ?_
    have hg := hg1.after hg2
    have hcomm : withRef (withRef (RefSys.refs ⟨s, dirs⟩) (some dir.inode)) r =
        withRef (withRef (RefSys.refs ⟨s, dirs⟩) r) (some dir.inode) := by
      cases r with
      | none => rfl
      | some p => exact addRef_comm _ _ _
    have hcounts : Counts s2 (withRef (withRef (RefSys.refs ⟨s, dirs⟩) r) (some dir.inode))
        (denials s.files) := hcomm ▸ hg.counts
    have hen : Enough s2 (withRef (RefSys.refs ⟨s, dirs⟩) r) (denials s.files) :=
      (h.counts.enough.of_gives hg).mono fun p => by
        cases r
        · exact Nat.le_refl _
        · exact le_addRef _ _ _
    refine Wp.bind (Counts.dirClose (d := some dir) hcounts hen) fun _ s3 hg3 => ?_
    exact h.fileOpen (hg.after hg3)

end

/-! ## Runs -/

section

variable {s : Fs} {dirs : List Dir} {refs denies : Ptr → Nat}

theorem Counts.inodeArg (h : Counts s refs denies) (inode : Option Nat) :
    Wp Outside (inodeArg inode) (fun r s' => Gives s s' (withRef refs r) denies) s := by
  cases inode with
  | none => exact wp_pure.mpr (Gives.of_same h .rfl)
  | some sector => exact h.inodeOpen sector

theorem refs_erase {d : Dir} (hd : d ∈ dirs) :
    RefSys.refs ⟨s, dirs⟩ = addRef (RefSys.refs ⟨s, dirs.erase d⟩) d.inode := by
  funext p
  show fileRefs s.files p + dirs.countP _ = fileRefs s.files p + (dirs.erase d).countP _ + _
  rw [(List.perm_cons_erase hd).countP_eq, List.countP_cons]
  by_cases hp : p = d.inode
  · simp [hp, Nat.add_assoc]
  · simp [hp, Ne.symm hp]

theorem RefInv.enough_erase (h : RefInv ⟨s, dirs⟩) (d : Dir) :
    Enough s (RefSys.refs ⟨s, dirs.erase d⟩) (denials s.files) := by
  obtain ⟨f, hmap, hfile, hlt, -⟩ := h.counts.map_file
  have hf := List.mem_of_find?_eq_some hfile
  refine ⟨⟨f, hmap, hfile, hlt, Nat.add_pos_left ?_ _⟩, fun p => ?_⟩
  · exact List.countP_pos_iff.mpr ⟨f, hf, beq_self_eq_true f.inode⟩
  · exact (denials_le s.files p).trans (Nat.le_add_right _ _)

theorem Counts.dirReopen (h : Counts s refs denies) {dir : Dir} (hp : 0 < refs dir.inode) :
    Wp Outside (dirReopen dir)
      (fun d s' => Gives s s' (withRef refs (d.map Dir.inode)) denies) s := by
  refine Wp.bind (h.reopen hp) fun _ s1 hg => ?_
  exact (Counts.dirOpen (r := some dir.inode) hg.counts (h.enough.of_gives hg)).mono
    fun _ _ hg2 => hg.after hg2

/-- **One call** -/
theorem RefInv.call (h : RefInv ⟨s, dirs⟩) {op : RefOp} (hok : Permitted ⟨s, dirs⟩ op) :
    Wp Outside (refCall op.stack dirs op.call) (fun dirs' s' => RefInv ⟨s', dirs'⟩) s := by
  obtain ⟨call, mem, stack⟩ := op
  cases call with
  | fileOpen inode =>
    refine Wp.bind (h.counts.inodeArg inode) fun r s1 hg => ?_
    exact (h.fileOpen hg).discard.bind fun _ _ h' => wp_pure.mpr h'
  | fileReopen file =>
    obtain ⟨f, hf, rfl⟩ := hok
    exact (h.reopen hf.1).discard.bind fun _ _ h' => wp_pure.mpr h'
  | fileClose file =>
    cases file with
    | none => exact wp_pure.mpr h
    | some file =>
      obtain ⟨f, hf, rfl⟩ := hok
      exact Wp.bind (h.close hf) fun _ _ h' => wp_pure.mpr h'
  | fileDenyWrite file =>
    obtain ⟨f, hf, rfl⟩ := hok
    cases hd : f.denyWrite with
    | false => exact wp_bind.mpr ((wp_of_ok (h.deny_run hf.1 hd)).mpr (wp_pure.mpr (h.setDeny hf.1 hd)))
    | true =>
      have hrun : fileDenyWrite f.addr s = .ok ((), s) := by
        rw [fileDenyWrite, bind_run, getFile_run (h.file? hf.1), ok_bind, hd]
        rfl
      exact wp_bind.mpr ((wp_of_ok hrun).mpr (wp_pure.mpr h))
  | fileAllowWrite file =>
    obtain ⟨f, hf, rfl⟩ := hok
    cases hd : f.denyWrite with
    | true => exact wp_bind.mpr ((wp_of_ok (h.allow_run hf.1 hd)).mpr (wp_pure.mpr (h.setDeny hf.1 hd)))
    | false =>
      have hrun : fileAllowWrite f.addr s = .ok ((), s) := by
        rw [fileAllowWrite, bind_run, getFile_run (h.file? hf.1), ok_bind, hd]
        rfl
      exact wp_bind.mpr ((wp_of_ok hrun).mpr (wp_pure.mpr h))
  | dirOpen inode =>
    refine Wp.bind (h.counts.inodeArg inode) fun r s1 hg => ?_
    refine Wp.bind (hg.counts.dirOpen (h.counts.enough.of_gives hg)) fun d s2 hg2 => ?_
    exact wp_pure.mpr (h.newDir (hg.after hg2))
  | dirReopen dir =>
    have hpos : 0 < RefSys.refs ⟨s, dirs⟩ dir.inode := by
      rw [refs_erase hok]
      exact addRef_pos _ _
    exact Wp.bind (h.counts.dirReopen hpos) fun d s2 hg => wp_pure.mpr (h.newDir hg)
  | dirClose dir =>
    cases dir with
    | none => exact wp_pure.mpr h
    | some d =>
      have hcounts : Counts s (addRef (RefSys.refs ⟨s, dirs.erase d⟩) d.inode) (denials s.files) :=
        refs_erase hok ▸ h.counts
      refine Wp.bind (Counts.dirClose (d := some d) hcounts (h.enough_erase d)) fun _ s1 hg => ?_
      exact wp_pure.mpr (h.gives hg fun _ => rfl)
  | create name size =>
    exact (h.counts.filesysCreate name size stack).discard.bind fun _ _ hg => wp_pure.mpr (h.same hg)
  | «open» name =>
    exact (h.filesysOpen name stack).discard.bind fun _ _ h' => wp_pure.mpr h'
  | remove name =>
    exact (h.counts.filesysRemove name stack).discard.bind fun _ _ hg => wp_pure.mpr (h.same hg)

theorem RefInv.run {y : RefSys} (h : RefInv y) {op : RefOp} (hok : Permitted y op) :
    (∀ e, op.run y = .error e → Outside e) ∧ ∀ y', op.run y = .ok y' → RefInv y' := by
  obtain ⟨s, dirs⟩ := y
  have hok' : Permitted ⟨{ s with mem := op.mem }, dirs⟩ op := hok
  have hcall := (h.setMem op.mem).call hok'
  unfold RefOp.run
  cases hrun : refCall op.stack dirs op.call { s with mem := op.mem } with
  | error e =>
    constructor
    · intro e' he
      cases he
      exact hcall.2 e hrun
    · intro y' hy
      cases hy
  | ok r =>
    constructor
    · intro e he
      cases he
    · intro y' hy
      cases hy
      exact hcall.ok hrun

theorem RefInv.step {y y' : RefSys} (h : RefInv y) {op : RefOp} (hok : Permitted y op)
    (hs : refStep y op = some y') : RefInv y' := by
  unfold refStep at hs
  cases hrun : op.run y with
  | error e =>
    rw [hrun] at hs
    cases hs
  | ok r =>
    rw [hrun] at hs
    cases hs
    exact (h.run hok).2 _ hrun

theorem RefInv.accounted {y : RefSys} (h : RefInv y) : Accounted y where
  open_cnt n hn := (h.counts.open_cnt n hn).1
  deny_cnt := h.counts.deny_cnt
  deny_le n hn := by
    have := h.counts.deny_le n.addr
    rw [h.counts.deny_cnt n hn, (h.counts.open_cnt n hn).1]
    exact ⟨Int.natCast_nonneg _, Int.ofNat_le.mpr this⟩
  sectors := h.counts.sectors
  listed p := by
    constructor
    · rintro ⟨n, hn, rfl⟩
      exact (h.counts.open_cnt n hn).2
    · exact h.counts.listed p

theorem Counts.of_inv (h : Inv s refs) : Counts s refs (denials s.files) := by
  have hdeny : ∀ p, denials s.files p = 0 := fun p =>
    List.countP_eq_zero.mpr fun f hf => by simp [h.file_deny f hf]
  obtain ⟨f, hf, n, hn, hmap, -, -, hpos⟩ := h.map_ref
  refine ⟨h.addrs, h.fresh, h.sectors, h.count, fun m hm => ?_, h.refs_open, fun p => ?_, ?_⟩
  · rw [h.deny m hm, hdeny]
    rfl
  · rw [hdeny]
    exact Nat.zero_le _
  · exact ⟨f, hmap, h.file? hf, h.file_fresh f hf, hpos⟩

theorem RefInv.of_ready (h : Ready s) : RefInv ⟨s, []⟩ :=
  ⟨Counts.of_inv h.inv, h.inv.file_addrs, h.inv.file_fresh⟩

theorem RefInv.of_held {n : Inode} {f : File} (h : MapHeld s n f) : RefInv ⟨s, []⟩ := by
  have hrefs : RefSys.refs ⟨s, []⟩ = addRef (fun _ => 0) n.addr := by
    funext p
    show fileRefs s.files p + 0 = _
    rw [h.files, fileRefs_cons, h.inode]
    rfl
  have hdeny : denials s.files = fun _ => 0 := by
    funext p
    rw [h.files]
    exact List.countP_eq_zero.mpr fun x hx => by simp [List.mem_singleton.mp hx, h.file_deny]
  have hmem : ∀ m, m ∈ s.openInodes ↔ m = n := fun m => by rw [h.inodes, List.mem_singleton]
  have hmemf : ∀ x, x ∈ s.files ↔ x = f := fun x => by rw [h.files, List.mem_singleton]
  have haddrs : (s.files.map File.addr).Nodup := by
    rw [h.files]
    exact List.nodup_singleton _
  refine ⟨?_, haddrs, fun x hx => (hmemf x).mp hx ▸ h.fresh.2⟩
  show Counts s _ (denials s.files)
  rw [hrefs, hdeny]
  refine ⟨?_, fun m hm => (hmem m).mp hm ▸ h.fresh.1, ?_, fun m hm => ?_, fun m hm => ?_,
    fun p hp => ⟨n, (hmem n).mpr rfl, ?_⟩, fun p => Nat.zero_le _, ?_⟩
  · rw [h.inodes]
    exact List.nodup_singleton _
  · rw [h.inodes]
    exact List.nodup_singleton _
  · rw [(hmem m).mp hm, addRef_self, h.count]
    exact ⟨rfl, Nat.one_pos⟩
  · rw [(hmem m).mp hm]
    exact h.deny
  · by_contra hne
    rw [addRef_of_ne _ (Ne.symm hne)] at hp
    exact absurd hp (Nat.lt_irrefl _)
  · refine ⟨f, h.mapFile, find?_addr haddrs ((hmemf f).mpr rfl), h.fresh.2, ?_⟩
    rw [h.inode]
    exact addRef_pos _ _

/-- A disk with no sectors has no free map file. -/
theorem openFreeMapFile_empty (hcl : Closed s) (h0 : ¬ freeMapSector < s.capacity) :
    IfOk openFreeMapFile (fun _ _ => False) s := by
  have hfind : s.openInodes.find? (fun n => n.sector == freeMapSector) = none := by
    rw [hcl.inodes]
    rfl
  rw [IfOk, openFreeMapFile, wp_bind, inodeOpen, wp_bind, wp_get, hfind, wp_bind, wp_of_ok (malloc_run s)]
  split
  · have hread : IfOk (diskRead freeMapSector) (fun _ _ => False)
        { s with mem := s.mem.tail, next := s.next + 1 } := by
      refine (wp_of_error (x := Panic.capacity) ?_).mpr trivial
      simp only [diskRead, selectSector, bind_run, get_run, ok_bind, assert, decide_eq_false h0]
      rfl
    rw [wp_bind, wp_of_ok (newAddr_run _)]
    exact Wp.bind hread fun _ _ h => h.elim
  · exact wp_pure.mpr (wp_bind.mpr ((wp_of_ok rfl).mpr (wp_throw.mpr trivial)))

/-- After a boot from a disk with any contents. -/
theorem RefInv.of_mount {capacity : Nat} {lba28 : capacity ≤ 2 ^ 28} {disk : Disk} {mem : List Bool}
    (h : filesysMount (bootState capacity lba28 disk mem) = .ok ((), s)) : RefInv ⟨s, []⟩ := by
  refine Wp.ok (E := fun _ => True) (Q := fun _ s => RefInv ⟨s, []⟩) ?_ h
  refine (freeMapInit_ifOk capacity lba28 disk mem).bind fun _ s1 hs1 => ?_
  obtain ⟨mem', rfl⟩ := hs1
  by_cases hcap : freeMapSector < capacity
  · refine (openFreeMapFile_ifOk ⟨rfl, rfl⟩ hcap).bind fun p s2 hs2 => ?_
    obtain ⟨-, -, -, -, n, f, hheld, rfl⟩ := hs2
    have h2 := RefInv.of_held hheld
    have hread := h2.counts.keeps_bitmapRead hheld.mapFile
    refine Wp.bind ⟨fun ok s3 hrun => hread.ok hrun, fun _ _ => trivial⟩ fun ok s3 hs3 => ?_
    cases ok
    · exact wp_throw.mpr trivial
    · exact wp_pure.mpr (h2.same (Gives.of_same h2.counts hs3))
  · exact (openFreeMapFile_empty ⟨rfl, rfl⟩ hcap).bind fun _ _ h => h.elim

end

/-- **Inode reference accounting**: on every run from a formatted disk, or from a boot with
any disk, the counters of each open inode are the numbers of live files and directories on
it and of the live files on it that deny writes; the list has one inode for each sector,
and an inode is in it as long as something refers to it. No call fails an ASSERT on the
counters or follows a pointer to nothing. -/
theorem inode_accounting {capacity : Nat} {lba28 : capacity ≤ 2 ^ 28} {disk : Disk} {mem : List Bool}
    {s₀ : Fs} {y : RefSys}
    (hinit : filesysInit (bootState capacity lba28 disk mem) = .ok ((), s₀) ∨
      filesysMount (bootState capacity lba28 disk mem) = .ok ((), s₀))
    (hrun : Reach refStep Permitted ⟨s₀, []⟩ y) :
    Accounted y ∧ ∀ op, Permitted y op →
      (∀ e, op.run y = .error e → e ≠ .denyWrite ∧ e ≠ .reopen ∧ e ≠ .wild) ∧
      ∀ y', op.run y = .ok y' → ∀ n ∈ y.fs.openInodes,
        (¬ ∃ n' ∈ y'.fs.openInodes, n'.addr = n.addr) ↔ y'.refs n.addr = 0 := by
  have h0 : RefInv ⟨s₀, []⟩ := hinit.elim (fun h => .of_ready (filesysInit_ready h)) .of_mount
  have h : RefInv y := hrun.invariant h0 fun _ _ _ h hok hs => h.step hok hs
  refine ⟨h.accounted, fun op hok => ⟨(h.run hok).1, fun y' hy n _ => ?_⟩⟩
  rw [((h.run hok).2 y' hy).accounted.listed]
  exact Nat.not_lt.trans Nat.le_zero

/-- The root directory is opened as a file, which then denies writes. -/
def denyRoot : List RefOp :=
  [⟨.fileOpen (some rootDirSector), [], zeros⟩, ⟨.fileDenyWrite 6, [], zeros⟩]

theorem root_directory_denied : ∃ y, Reach refStep Permitted ⟨smallDisk, []⟩ y ∧
    y.fs.openInodes.any (fun n => n.sector == rootDirSector && n.denyWriteCnt == 1) = true ∧
    Accounted y := by
  have hsome : ((runFrom refStep ⟨smallDisk, []⟩ denyRoot).any fun y => y.fs.openInodes.any
      fun n => n.sector == rootDirSector && n.denyWriteCnt == 1) = true := by decide +kernel
  cases hy : runFrom refStep ⟨smallDisk, []⟩ denyRoot with
  | none =>
    rw [hy] at hsome
    cases hsome
  | some y =>
    rw [hy, Option.any_some] at hsome
    simp only [denyRoot, runFrom, Option.bind_eq_some_iff, Option.some.injEq] at hy
    obtain ⟨y1, h1, y2, h2, rfl⟩ := hy
    have hfile : ((refStep ⟨smallDisk, []⟩ ⟨.fileOpen (some rootDirSector), [], zeros⟩).any fun y =>
        y.fs.files.any fun f => f.addr == 6 && y.fs.freeMapFile != some f.addr) = true := by
      decide +kernel
    rw [h1, Option.any_some] at hfile
    obtain ⟨f, hf, hboth⟩ := List.any_eq_true.mp hfile
    obtain ⟨haddr, hmap⟩ := Bool.and_eq_true_iff.mp hboth
    have hok : Permitted y1 ⟨.fileDenyWrite 6, [], zeros⟩ :=
      ⟨f, ⟨hf, bne_iff_ne.mp hmap⟩, beq_iff_eq.mp haddr⟩
    have hreach : Reach refStep Permitted ⟨smallDisk, []⟩ y2 :=
      .next (.next .refl (by exact trivial) h1) hok h2
    exact ⟨y2, hreach, hsome, (inode_accounting (.inl smallDisk_init) hreach).1⟩

end Pintos.Filesys
