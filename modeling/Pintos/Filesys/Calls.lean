import Pintos.Filesys.CreateSpec

/-!
# The calls of the file system

Between two calls the only references to inodes are those of the open files, and the
root directory is closed. Each call keeps this, whatever the allocator answers and
whatever is on the stack, and stops the kernel only for a negative size.
-/

namespace Pintos.Filesys

open Pintos.Base Pintos.Kernel

/-- The state between two calls. -/
structure Ready (s : Fs) : Prop where
  inv : Inv s (fileRefs s.files)
  root : ¬ Opened s.openInodes rootDirSector

theorem Inv.setNext {s : Fs} {refs : Ptr → Nat} (h : Inv s refs) {next : Ptr} (hle : s.next ≤ next)
    (mem : List Bool) : Inv { s with next := next, mem := mem } refs :=
  { h with
    fresh := fun n hn => Nat.lt_of_lt_of_le (h.fresh n hn) hle
    file_fresh := fun f hf => Nat.lt_of_lt_of_le (h.file_fresh f hf) hle
    map_ref := h.map_ref }

/-! ## The root directory -/

/-- The inode of the root directory as a call opens it. -/
def rootInode (s : Fs) : Inode :=
  { addr := s.next, sector := rootDirSector, openCnt := 1, removed := false, denyWriteCnt := 0,
    data := inodeAt s.disk rootDirSector }

/-- The state after `dir_open_root`. -/
def withRoot (s : Fs) : Fs :=
  { s with
    mem := s.mem.tail.tail
    next := s.next + 1
    openInodes := rootInode s :: s.openInodes }

/-- There is memory for the inode and the directory. -/
def rootGranted (s : Fs) : Bool := s.mem.headD true && s.mem.tail.headD true

section

variable {s s' : Fs} {refs : Ptr → Nat}

theorem Ready.withRoot (h : Ready s) :
    OpenedAs s (withRoot s) (fileRefs s.files) rootDirSector (rootInode s) := by
  have ho := h.inv.openedAs_loadInode live_root h.root
  exact { ho with inv := ho.inv.setMem _, quiet := ⟨rfl, rfl, ⟨Nat.le_succ _, ho.quiet.evolves.inode⟩⟩ }

theorem Ready.refs_next (h : Ready s) : fileRefs s.files s.next = 0 := h.inv.refs_next

/-- The root directory is closed by the call that has opened it. -/
theorem Inv.closeRoot {n : Inode} (h : Inv s (addRef refs n.addr)) (hmap : MapRef s refs)
    (hn : n ∈ s.openInodes) (hr : n.sector = rootDirSector) (hrefs : refs n.addr = 0) :
    inodeClose (some n.addr) s = .ok ((), Filesys.dropInode s n.addr) ∧
      Inv (Filesys.dropInode s n.addr) refs := by
  have hkept : ¬ n.removed = true := fun hrem => (h.removed n hn hrem).2.1 hr
  have hlast : n.openCnt - 1 = 0 := by
    have := (h.count n hn).1
    rw [addRef_self, hrefs] at this
    omega
  obtain ⟨hrun, hinv, -⟩ := h.close_run hmap hn
  rw [afterClose, if_pos hlast, if_neg hkept] at hrun hinv
  exact ⟨hrun, hinv⟩

/-- The list of open inodes is as it was once the root directory is closed. -/
theorem Ready.drop_root (h : Ready s) (hk : s'.openInodes = rootInode s :: s.openInodes) :
    Filesys.dropInode s' s.next = { s' with openInodes := s.openInodes } := by
  unfold Filesys.dropInode
  rw [hk, List.filter_cons_of_neg (by simp [rootInode]), List.filter_eq_self.mpr]
  intro n hn
  have := h.inv.fresh n hn
  simpa using Nat.ne_of_lt this

/-- **`dir_open_root`** -/
theorem Ready.openRoot (h : Ready s) :
    (rootGranted s = true ∧ dirOpenRoot s = .ok (some ⟨s.next⟩, Filesys.withRoot s)) ∨
    (rootGranted s = false ∧ ∃ next, s.next ≤ next ∧
      dirOpenRoot s = .ok (none, { s with mem := s.mem.tail.tail, next := next })) := by
  have ho := h.withRoot
  have hclose := (ho.inv.closeRoot (h.inv.mapRef ho.inv ho.quiet) ho.mem rfl h.refs_next).1
  rw [show (rootInode s).addr = s.next from rfl, h.drop_root rfl] at hclose
  rcases h.inv.counted.open_run (h.inv.layout.lt live_root) with ⟨n, hn, hs, -⟩ | ⟨-, hopen⟩
  · exact absurd ⟨n, hn, hs⟩ h.root
  · simp only [dirOpenRoot, bind_run, hopen]
    unfold rootGranted
    cases s.mem.headD true
    · exact .inr ⟨rfl, s.next, Nat.le_refl _, rfl⟩
    · simp only [if_true, ok_bind, dirOpen, bind_run, malloc_run]
      cases hm : (loadInode s rootDirSector).mem.headD true
      · refine .inr ⟨?_, s.next + 1, Nat.le_succ _, ?_⟩
        · exact hm
        · simp only [bind_run]
          rw [show inodeClose (some s.next) { loadInode s rootDirSector with
            mem := (loadInode s rootDirSector).mem.tail } = _ from hclose]
          rfl
      · exact .inl ⟨hm, rfl⟩

/-- What every call does: no inode is restored after its removal, what it releases is
free after it, and a file that gets a name takes sectors that were free. -/
structure Effect (s s' : Fs) : Prop where
  ready : Ready s'
  evolves : Evolves s s'
  log : ∃ l, s'.released = s.released ++ l ∧
    ∀ r ∈ l, ∀ t, r.1 ≤ t → t < r.1 + r.2 → bitmapTest s'.freeMap t = false
  fresh : Fresh s s'

/-- An inode with a handle from before the call is not that of the root directory. -/
theorem Ready.not_root (h : Ready s) (he : Evolves s s') {n : Inode} (hn : n ∈ s'.openInodes)
    (hpos : 0 < fileRefs s.files n.addr) : n.sector ≠ rootDirSector := by
  intro hs
  obtain ⟨n0, hn0, haddr⟩ := h.inv.refs_open n.addr hpos
  obtain ⟨m, hm, -, hsec, -⟩ := he.inode n hn (haddr ▸ h.inv.fresh n0 hn0)
  exact h.root ⟨m, hm, hsec.trans hs⟩

theorem Ready.of_quiet (h : Ready s) (h' : Inv s' (fileRefs s.files)) (hq : Quiet s s') :
    Ready s' :=
  ⟨hq.files.symm ▸ h', fun ⟨n, hn, hs⟩ => h.not_root hq.evolves hn (h'.count n hn).2 hs⟩

theorem fresh_of_named (h : ∀ x, Named s'.disk x → Named s.disk x) : Fresh s s' :=
  fun x hx hno => absurd (h x hx) hno

/-- A call that finds no memory for the root directory. -/
theorem Ready.noRoot (h : Ready s) {next : Ptr} (hle : s.next ≤ next) (mem : List Bool) :
    Effect s { s with mem := mem, next := next } where
  ready := h.of_quiet (h.inv.setNext hle mem) ⟨rfl, rfl, .of_eq rfl hle⟩
  evolves := .of_eq rfl hle
  log := ⟨[], (List.append_nil _).symm, fun r hr => by cases hr⟩
  fresh := fresh_of_named fun _ => id

/-! ## `filesys_create` -/

/-- A failed `filesys_create` loses the data sectors of the new file. -/
def CreateLeaks (s : Fs) (name : CString) (size : Int) (stack : Buffer) : Prop :=
  rootGranted s = true ∧ Leaks (Filesys.withRoot s) name size stack

theorem Attempt.quiet {s1 s2 : Fs} (ha : Attempt refs s1 s2) (hq : Quiet s s1) : Quiet s s2 :=
  hq.trans ⟨ha.files, ha.mapFile, .of_eq ha.openInodes (Nat.le_of_eq ha.next.symm)⟩

/-- The root directory is closed after the chain and the clean-up. -/
theorem Ready.closed (h : Ready s) {s2 : Fs}
    (ha : Attempt (addRef (fileRefs s.files) s.next) (Filesys.withRoot s) s2)
    (hfresh : Fresh (Filesys.withRoot s) s2) :
    dirClose (some ⟨s.next⟩) s2 = .ok ((), { s2 with openInodes := s.openInodes }) ∧
      Effect s { s2 with openInodes := s.openInodes } := by
  have ho := h.withRoot
  have hq := ha.quiet ho.quiet
  obtain ⟨hrun, hinv⟩ := ha.inv.closeRoot (n := rootInode s) (h.inv.mapRef ha.inv hq)
    (ha.openInodes ▸ ho.mem) rfl h.refs_next
  rw [show (rootInode s).addr = s.next from rfl, h.drop_root ha.openInodes] at hrun hinv
  have hq' : Quiet s { s2 with openInodes := s.openInodes } :=
    ⟨hq.files, hq.mapFile, .of_eq rfl hq.evolves.next_le⟩
  exact ⟨hrun, h.of_quiet hinv hq', hq'.evolves, ha.log, hfresh⟩

/-- **`filesys_create`** -/
theorem Ready.create_run (h : Ready s) {size : Int} (h0 : 0 ≤ size) (h1 : size < 2 ^ 31)
    (name : CString) (stack : Buffer) :
    ∃ ok s', filesysCreate name size stack s = .ok (ok, s') ∧ Effect s s' ∧ s'.files = s.files ∧
      (CreateLeaks s name size stack → ok = false) ∧
      (ok = false → Fixed s s' ∧ s'.openInodes = s.openInodes ∧
        (s'.freeMap = s.freeMap ↔ ¬ CreateLeaks s name size stack)) := by
  simp only [filesysCreate, bind_run]
  rcases h.openRoot with ⟨hg, hopen⟩ | ⟨hg, next, hle, hopen⟩
  · have ho := h.withRoot
    obtain ⟨ok, x, s1, s2, hchain, hclean, ha, hleak, hout⟩ :=
      ho.inv.attempt ho.mem rfl h0 h1 name stack
    have hfresh : Fresh (Filesys.withRoot s) s2 := by
      cases ok
      · exact fresh_of_named fun _ => (ho.inv.fixed_meta hout.1).named.mp
      · exact hout
    obtain ⟨hclose, heff⟩ := h.closed ha hfresh
    refine ⟨ok, _, ?_, heff, ha.files, fun hl => hleak hl.2, ?_⟩
    · rw [hopen, ok_bind]
      rw [show (⟨s.next⟩ : Dir) = ⟨(rootInode s).addr⟩ from rfl] at hclose ⊢
      simp only [bind_run, hchain, ok_bind, hclean, hclose, pure_run]
    · rintro rfl
      refine ⟨hout.1, rfl, hout.2.trans (not_congr ⟨fun hl => ⟨hg, hl⟩, And.right⟩)⟩
  · refine ⟨false, _, ?_, h.noRoot hle s.mem.tail.tail, rfl, fun _ => rfl, fun _ =>
      ⟨fun _ _ _ => rfl, rfl, fun _ hl => ?_, fun _ => rfl⟩⟩
    · rw [hopen, ok_bind]
      rfl
    · rw [hl.1] at hg
      cases hg

/-- `filesys_create` comes to `inode_create`. -/
def ReachesInode (s : Fs) : Prop := rootGranted s = true ∧ ∃ x, Taken (Filesys.withRoot s) 1 x

/-- `filesys_create` with a negative size. -/
theorem Ready.create_negative (h : Ready s) {size : Int} (hneg : size < 0) (name : CString)
    (stack : Buffer) :
    (ReachesInode s ∧ filesysCreate name size stack s = .error .length) ∨
      (¬ ReachesInode s ∧ ∃ s', filesysCreate name size stack s = .ok (false, s') ∧ Effect s s' ∧
        s'.files = s.files) := by
  simp only [filesysCreate, bind_run]
  rcases h.openRoot with ⟨hg, hopen⟩ | ⟨hg, next, hle, hopen⟩
  · have ho := h.withRoot
    rw [hopen, ok_bind]
    rcases ho.inv.chain_negative hneg ⟨s.next⟩ name stack with ⟨hx, hchain⟩ | ⟨hno, s1, hchain, hi⟩
    · refine .inl ⟨⟨hg, hx⟩, ?_⟩
      simp only [bind_run, hchain]
      rfl
    · have ha := ho.inv.idle_attempt hi
      obtain ⟨hclose, heff⟩ := h.closed ha
        (fresh_of_named fun _ => (ho.inv.fixed_meta hi.fixed).named.mp)
      refine .inr ⟨fun hr => hr.2.elim hno, _, ?_, heff, ha.files⟩
      have hclean : cleanUp false 0 s1 = .ok ((), s1) := rfl
      simp only [bind_run, hchain, ok_bind, hclean, hclose, pure_run]
  · refine .inr ⟨fun hr => ?_, _, ?_, h.noRoot hle s.mem.tail.tail, rfl⟩
    · cases hg.symm.trans hr.1
    · rw [hopen]
      rfl

/-! ## `filesys_remove` -/

theorem Ready.closeRoot (h : Ready s) (h' : Inv s' (addRef refs s.next)) (hmap : MapRef s' refs)
    (hq : Quiet (Filesys.withRoot s) s') (hrefs : refs s.next = 0) :
    dirClose (some ⟨s.next⟩) s' = .ok ((), Filesys.dropInode s' s.next) ∧
      Inv (Filesys.dropInode s' s.next) refs ∧
      ∀ n ∈ s'.openInodes, n.sector ≠ rootDirSector →
        n ∈ (Filesys.dropInode s' s.next).openInodes := by
  have ho := h.withRoot
  obtain ⟨n, hn, haddr, hsec, -⟩ := ho.inv.still_open h' hq.evolves ho.mem
    (by rw [show (rootInode s).addr = s.next from rfl, addRef_self]; exact Nat.succ_pos _)
  have haddr : n.addr = s.next := haddr
  rw [← haddr] at h' hrefs ⊢
  obtain ⟨hrun, hinv⟩ := h'.closeRoot hmap hn hsec hrefs
  refine ⟨hrun, hinv, fun m hm hne => List.mem_filter.mpr ⟨hm, ?_⟩⟩
  have : m.addr ≠ n.addr := fun he => hne (h'.inode_ext hm hn he ▸ hsec)
  simpa using this

theorem Layout.named_ne {capacity : Nat} {k : Disk} {map : Bitmap} {opened : Nat → Prop} {x : Nat}
    (h : Layout capacity k map opened) (hx : Named k x) : x ≠ freeMapSector ∧ x ≠ rootDirSector := by
  obtain ⟨i, hi, hu, rfl⟩ := hx
  exact h.slot_ne i hi hu

theorem opened_withRoot {x : Nat} (hx : x ≠ rootDirSector) :
    Opened (Filesys.withRoot s).openInodes x ↔ Opened s.openInodes x := by
  constructor
  · rintro ⟨n, hn, rfl⟩
    rcases List.mem_cons.mp hn with rfl | hn
    · exact absurd rfl hx
    · exact ⟨n, hn, rfl⟩
  · rintro ⟨n, hn, rfl⟩
    exact ⟨n, List.mem_cons_of_mem _ hn, rfl⟩

/-- **`filesys_remove`** -/
theorem Ready.remove_run (h : Ready s) (name : CString) (stack : Buffer) :
    ∃ ok s', filesysRemove name stack s = .ok (ok, s') ∧ Effect s s' ∧ s'.files = s.files ∧
      if ok then ∃ x, Removed s s' x else s'.released = s.released := by
  simp only [filesysRemove, bind_run]
  rcases h.openRoot with ⟨-, hopen⟩ | ⟨-, next, hle, hopen⟩
  · have ho := h.withRoot
    obtain ⟨ok, s2, hrun, hinv, hfrees, hquiet, hnames, hout⟩ :=
      ho.inv.remove_run ho.mem rfl name stack
    have hq := ho.quiet.trans hquiet
    obtain ⟨hclose, hinv', hkeep⟩ := h.closeRoot hinv (h.inv.mapRef hinv hq) hquiet h.refs_next
    have hq' : Quiet s (Filesys.dropInode s2 s.next) :=
      hq.trans ⟨rfl, rfl, evolves_dropInode s2 s.next⟩
    refine ⟨ok, _, ?_, ⟨h.of_quiet hinv' hq', hq'.evolves, hfrees.log, fresh_of_named hnames⟩,
      hq.files, ?_⟩
    · rw [hopen, ok_bind]
      rw [show (⟨s.next⟩ : Dir) = ⟨(rootInode s).addr⟩ from rfl] at hclose ⊢
      simp only [bind_run, hrun, ok_bind, hclose, pure_run]
    · cases ok
      · exact hout
      · obtain ⟨x, hx⟩ := hout
        have hne := (h.inv.layout.named_ne hx.named).2
        refine ⟨x, hx.named, hx.unnamed, fun hop => ?_, fun hno => hx.closed ?_⟩
        · obtain ⟨hlog, n, hn, hs, hr⟩ := hx.opened ((opened_withRoot hne).mpr hop)
          exact ⟨hlog, n, hkeep n hn (hs ▸ hne), hs, hr⟩
        · exact fun hop => hno ((opened_withRoot hne).mp hop)
  · refine ⟨false, _, ?_, h.noRoot hle s.mem.tail.tail, rfl, rfl⟩
    rw [hopen]
    rfl

/-! ## `filesys_open` -/

/-- A `struct file` for the inode at `p`. -/
def addFile (s : Fs) (p : Ptr) : Fs :=
  { s with
    mem := s.mem.tail
    next := s.next + 1
    files := { addr := s.next, inode := p, pos := 0, denyWrite := false } :: s.files }

theorem fileRefs_cons (f : File) (files : List File) :
    fileRefs (f :: files) = addRef (fileRefs files) f.inode := by
  funext p
  unfold fileRefs addRef
  rw [List.countP_cons]
  by_cases hp : p = f.inode
  · simp [hp]
  · simp [hp, Ne.symm hp]

theorem Inv.addFile {p : Ptr} (h : Inv s (addRef (fileRefs s.files) p)) :
    Inv (addFile s p) (fileRefs (addFile s p).files) := by
  have hrefs : fileRefs (Filesys.addFile s p).files = addRef (fileRefs s.files) p := fileRefs_cons _ _
  rw [hrefs]
  refine { h with
    fresh := fun n hn => Nat.lt_succ_of_lt (h.fresh n hn)
    file_addrs := List.nodup_cons.mpr ⟨fun hm => ?_, h.file_addrs⟩
    file_fresh := fun f hf => ?_
    file_deny := fun f hf => ?_
    map_ref := ?_ }
  · obtain ⟨f, hf, he⟩ := List.mem_map.mp hm
    exact absurd (he ▸ h.file_fresh f hf) (Nat.lt_irrefl _)
  · rcases List.mem_cons.mp hf with rfl | hf
    · exact Nat.lt_succ_self _
    · exact Nat.lt_succ_of_lt (h.file_fresh f hf)
  · rcases List.mem_cons.mp hf with rfl | hf
    · rfl
    · exact h.file_deny f hf
  · obtain ⟨f, hf, n, hn, h1, h2, h3, h4⟩ := h.map_ref
    exact ⟨f, List.mem_cons_of_mem _ hf, n, hn, h1, h2, h3, h4⟩

theorem addRef_comm (refs : Ptr → Nat) (p q : Ptr) :
    addRef (addRef refs p) q = addRef (addRef refs q) p := by
  funext r
  unfold addRef
  omega

theorem quiet_setMem (s : Fs) (mem : List Bool) : Quiet s { s with mem := mem } :=
  ⟨rfl, rfl, .of_eq rfl (Nat.le_refl _)⟩

/-- An inode opened while the root directory is open stays open when that is closed. -/
theorem Ready.openedAs (h : Ready s) {mem : List Bool} {x : Nat} {m : Inode}
    (hx : Named s.disk x)
    (ho : OpenedAs { Filesys.withRoot s with mem := mem } s' (addRef (fileRefs s.files) s.next) x m) :
    dirClose (some ⟨s.next⟩) s' = .ok ((), Filesys.dropInode s' s.next) ∧
      OpenedAs s (Filesys.dropInode s' s.next) (fileRefs s.files) x m := by
  have hne := (h.inv.layout.named_ne hx).2
  have hr := h.withRoot
  have hq1 : Quiet (Filesys.withRoot s) s' := (quiet_setMem _ mem).trans ho.quiet
  have hq := hr.quiet.trans hq1
  have hinv := ho.inv
  rw [addRef_comm] at hinv
  have haddr : m.addr ≠ s.next := by
    intro he
    have hpos : 0 < addRef (addRef (fileRefs s.files) m.addr) s.next (rootInode s).addr := by
      rw [show (rootInode s).addr = s.next from rfl, addRef_self]
      exact Nat.succ_pos _
    obtain ⟨n, hn, ha, hsec, -⟩ := hr.inv.still_open hinv hq1.evolves hr.mem hpos
    obtain rfl := ho.inv.inode_ext ho.mem hn (he.trans ha.symm)
    exact hne (ho.sector.symm.trans hsec)
  have hzero : addRef (fileRefs s.files) m.addr s.next = 0 :=
    (addRef_of_ne _ haddr.symm).trans h.refs_next
  obtain ⟨hrun, hinv', hkeep⟩ := h.closeRoot hinv
    ((h.inv.mapRef hinv hq).mono (le_addRef _ _)) hq1 hzero
  have hfirst := ho.first
  rw [addRef_of_ne _ haddr] at hfirst
  exact ⟨hrun, hinv', hkeep m ho.mem (ho.sector.symm ▸ hne), ho.sector,
    hq.trans ⟨rfl, rfl, evolves_dropInode s' s.next⟩, ho.disk, ho.freeMap, ho.released,
    hfirst.trans (not_congr (opened_withRoot hne))⟩

/-- `dir_lookup` in the root directory, which is then closed. -/
theorem Ready.lookup_run (h : Ready s) (name : CString) (stack : Buffer) :
    ∃ o s1 s', dirLookup ⟨s.next⟩ name stack (Filesys.withRoot s) = .ok (o, s1) ∧
      dirClose (some ⟨s.next⟩) s1 = .ok ((), s') ∧
      match o with
      | none => ∃ mem, s' = { s with mem := mem, next := s.next + 1 } ∧
          ((findSlot s.disk stack name s.mem.tail.tail).1.1 = true → false ∈ s.mem)
      | some p => ∃ x m, p = m.addr ∧ Named s.disk x ∧ OpenedAs s s' (fileRefs s.files) x m ∧
          (findSlot s.disk stack name s.mem.tail.tail).1.1 = true ∧
          x = entrySector (slot s.disk (findSlot s.disk stack name s.mem.tail.tail).1.2) ∧
          s'.mem <:+ s.mem := by
  have hr := h.withRoot
  have hclose : ∀ mem, dirClose (some ⟨s.next⟩) { Filesys.withRoot s with mem := mem } =
      .ok ((), { s with mem := mem, next := s.next + 1 }) := by
    intro mem
    have hinv := hr.inv.setMem mem
    have hrun := (h.closeRoot hinv (h.inv.mapRef hinv (hr.quiet.trans (quiet_setMem _ mem)))
      (quiet_setMem _ mem) h.refs_next).1
    rw [h.drop_root rfl] at hrun
    exact hrun
  have hlook := hr.inv.lookup_run hr.mem rfl name stack
  simp only [dirLookup, bind_run]
  rw [show (⟨s.next⟩ : Dir) = ⟨(rootInode s).addr⟩ from rfl, hlook, ok_bind]
  by_cases hf : (findSlot (Filesys.withRoot s).disk stack name (Filesys.withRoot s).mem).1.1 = true
  · rw [if_pos hf]
    obtain ⟨hi, hu, hsec⟩ := findSlot_found hf
    have hx : Named s.disk _ := ⟨_, hi, hu, rfl⟩
    have hinv := hr.inv.setMem (findSlot (Filesys.withRoot s).disk stack name
      (Filesys.withRoot s).mem).2
    simp only [hsec]
    have hsuffix : (findSlot s.disk stack name s.mem.tail.tail).2 <:+ s.mem :=
      scanSlots_suffix.trans ((List.tail_suffix _).trans (List.tail_suffix _))
    rcases hinv.open_cases (.inr (.inr (.inl hx))) with ⟨hno, hopen⟩ | ⟨m, s1, hopen, ho, hmem⟩
    · exact ⟨none, _, _, hopen, hclose _, _, rfl, fun _ => hsuffix.mem (mem_of_headD hno)⟩
    · obtain ⟨hrun, ho'⟩ := h.openedAs hx ho
      exact ⟨some m.addr, s1, _, hopen, hrun, _, m, rfl, hx, ho', hf, rfl, hmem.trans hsuffix⟩
  · rw [if_neg hf]
    exact ⟨none, _, _, rfl, hclose _, _, rfl, fun hf' => absurd hf' hf⟩

theorem fileRefs_le_cons (f : File) (files : List File) (p : Ptr) :
    fileRefs files p ≤ fileRefs (f :: files) p := by
  rw [fileRefs_cons]
  exact le_addRef _ _ _

/-- **`filesys_open`** -/
theorem Ready.open_run (h : Ready s) (name : CString) (stack : Buffer) :
    ∃ r s', filesysOpen name stack s = .ok (r, s') ∧ Effect s s' ∧ s'.released = s.released ∧
      ∀ p, fileRefs s.files p ≤ fileRefs s'.files p := by
  simp only [filesysOpen, bind_run]
  rcases h.openRoot with ⟨-, hopen⟩ | ⟨-, next, hle, hopen⟩
  · obtain ⟨o, s1, s2, hlook, hclose, hout⟩ := h.lookup_run name stack
    rw [hopen, ok_bind]
    simp only [bind_run, hlook, ok_bind, hclose, fileOpen, malloc_run]
    cases o with
    | none =>
      obtain ⟨mem, rfl, -⟩ := hout
      exact ⟨none, _, rfl, h.noRoot (Nat.le_succ _) mem.tail, rfl, fun _ => Nat.le_refl _⟩
    | some p =>
      obtain ⟨x, m, rfl, hx, ho, -⟩ := hout
      cases s2.mem.headD true
      · obtain ⟨s', hrun, hinv, hq, hdisk, -, hlog⟩ := ho.close h.inv (.inr (.inr hx)) s2.mem.tail
        refine ⟨none, s', ?_, ⟨h.of_quiet hinv hq, hq.evolves, ⟨[], ?_, fun r hr => by cases hr⟩,
          fresh_of_named fun _ hz => hdisk ▸ hz⟩, hlog, fun _ => Nat.le_of_eq (by rw [hq.files])⟩
        · simp only [bind_run, hrun, ok_bind, pure_run]
        · rw [hlog, List.append_nil]
      · have hfiles := ho.quiet.files
        have hinv : Inv (Filesys.addFile s2 m.addr) (fileRefs (Filesys.addFile s2 m.addr).files) :=
          Inv.addFile (hfiles.symm ▸ ho.inv)
        refine ⟨some s2.next, Filesys.addFile s2 m.addr, rfl, ⟨⟨hinv, ?_⟩, ?_, ⟨[], ?_, fun r hr => by cases hr⟩,
          fresh_of_named fun _ hz => ho.disk ▸ hz⟩, ho.released, fun p => ?_⟩
        · rintro ⟨n, hn, hs⟩
          have hpos := (ho.inv.count n hn).2
          by_cases he : n.addr = m.addr
          · obtain rfl := ho.inv.inode_ext hn ho.mem he
            exact (h.inv.layout.named_ne hx).2 (ho.sector.symm.trans hs)
          · rw [addRef_of_ne _ he] at hpos
            exact h.not_root ho.quiet.evolves hn hpos hs
        · exact ⟨Nat.le_succ_of_le ho.quiet.evolves.next_le, ho.quiet.evolves.inode⟩
        · rw [List.append_nil]
          exact ho.released
        · rw [← hfiles]
          exact fileRefs_le_cons _ _ p
  · refine ⟨none, { s with mem := s.mem.tail.tail.tail, next := next }, ?_, h.noRoot hle _, rfl,
      fun _ => Nat.le_refl _⟩
    rw [hopen]
    rfl

/-! ## `file_close` -/

/-- The `struct file` at `f` is freed. -/
def dropFile (s : Fs) (f : Ptr) : Fs :=
  { s with files := s.files.filter fun file => file.addr ≠ f }

/-- A file holds one reference. -/
theorem fileRefs_filter {files : List File} (hnd : (files.map File.addr).Nodup) {f : File}
    (hf : f ∈ files) :
    fileRefs files = addRef (fileRefs (files.filter fun g => g.addr ≠ f.addr)) f.inode := by
  induction files with
  | nil => cases hf
  | cons g l ih =>
    rw [List.map_cons, List.nodup_cons] at hnd
    by_cases hg : g.addr = f.addr
    · have hl : ∀ g ∈ l, decide (g.addr ≠ f.addr) = true := by
        intro g' hg'
        have : g'.addr ≠ f.addr := fun he => hnd.1 (List.mem_map.mpr ⟨g', hg', he.trans hg.symm⟩)
        simpa using this
      obtain rfl : f = g := by
        rcases List.mem_cons.mp hf with rfl | hf
        · rfl
        · exact absurd (List.mem_map.mpr ⟨f, hf, hg.symm⟩) hnd.1
      rw [List.filter_cons_of_neg (by simp), List.filter_eq_self.mpr hl, fileRefs_cons]
    · have hf : f ∈ l := by
        rcases List.mem_cons.mp hf with rfl | hf
        · exact absurd rfl hg
        · exact hf
      rw [List.filter_cons_of_pos (by simpa using hg), fileRefs_cons, fileRefs_cons,
        ih hnd.2 hf, addRef_comm]

theorem Inv.dropFile (h : Inv s refs) {f : Ptr} (hf : s.freeMapFile ≠ some f) :
    Inv (dropFile s f) refs :=
  { h with
    file_addrs := h.file_addrs.sublist (List.filter_sublist.map _)
    file_fresh := fun g hg => h.file_fresh g (List.mem_filter.mp hg).1
    file_deny := fun g hg => h.file_deny g (List.mem_filter.mp hg).1
    map_ref := by
      obtain ⟨g, hg, n, hn, h1, h2, h3, h4⟩ := h.map_ref
      have hne : g.addr ≠ f := fun he => hf (he ▸ h1)
      exact ⟨g, List.mem_filter.mpr ⟨hg, by simpa using hne⟩, n, hn, h1, h2, h3, h4⟩ }

/-- A file the callers can have a handle on. -/
def IsHandle (s : Fs) (f : File) : Prop := f ∈ s.files ∧ s.freeMapFile ≠ some f.addr

theorem Ready.inode_of_file (h : Ready s) {f : File} (hf : f ∈ s.files) :
    ∃ n ∈ s.openInodes, n.addr = f.inode :=
  h.inv.refs_open f.inode (List.countP_pos_iff.mpr ⟨f, hf, beq_self_eq_true _⟩)

/-- **`file_close`** -/
theorem Ready.close_run (h : Ready s) {f : File} (hf : IsHandle s f) :
    ∃ n ∈ s.openInodes, n.addr = f.inode ∧
      fileClose (some f.addr) s = .ok ((), Filesys.dropFile (afterClose s n) f.addr) ∧
      Effect s (Filesys.dropFile (afterClose s n) f.addr) := by
  obtain ⟨hf, hmap⟩ := hf
  obtain ⟨n, hn, haddr⟩ := h.inode_of_file hf
  have hrefs := fileRefs_filter h.inv.file_addrs hf
  rw [← haddr] at hrefs
  have hinv : Inv s (addRef (fileRefs (Filesys.dropFile s f.addr).files) n.addr) :=
    hrefs ▸ h.inv
  have hmapref : MapRef s (fileRefs (Filesys.dropFile s f.addr).files) := by
    obtain ⟨g, hg, m, hm, h1, h2, h3, -⟩ := h.inv.map_ref
    have hne : g.addr ≠ f.addr := fun he => hmap (he ▸ h1)
    refine ⟨g, hg, m, hm, h1, h2, h3, List.countP_pos_iff.mpr ⟨g, ?_, beq_self_eq_true _⟩⟩
    exact List.mem_filter.mpr ⟨hg, by simpa using hne⟩
  obtain ⟨hrun, hinv', hfrees, hnames⟩ := hinv.close_run hmapref hn
  obtain ⟨hfiles, hmapfile⟩ := afterClose_files s n
  have hev := evolves_afterClose s n
  have hdrop : (Filesys.dropFile (afterClose s n) f.addr).files = (Filesys.dropFile s f.addr).files := by
    unfold Filesys.dropFile
    rw [hfiles]
  refine ⟨n, hn, haddr, ?_, ⟨⟨?_, ?_⟩, ⟨hev.next_le, hev.inode⟩, hfrees.log,
    fresh_of_named fun x => (hnames x).mp⟩⟩
  · have hallow : fileAllowWrite f.addr s = .ok ((), s) := by
      simp only [fileAllowWrite, bind_run, getFile_run (h.inv.file? hf), ok_bind, h.inv.file_deny f hf]
      rfl
    simp only [fileClose, bind_run, hallow, ok_bind, getFile_run (h.inv.file? hf), ← haddr, hrun]
    rfl
  · rw [hdrop]
    exact hinv'.dropFile (hmapfile.symm ▸ hmap)
  · rintro ⟨m, hm, hs⟩
    refine h.not_root hev hm ?_ hs
    rw [hrefs]
    exact Nat.lt_of_lt_of_le (hinv'.count m hm).2 (le_addRef _ _ _)

/-! ## `file_write` -/

theorem fileRefs_map {g : File → File} (hg : ∀ f, (g f).inode = f.inode) (files : List File) :
    fileRefs (files.map g) = fileRefs files := by
  funext p
  unfold fileRefs
  rw [List.countP_map]
  congr 1
  funext f
  exact congrArg (· == p) (hg f)

/-- The files change in place. -/
theorem Inv.mapFiles (h : Inv s refs) {g : File → File}
    (hg : ∀ f, (g f).addr = f.addr ∧ (g f).inode = f.inode ∧ (g f).denyWrite = f.denyWrite) :
    Inv { s with files := s.files.map g } refs := by
  refine { h with
    file_addrs := ?_
    file_fresh := fun f' hf' => ?_
    file_deny := fun f' hf' => ?_
    map_ref := ?_ }
  · have haddr : (s.files.map g).map File.addr = s.files.map File.addr := by
      rw [List.map_map]
      exact List.map_congr_left fun f _ => (hg f).1
    exact haddr.symm ▸ h.file_addrs
  · obtain ⟨f, hf, rfl⟩ := List.mem_map.mp hf'
    exact (hg f).1.symm ▸ h.file_fresh f hf
  · obtain ⟨f, hf, rfl⟩ := List.mem_map.mp hf'
    exact (hg f).2.2.trans (h.file_deny f hf)
  · obtain ⟨f, hf, n, hn, h1, h2, h3, h4⟩ := h.map_ref
    exact ⟨g f, List.mem_map_of_mem hf, n, hn, h1.trans (congrArg some (hg f).1.symm),
      h2.trans (hg f).2.1.symm, h3, (hg f).2.1.symm ▸ h4⟩

/-- The position of the file at `f` moves on by `n`. -/
def advance (f : Ptr) (n : Nat) (file : File) : File :=
  if file.addr = f then { file with pos := file.pos + n } else file

theorem advance_same (f : Ptr) (n : Nat) (file : File) :
    (advance f n file).addr = file.addr ∧ (advance f n file).inode = file.inode ∧
      (advance f n file).denyWrite = file.denyWrite := by
  unfold advance
  split <;> exact ⟨rfl, rfl, rfl⟩

/-- The state after `file_write` to the file `f` with the inode `n`. -/
def written (s : Fs) (f : File) (n : Inode) (buffer : Buffer) (size : Int) : Fs :=
  let r := transfer n.data size.toNat f.pos false s.mem
  { s with
    disk := splice s.disk n.data.start f.pos r.1 buffer
    mem := r.2
    files := s.files.map (advance f.addr r.1) }

/-- **`file_write`** -/
theorem Ready.write_run (h : Ready s) {f : File} (hf : f ∈ s.files) (buffer : Buffer) (size : Int) :
    ∃ r s', fileWrite f.addr buffer size s = .ok (r, s') ∧ Effect s s' ∧ s'.released = s.released ∧
      fileRefs s'.files = fileRefs s.files := by
  obtain ⟨n, hn, haddr⟩ := h.inode_of_file hf
  have hwrite : inodeWriteAt n.addr buffer size f.pos s =
      .ok ((transfer n.data size.toNat f.pos false s.mem).1, _) :=
    writeAt_run (h.inv.inode? hn) (h.inv.deny n hn) (h.inv.onDisk hn) buffer
  have hne : n.sector ≠ rootDirSector := fun hs => h.root ⟨n, hn, hs⟩
  have hmeta : SameMeta s.disk (written s f n buffer size).disk (Opened s.openInodes) := by
    unfold written
    rw [h.inv.data n hn]
    exact h.inv.layout.write (h.inv.live hn) hne buffer transfer_le
  have hrefs : fileRefs (written s f n buffer size).files = fileRefs s.files :=
    fileRefs_map (fun file => (advance_same _ _ file).2.1) s.files
  have hinv : Inv (written s f n buffer size) (fileRefs s.files) :=
    (h.inv.frame hmeta _).mapFiles (advance_same f.addr _)
  refine ⟨(transfer n.data size.toNat f.pos false s.mem).1, written s f n buffer size, ?_, ⟨⟨hrefs.symm ▸ hinv, h.root⟩,
    ⟨Nat.le_refl _, (Evolves.rfl s).inode⟩, ⟨[], (List.append_nil _).symm, fun r hr => by cases hr⟩,
    fresh_of_named fun _ => hmeta.named.mp⟩, rfl, hrefs⟩
  simp only [fileWrite, bind_run, getFile_run (h.inv.file? hf), ok_bind, ← haddr, hwrite]
  rfl

end

end Pintos.Filesys
