import Pintos.Filesys.Invariant

/-!
# What the inode functions do

The runs of `inode_reopen`, `inode_open` and `inode_close` from states that meet the
invariant. `inode_close` is the only place where a removed file gives up its
sectors.
-/

namespace Pintos.Filesys

open Pintos.Base Pintos.Kernel

/-- The open inodes of `s'` that existed in `s` are those of `s`, and none of them is
restored after its removal. -/
structure Evolves (s s' : Fs) : Prop where
  next_le : s.next ≤ s'.next
  inode : ∀ n' ∈ s'.openInodes, n'.addr < s.next → ∃ n ∈ s.openInodes, n.addr = n'.addr ∧
    n.sector = n'.sector ∧ n.data = n'.data ∧ (n.removed = true → n'.removed = true)

/-- Sectors are released and none is taken; those in the log of the step are free
after it. -/
structure Frees (s s' : Fs) : Prop where
  marked : ∀ t, bitmapTest s'.freeMap t = true → bitmapTest s.freeMap t = true
  log : ∃ l, s'.released = s.released ++ l ∧
    ∀ r ∈ l, ∀ t, r.1 ≤ t → t < r.1 + r.2 → bitmapTest s'.freeMap t = false

section

variable {s s' s'' : Fs}

theorem Evolves.rfl (s : Fs) : Evolves s s :=
  ⟨Nat.le_refl _, fun n hn _ => ⟨n, hn, by trivial, by trivial, by trivial, id⟩⟩

theorem Evolves.trans (h : Evolves s s') (h' : Evolves s' s'') : Evolves s s'' := by
  refine ⟨h.next_le.trans h'.next_le, fun n'' hn'' hlt => ?_⟩
  obtain ⟨n', hn', a', b', c', d'⟩ := h'.inode n'' hn'' (Nat.lt_of_lt_of_le hlt h.next_le)
  obtain ⟨n, hn, a, b, c, d⟩ := h.inode n' hn' (a' ▸ hlt)
  exact ⟨n, hn, a.trans a', b.trans b', c.trans c', fun hr => d' (d hr)⟩

/-- A step that leaves the inodes alone. -/
theorem Evolves.of_eq (hi : s'.openInodes = s.openInodes) (hn : s.next ≤ s'.next) : Evolves s s' :=
  ⟨hn, fun n hn' _ => ⟨n, hi ▸ hn', by trivial, by trivial, by trivial, id⟩⟩

theorem Frees.of_eq (hm : s'.freeMap = s.freeMap) (hr : s'.released = s.released) : Frees s s' :=
  ⟨fun t ht => hm ▸ ht, [], by rw [hr, List.append_nil], fun r h => by cases h⟩

theorem Frees.trans (h : Frees s s') (h' : Frees s' s'') : Frees s s'' := by
  obtain ⟨l, hl, hfree⟩ := h.log
  obtain ⟨l', hl', hfree'⟩ := h'.log
  refine ⟨fun t ht => h.marked t (h'.marked t ht), l ++ l', ?_, ?_⟩
  · rw [hl', hl, List.append_assoc]
  · intro r hr t h1 h2
    rcases List.mem_append.mp hr with hr | hr
    · have := hfree r hr t h1 h2
      cases hb : bitmapTest s''.freeMap t with
      | false => rfl
      | true =>
        rw [h'.marked t hb] at this
        cases this
    · exact hfree' r hr t h1 h2

end

/-- The files in memory are as they were, and the inodes evolve. -/
structure Quiet (s s' : Fs) : Prop where
  files : s'.files = s.files
  mapFile : s'.freeMapFile = s.freeMapFile
  evolves : Evolves s s'

theorem Quiet.trans {s s' s'' : Fs} (h : Quiet s s') (h' : Quiet s' s'') : Quiet s s'' :=
  ⟨h'.files.trans h.files, h'.mapFile.trans h.mapFile, h.evolves.trans h'.evolves⟩

/-- What the log of a step lists is free after it. -/
theorem Frees.clear {s s' : Fs} (h : Frees s s') {l : List (Nat × Nat)}
    (hl : s'.released = s.released ++ l) {r : Nat × Nat} (hr : r ∈ l) {t : Nat} (h1 : r.1 ≤ t)
    (h2 : t < r.1 + r.2) : bitmapTest s'.freeMap t = false := by
  obtain ⟨l', hl', hfree⟩ := h.log
  obtain rfl := List.append_cancel_left (hl.symm.trans hl')
  exact hfree r hr t h1 h2

/-- The reference of the free map file is still among `refs`. -/
theorem Inv.mapRef {s s' : Fs} {refs refs' : Ptr → Nat} (h : Inv s refs) (h' : Inv s' refs')
    (hq : Quiet s s') : MapRef s' refs := by
  obtain ⟨f, hf, -, -, hmap, -, -, hpos⟩ := h.map_ref
  obtain ⟨f', hf', n', hn', hmap', haddr, hsec, -⟩ := h'.map_ref
  rw [hq.files] at hf'
  rw [hq.mapFile, hmap] at hmap'
  obtain rfl : f = f' := List.inj_on_of_nodup_map h.file_addrs hf hf' (Option.some.inj hmap')
  exact ⟨f, hq.files ▸ hf, n', hn', hq.mapFile.trans hmap, haddr, hsec, hpos⟩

/-- An inode that is still referred to is still open. -/
theorem Inv.still_open {s s' : Fs} {refs refs' : Ptr → Nat} {n : Inode} (h : Inv s refs)
    (h' : Inv s' refs') (he : Evolves s s') (hn : n ∈ s.openInodes) (hpos : 0 < refs' n.addr) :
    ∃ n' ∈ s'.openInodes, n'.addr = n.addr ∧ n'.sector = n.sector ∧ n'.data = n.data ∧
      (n.removed = true → n'.removed = true) := by
  obtain ⟨n', hn', haddr⟩ := h'.refs_open n.addr hpos
  obtain ⟨n0, hn0, haddr0, hsec, hdata, hrem⟩ := he.inode n' hn' (haddr ▸ h.fresh n hn)
  obtain rfl := h.inode_ext hn0 hn (haddr0.trans haddr)
  exact ⟨n', hn', haddr, hsec.symm, hdata.symm, hrem⟩

/-! ## Opening -/

/-- A reference more to the inode at `p`. -/
def incRef (s : Fs) (p : Ptr) : Fs :=
  { s with openInodes := s.openInodes.map fun n =>
      if n.addr = p then { n with openCnt := n.openCnt + 1 } else n }

/-- A reference less. -/
def decRef (s : Fs) (p : Ptr) : Fs :=
  { s with openInodes := s.openInodes.map fun n =>
      if n.addr = p then { n with openCnt := n.openCnt - 1 } else n }

/-- The inode in `x` read into memory. -/
def loadInode (s : Fs) (x : Nat) : Fs :=
  { s with
    mem := s.mem.tail
    next := s.next + 1
    openInodes := { addr := s.next, sector := x, openCnt := 1, removed := false,
                    denyWriteCnt := 0, data := inodeAt s.disk x } :: s.openInodes }

section

variable {s : Fs} {refs : Ptr → Nat} {n : Inode} {p : Ptr} {x : Nat}

theorem MapRef.mono {refs' : Ptr → Nat} (h : MapRef s refs) (hle : ∀ p, refs p ≤ refs' p) :
    MapRef s refs' := by
  obtain ⟨f, hf, n, hn, h1, h2, h3, h4⟩ := h
  exact ⟨f, hf, n, hn, h1, h2, h3, Nat.lt_of_lt_of_le h4 (hle _)⟩

/-- Only the count of an inode changes. -/
theorem count_map {f : Int → Int} (p : Ptr) (n : Inode) :
    let n' := if n.addr = p then { n with openCnt := f n.openCnt } else n
    n'.addr = n.addr ∧ n'.sector = n.sector ∧ n'.data = n.data ∧
      n'.denyWriteCnt = n.denyWriteCnt ∧ n'.removed = n.removed := by
  dsimp only
  split <;> exact ⟨rfl, rfl, rfl, rfl, rfl⟩

theorem Counted.incRef (h : Counted s.next s.openInodes refs) (hn : n ∈ s.openInodes) :
    Counted s.next (incRef s n.addr).openInodes (addRef refs n.addr) := by
  refine h.map (fun m => ?_) (fun m hm => ?_) fun q hq => ?_
  · obtain ⟨h1, h2, -⟩ := count_map (f := (· + 1)) n.addr m
    exact ⟨h1, h2⟩
  · obtain ⟨hc, hpos⟩ := h.count m hm
    by_cases hm' : m.addr = n.addr
    · rw [if_pos hm', hm', addRef_self]
      rw [hm'] at hc
      exact ⟨by simp only [hc]; omega, by omega⟩
    · rw [if_neg hm', addRef_of_ne _ hm']
      exact ⟨hc, hpos⟩
  · by_cases hq' : q = n.addr
    · exact ⟨n, hn, hq'.symm⟩
    · rw [addRef_of_ne _ hq'] at hq
      exact h.refs_open q hq

theorem Counted.decRef (h : Counted s.next s.openInodes (addRef refs p)) (hpos : 0 < refs p) :
    Counted s.next (decRef s p).openInodes refs := by
  refine h.map (fun m => ?_) (fun m hm => ?_) fun q hq => ?_
  · obtain ⟨h1, h2, -⟩ := count_map (f := (· - 1)) p m
    exact ⟨h1, h2⟩
  · obtain ⟨hc, hm0⟩ := h.count m hm
    by_cases hm' : m.addr = p
    · rw [hm', addRef_self] at hc
      rw [if_pos hm', hm']
      exact ⟨by simp only [hc]; omega, hpos⟩
    · rw [addRef_of_ne _ hm'] at hc hm0
      rw [if_neg hm']
      exact ⟨hc, hm0⟩
  · exact h.refs_open q (Nat.lt_of_lt_of_le hq (le_addRef ..))

theorem Inv.incRef (h : Inv s refs) (hn : n ∈ s.openInodes) :
    Inv (incRef s n.addr) (addRef refs n.addr) := by
  refine h.mapInodes (fun m => ?_) (fun m hm hr => ?_) (h.counted.incRef hn)
    (h.map_ref.mono (le_addRef refs _))
  · obtain ⟨h1, h2, h3, h4, -⟩ := count_map (f := (· + 1)) n.addr m
    exact ⟨h1, h2, h3, h4⟩
  · rw [(count_map (f := (· + 1)) n.addr m).2.2.2.2] at hr
    exact h.removed m hm hr

theorem evolves_incRef (s : Fs) (p : Ptr) : Evolves s (Filesys.incRef s p) := by
  refine ⟨Nat.le_refl _, fun n' hn' _ => ?_⟩
  obtain ⟨n, hn, rfl⟩ := List.mem_map.mp hn'
  obtain ⟨h1, h2, h3, -, h5⟩ := count_map (f := (· + 1)) p n
  exact ⟨n, hn, h1.symm, h2.symm, h3.symm, fun hr => h5.trans hr⟩

theorem Counted.inode? (h : Counted s.next s.openInodes refs) (hn : n ∈ s.openInodes) :
    s.inode? n.addr = some n := find?_addr h.addrs hn

/-- **`inode_reopen`** -/
theorem Counted.reopen_run (h : Counted s.next s.openInodes refs) (hn : n ∈ s.openInodes) :
    inodeReopen n.addr s = .ok ((), Filesys.incRef s n.addr) := by
  have hpos : n.openCnt ≠ 0 := by
    have := h.count n hn
    omega
  rw [inodeReopen, bind_run, getInode_run (h.inode? hn), ok_bind, bind_run,
    assert_run (by simpa using hpos), ok_bind]
  rfl

theorem Inv.refs_next (h : Inv s refs) : refs s.next = 0 := h.counted.refs_next

theorem Inv.loadInode (h : Inv s refs) (hx : Live s.disk (Opened s.openInodes) x)
    (hno : ¬ Opened s.openInodes x) : Inv (loadInode s x) (addRef refs s.next) :=
  { h.counted.cons rfl rfl hno with
    layout := by
      refine h.layout.reopen fun y hy => ?_
      obtain ⟨n, hn, rfl⟩ := hy
      rcases List.mem_cons.mp hn with rfl | hn
      · exact hx
      · exact h.live hn
    data := List.forall_mem_cons.mpr ⟨rfl, h.data⟩
    removed := List.forall_mem_cons.mpr ⟨fun hr => (by cases hr), h.removed⟩
    deny := List.forall_mem_cons.mpr ⟨rfl, h.deny⟩
    file_addrs := h.file_addrs
    file_fresh := fun f hf => Nat.lt_succ_of_lt (h.file_fresh f hf)
    file_deny := h.file_deny
    map_ref := by
      obtain ⟨f, hf, n, hn, h1, h2, h3, h4⟩ := h.map_ref
      exact ⟨f, hf, n, List.mem_cons_of_mem _ hn, h1, h2, h3, Nat.lt_of_lt_of_le h4 (le_addRef ..)⟩ }

theorem evolves_loadInode (s : Fs) (x : Nat) : Evolves s (Filesys.loadInode s x) := by
  refine ⟨Nat.le_succ _, fun n' hn' hlt => ?_⟩
  rcases List.mem_cons.mp hn' with rfl | hn
  · exact absurd hlt (Nat.lt_irrefl _)
  · exact ⟨n', hn, rfl, rfl, rfl, id⟩

/-- **`inode_open`** of a sector on the disk. -/
theorem Counted.open_run (h : Counted s.next s.openInodes refs) (hx : x < s.capacity) :
    (∃ n ∈ s.openInodes, n.sector = x ∧
      inodeOpen x s = .ok (some n.addr, Filesys.incRef s n.addr)) ∨
    (¬ Opened s.openInodes x ∧ inodeOpen x s = .ok (
      if s.mem.headD true then (some s.next, Filesys.loadInode s x)
      else (none, { s with mem := s.mem.tail }))) := by
  cases hf : s.openInodes.find? fun n => n.sector == x with
  | some n =>
    have hn := List.mem_of_find?_eq_some hf
    have hsec : n.sector = x := by simpa using List.find?_some hf
    refine .inl ⟨n, hn, hsec, ?_⟩
    simp only [inodeOpen, bind_run, get_run, ok_bind, hf, h.reopen_run hn, pure_run]
  | none =>
    have hno : ¬ Opened s.openInodes x := by
      rintro ⟨n, hn, hsec⟩
      simpa [hsec] using List.find?_eq_none.mp hf n hn
    refine .inr ⟨hno, ?_⟩
    simp only [inodeOpen, bind_run, get_run, ok_bind, hf, malloc_run]
    cases s.mem.headD true
    · rfl
    · rw [if_pos rfl, if_pos rfl]
      have hread := diskRead_run (s := { s with mem := s.mem.tail, next := s.next + 1 }) hx
      simp only [bind_run, newAddr_run, ok_bind, hread]
      rfl

/-- `s'` is `s` with one reference more, to the inode `n` in sector `x`. -/
structure OpenedAs (s s' : Fs) (refs : Ptr → Nat) (x : Nat) (n : Inode) : Prop where
  inv : Inv s' (addRef refs n.addr)
  mem : n ∈ s'.openInodes
  sector : n.sector = x
  quiet : Quiet s s'
  disk : s'.disk = s.disk
  freeMap : s'.freeMap = s.freeMap
  released : s'.released = s.released
  first : refs n.addr = 0 ↔ ¬ Opened s.openInodes x

theorem Inv.openedAs_incRef (h : Inv s refs) (hn : n ∈ s.openInodes) :
    OpenedAs s (Filesys.incRef s n.addr) refs n.sector { n with openCnt := n.openCnt + 1 } where
  inv := h.incRef hn
  mem := List.mem_map.mpr ⟨n, hn, if_pos rfl⟩
  sector := rfl
  quiet := ⟨rfl, rfl, evolves_incRef s n.addr⟩
  disk := rfl
  freeMap := rfl
  released := rfl
  first := by
    have hpos := (h.count n hn).2
    exact ⟨fun h0 => absurd h0 (Nat.ne_of_gt hpos), fun hno => absurd ⟨n, hn, rfl⟩ hno⟩

theorem Inv.openedAs_loadInode (h : Inv s refs) (hx : Live s.disk (Opened s.openInodes) x)
    (hno : ¬ Opened s.openInodes x) :
    OpenedAs s (Filesys.loadInode s x) refs x
      { addr := s.next, sector := x, openCnt := 1, removed := false, denyWriteCnt := 0,
        data := inodeAt s.disk x } where
  inv := h.loadInode hx hno
  mem := List.mem_cons_self
  sector := rfl
  quiet := ⟨rfl, rfl, evolves_loadInode s x⟩
  disk := rfl
  freeMap := rfl
  released := rfl
  first := ⟨fun _ => hno, fun _ => h.refs_next⟩

/-- `inode_open` fails only when the inode has to be read and there is no memory. -/
theorem Inv.open_cases (h : Inv s refs) (hx : Live s.disk (Opened s.openInodes) x) :
    (s.mem.headD true = false ∧ inodeOpen x s = .ok (none, { s with mem := s.mem.tail })) ∨
    ∃ n s', inodeOpen x s = .ok (some n.addr, s') ∧ OpenedAs s s' refs x n ∧ s'.mem <:+ s.mem := by
  rcases h.counted.open_run (h.layout.lt hx) with ⟨n, hn, rfl, hrun⟩ | ⟨hno, hrun⟩
  · exact .inr ⟨{ n with openCnt := n.openCnt + 1 }, _, hrun, h.openedAs_incRef hn, List.suffix_rfl⟩
  · cases hm : s.mem.headD true
    · rw [hm, if_neg Bool.false_ne_true] at hrun
      exact .inl ⟨rfl, hrun⟩
    · rw [hm, if_pos rfl] at hrun
      have ho := h.openedAs_loadInode hx hno
      exact .inr ⟨_, _, hrun, ho, List.tail_suffix _⟩

/-! ## Closing -/

theorem Inv.decRef (h : Inv s (addRef refs p)) (hpos : 0 < refs p) (hmap : MapRef s refs) :
    Inv (decRef s p) refs := by
  refine h.mapInodes (fun m => ?_) (fun m hm hr => ?_) (h.counted.decRef hpos) hmap
  · obtain ⟨h1, h2, h3, h4, -⟩ := count_map (f := (· - 1)) p m
    exact ⟨h1, h2, h3, h4⟩
  · rw [(count_map (f := (· - 1)) p m).2.2.2.2] at hr
    exact h.removed m hm hr

theorem evolves_decRef (s : Fs) (p : Ptr) : Evolves s (Filesys.decRef s p) := by
  refine ⟨Nat.le_refl _, fun n' hn' _ => ?_⟩
  obtain ⟨n, hn, rfl⟩ := List.mem_map.mp hn'
  obtain ⟨h1, h2, h3, -, h5⟩ := count_map (f := (· - 1)) p n
  exact ⟨n, hn, h1.symm, h2.symm, h3.symm, fun hr => h5.trans hr⟩

/-- The list without the inode at `p`. -/
def dropInode (s : Fs) (p : Ptr) : Fs :=
  { s with openInodes := s.openInodes.filter fun n => n.addr ≠ p }

theorem evolves_dropInode (s : Fs) (p : Ptr) : Evolves s (dropInode s p) :=
  ⟨Nat.le_refl _, fun n' hn' _ => ⟨n', (List.mem_filter.mp hn').1, rfl, rfl, rfl, id⟩⟩

/-- The count of an inode that leaves the list does not matter. -/
theorem dropInode_decRef (s : Fs) (p : Ptr) : dropInode (Filesys.decRef s p) p = dropInode s p := by
  unfold dropInode Filesys.decRef
  congr 1
  induction s.openInodes with
  | nil => rfl
  | cons n l ih =>
    by_cases hn : n.addr = p
    · simpa [hn] using ih
    · simpa [hn] using ih

theorem Inv.dropLast (h : Inv s (addRef refs p)) (hp : refs p = 0) (hmap : MapRef s refs) :
    Inv (Filesys.dropInode s p) refs :=
  h.dropInode hp (fun _ hq => (addRef_of_ne refs hq).symm) hmap

/-- A removed inode that leaves the list is no longer live. -/
theorem Inv.dead (h : Inv s refs) (hn : n ∈ s.openInodes) (hr : n.removed = true) {y t : Nat}
    (hy : Live s.disk (Opened (Filesys.dropInode s n.addr).openInodes) y) (ht : Extent s.disk y t) :
    ¬ Extent s.disk n.sector t := by
  intro hxt
  obtain ⟨h0, h1, h2⟩ := h.removed n hn hr
  have hlive : Live s.disk (Opened s.openInodes) y ∧ y ≠ n.sector := by
    rcases hy with rfl | rfl | hy | ⟨m, hm, rfl⟩
    · exact ⟨live_map, h0.symm⟩
    · exact ⟨live_root, h1.symm⟩
    · exact ⟨.inr (.inr (.inl hy)), fun he => h2 (he ▸ hy)⟩
    · obtain ⟨hm, hne⟩ := List.mem_filter.mp hm
      refine ⟨h.live hm, fun he => ?_⟩
      rw [h.sector_ext hm hn he] at hne
      simp at hne
  exact hlive.2 (h.layout.owns.disjoint _ _ t hlive.1 (h.live hn) ht hxt)

/-- The sectors of a removed file are given back. -/
def releaseFile (s : Fs) (n : Inode) : Fs :=
  releaseSectors (releaseSectors s n.sector 1) n.data.start (bytesToSectors n.data.length)

theorem evolves_releaseSectors (s : Fs) (x cnt : Nat) : Evolves s (releaseSectors s x cnt) :=
  .of_eq rfl (Nat.le_refl _)

theorem frees_releaseSectors {s : Fs} {x cnt : Nat} (hle : x + cnt ≤ bitmapSize s.freeMap) :
    Frees s (releaseSectors s x cnt) := by
  have htest := bitmapTest_setMultiple hle false
  refine ⟨fun t ht => ?_, [(x, cnt)], rfl, fun r hr t h1 h2 => ?_⟩
  · rw [releaseSectors, htest] at ht
    split at ht
    · cases ht
    · exact ht
  · rw [List.mem_singleton.mp hr] at h1 h2
    rw [releaseSectors, htest, if_pos ⟨h1, h2⟩]

/-- The last reference to a removed file: both releases pass their ASSERT, and the
sectors belong to no one else. -/
theorem Inv.releaseFile (h : Inv s (addRef refs n.addr)) (hp : refs n.addr = 0)
    (hmap : MapRef s refs) (hn : n ∈ s.openInodes) (hr : n.removed = true) :
    (freeMapRelease n.sector 1 >>= fun _ =>
      freeMapRelease n.data.start (bytesToSectors n.data.length)) (Filesys.dropInode s n.addr) =
        .ok ((), releaseFile (Filesys.dropInode s n.addr) n) ∧
      Inv (releaseFile (Filesys.dropInode s n.addr) n) refs ∧
      Frees s (releaseFile (Filesys.dropInode s n.addr) n) ∧
      ∀ x, Named (releaseFile (Filesys.dropInode s n.addr) n).disk x ↔ Named s.disk x := by
  have hlive := h.live hn
  have hdata := h.data n hn
  have hlt := h.layout.lt hlive
  have h1 := h.dropLast hp hmap
  have hfree1 : ∀ y t, Live s.disk (Opened (Filesys.dropInode s n.addr).openInodes) y →
      Extent s.disk y t → ¬ (n.sector ≤ t ∧ t < n.sector + 1) := fun y t hy ht hx =>
    h.dead hn hr hy ht (.inl (by omega))
  have h2 := h1.release hlt hfree1
  have hmeta := h1.mapWritten_sameMeta
    (bitmapSetMultiple (Filesys.dropInode s n.addr).freeMap n.sector 1 false)
  have hfree2 : ∀ y t, Live (releaseSectors (Filesys.dropInode s n.addr) n.sector 1).disk
      (Opened (Filesys.dropInode s n.addr).openInodes) y →
      Extent (releaseSectors (Filesys.dropInode s n.addr) n.sector 1).disk y t →
      ¬ (n.data.start ≤ t ∧ t < n.data.start + bytesToSectors n.data.length) := by
    intro y t hy ht hx
    have hy : Live s.disk (Opened (Filesys.dropInode s n.addr).openInodes) y := hmeta.live.mp hy
    rw [Extent, show inodeAt (releaseSectors _ n.sector 1).disk y = _ from hmeta.inode y hy] at ht
    rw [hdata] at hx
    exact h.dead hn hr hy ht (.inr hx)
  have hle2 : n.data.start + bytesToSectors n.data.length ≤ s.capacity := by
    rw [hdata]
    exact h.layout.data_le _ hlive
  have hmark2 : ∀ t, n.data.start ≤ t → t < n.data.start + bytesToSectors n.data.length →
      bitmapTest (releaseSectors (Filesys.dropInode s n.addr) n.sector 1).freeMap t = true := by
    intro t ht1 ht2
    have hne : ¬ (n.sector ≤ t ∧ t < n.sector + 1) := by
      intro hx
      obtain rfl : t = n.sector := by omega
      rw [hdata] at ht1 ht2
      exact h.layout.own_data _ hlive ⟨ht1, ht2⟩
    rw [releaseSectors, bitmapTest_setMultiple (by rw [h1.layout.size]; exact hlt), if_neg hne]
    rw [hdata] at ht1 ht2
    exact h.layout.owns.marked n.sector t hlive (.inr ⟨ht1, ht2⟩)
  refine ⟨?_, h2.release hle2 hfree2, ?_, fun x => ?_⟩
  · rw [bind_run, h1.release_run (fun t ht1 ht2 => ?_) hlt, ok_bind]
    · exact h2.release_run hmark2 hle2
    · obtain rfl : t = n.sector := by omega
      exact h.layout.owns.marked _ _ hlive (.inl rfl)
  · have hdrop : Frees s (Filesys.dropInode s n.addr) := .of_eq rfl rfl
    apply hdrop.trans
    refine (frees_releaseSectors (by rw [h1.layout.size]; exact hlt)).trans (frees_releaseSectors ?_)
    rw [h2.layout.size]
    exact hle2
  · exact (h2.mapWritten_sameMeta _).named.trans hmeta.named

/-- The state after `inode_close`. -/
def afterClose (s : Fs) (n : Inode) : Fs :=
  if n.openCnt - 1 = 0 then
    if n.removed then releaseFile (dropInode s n.addr) n else dropInode s n.addr
  else decRef s n.addr

theorem evolves_afterClose (s : Fs) (n : Inode) : Evolves s (afterClose s n) := by
  unfold afterClose
  split
  · split
    · exact (evolves_dropInode s n.addr).trans
        ((evolves_releaseSectors _ _ _).trans (evolves_releaseSectors _ _ _))
    · exact evolves_dropInode s n.addr
  · exact evolves_decRef s n.addr

theorem afterClose_files (s : Fs) (n : Inode) :
    (afterClose s n).files = s.files ∧ (afterClose s n).freeMapFile = s.freeMapFile := by
  unfold afterClose
  split
  · split <;> exact ⟨rfl, rfl⟩
  · exact ⟨rfl, rfl⟩

theorem quiet_afterClose (s : Fs) (n : Inode) : Quiet s (afterClose s n) :=
  ⟨(afterClose_files s n).1, (afterClose_files s n).2, evolves_afterClose s n⟩

/-- The last reference to a removed file: its sectors are released, each once. -/
theorem afterClose_last {s : Fs} {n : Inode} (hr : n.removed = true) (hlast : n.openCnt - 1 = 0) :
    (afterClose s n).released =
      s.released ++ [(n.sector, 1), (n.data.start, bytesToSectors n.data.length)] := by
  rw [afterClose, if_pos hlast, if_pos hr]
  exact List.append_assoc s.released [(n.sector, 1)] [(n.data.start, bytesToSectors n.data.length)]

/-- Otherwise the disk and the free map stay. -/
theorem afterClose_kept {s : Fs} {n : Inode} (h : n.removed = false ∨ n.openCnt - 1 ≠ 0) :
    (afterClose s n).disk = s.disk ∧ (afterClose s n).freeMap = s.freeMap ∧
      (afterClose s n).released = s.released ∧ (afterClose s n).mem = s.mem := by
  unfold afterClose
  split
  · next hlast =>
    rw [if_neg (by simpa [hlast] using h)]
    exact ⟨rfl, rfl, rfl, rfl⟩
  · exact ⟨rfl, rfl, rfl, rfl⟩

/-- **`inode_close`** -/
theorem Inv.close_run (h : Inv s (addRef refs n.addr)) (hmap : MapRef s refs)
    (hn : n ∈ s.openInodes) :
    inodeClose (some n.addr) s = .ok ((), afterClose s n) ∧ Inv (afterClose s n) refs ∧
      Frees s (afterClose s n) ∧ ∀ x, Named (afterClose s n).disk x ↔ Named s.disk x := by
  have hcnt := (h.count n hn).1
  rw [addRef_self] at hcnt
  have hdec : modifyInode n.addr (fun n => { n with openCnt := n.openCnt - 1 }) s =
      .ok ((), Filesys.decRef s n.addr) := rfl
  have hdrop : removeInode n.addr (Filesys.decRef s n.addr) =
      .ok ((), Filesys.dropInode s n.addr) := by
    rw [← dropInode_decRef]
    rfl
  simp only [inodeClose, bind_run, getInode_run (h.inode? hn), ok_bind, hdec]
  unfold afterClose
  by_cases hlast : n.openCnt - 1 = 0
  · rw [if_pos hlast, if_pos hlast]
    have hp : refs n.addr = 0 := by omega
    by_cases hr : n.removed = true
    · obtain ⟨hrun, hinv, hfrees⟩ := h.releaseFile hp hmap hn hr
      rw [if_pos hr, if_pos hr]
      refine ⟨?_, hinv, hfrees⟩
      simp only [bind_run, hdrop, ok_bind]
      exact hrun
    · rw [if_neg hr, if_neg hr]
      refine ⟨?_, h.dropLast hp hmap, .of_eq rfl rfl, fun _ => Iff.rfl⟩
      simp only [bind_run, hdrop, ok_bind, pure_run]
  · rw [if_neg hlast, if_neg hlast]
    exact ⟨rfl, h.decRef (by omega) hmap, .of_eq rfl rfl, fun _ => Iff.rfl⟩

/-- A file that the file system or the root directory has is closed again as it was. -/
theorem OpenedAs.close {s1 : Fs} (ho : OpenedAs s s1 refs x n) (h : Inv s refs)
    (hx : x = freeMapSector ∨ x = rootDirSector ∨ Named s.disk x) (mem : List Bool) :
    ∃ s', inodeClose (some n.addr) { s1 with mem := mem } = .ok ((), s') ∧ Inv s' refs ∧ Quiet s s' ∧
      s'.disk = s.disk ∧ s'.freeMap = s.freeMap ∧ s'.released = s.released := by
  have h1 := ho.inv.setMem mem
  have hq : Quiet s { s1 with mem := mem } :=
    ho.quiet.trans ⟨rfl, rfl, .of_eq rfl (Nat.le_refl _)⟩
  have hkept : n.removed = false := by
    by_contra hr
    obtain ⟨h0, h1, h2⟩ := ho.inv.removed n ho.mem (by simpa using hr)
    rw [ho.disk, ho.sector] at h2
    rw [ho.sector] at h0 h1
    rcases hx with hx | hx | hx
    · exact h0 hx
    · exact h1 hx
    · exact h2 hx
  obtain ⟨hrun, hinv, -, -⟩ := h1.close_run (h.mapRef h1 hq) ho.mem
  obtain ⟨hd, hm, hl, -⟩ := afterClose_kept (s := { s1 with mem := mem }) (.inl hkept)
  exact ⟨_, hrun, hinv, hq.trans (quiet_afterClose _ _), hd.trans ho.disk, hm.trans ho.freeMap,
    hl.trans ho.released⟩

end

/-! ## Creating -/

/-- The sectors from `y` on filled with zeros. -/
def zeroRange (k : Disk) (y cnt : Nat) : Disk := fun t i =>
  if y ≤ t ∧ t < y + cnt ∧ i < sectorSize then 0 else k t i

/-- The disk with a new inode in `x` and its data zeroed. -/
def newFile (k : Disk) (x y : Nat) (length : Int) : Disk :=
  zeroRange (writeSector k x (encodeInode { start := y, length, magic := inodeMagic })) y
    (bytesToSectors length)

theorem zeroSectors_run (cnt : Nat) : ∀ {y : Nat} {s : Fs}, y + cnt ≤ s.capacity →
    zeroSectors y cnt s = .ok ((), { s with disk := zeroRange s.disk y cnt }) := by
  induction cnt with
  | zero =>
    intro y s _
    have : zeroRange s.disk y 0 = s.disk := by
      funext t i
      exact if_neg (by omega)
    rw [this]
    rfl
  | succ cnt ih =>
    intro y s hle
    have hstep : zeroRange (writeSector s.disk y zeros) (y + 1) cnt = zeroRange s.disk y (cnt + 1) := by
      funext t i
      unfold zeroRange writeSector
      by_cases h1 : y + 1 ≤ t ∧ t < y + 1 + cnt ∧ i < sectorSize
      · rw [if_pos h1, if_pos (by omega)]
      · rw [if_neg h1]
        by_cases h2 : t = y ∧ i < sectorSize
        · rw [if_pos h2, if_pos (by omega)]
          rfl
        · rw [if_neg h2, if_neg (by omega)]
    rw [zeroSectors, bind_run, diskWrite_run (by omega), ok_bind]
    refine (ih (by dsimp only; omega)).trans ?_
    rw [hstep]

/-- A sector that is taken and that no live file has. -/
structure Spare (s : Fs) (x : Nat) : Prop where
  marked : bitmapTest s.freeMap x = true
  free : ∀ z, Live s.disk (Opened s.openInodes) z → ¬ Extent s.disk z x

section

variable {s : Fs} {refs : Ptr → Nat} {x y : Nat} {length : Int}

theorem newFile_of_ne {k : Disk} {t : Nat} (hx : t ≠ x)
    (hy : ¬ (y ≤ t ∧ t < y + bytesToSectors length)) : newFile k x y length t = k t := by
  funext i
  unfold newFile zeroRange writeSector
  rw [if_neg (by omega), if_neg (by omega)]

theorem newFile_inode {k : Disk} (hx : ¬ (y ≤ x ∧ x < y + bytesToSectors length)) (h0 : 0 ≤ length)
    (h1 : length < 2 ^ 31) (hy : y < 2 ^ 32) :
    inodeAt (newFile k x y length) x = { start := y, length, magic := inodeMagic } := by
  rw [inodeAt, ← decode_encode (d := { start := y, length, magic := inodeMagic }) hy h0 h1
    (show inodeMagic < 2 ^ 32 by decide)]
  refine decodeInode_congr fun i hi => ?_
  unfold newFile zeroRange writeSector
  rw [if_neg (by omega), if_pos ⟨rfl, hi⟩]

/-- The state after `inode_create` has succeeded. -/
def created (s : Fs) (x y : Nat) (length : Int) : Fs :=
  { takeSectors s y (bytesToSectors length) with
    disk := newFile (takeSectors s y (bytesToSectors length)).disk x y length }

/-- **`inode_create`** -/
theorem MapOpen.create_run {f : Ptr} (h : MapOpen s f) (hmap : s.freeMapFile = some f)
    (h0 : 0 ≤ length) (hx : x < s.capacity) :
    (s.mem.headD true = false ∧
      inodeCreate x length s = .ok (false, { s with mem := s.mem.tail })) ∨
    (s.mem.headD true = true ∧ bitmapScan s.freeMap 0 (bytesToSectors length) false = none ∧
      inodeCreate x length s = .ok (false, { s with mem := s.mem.tail })) ∨
    (s.mem.headD true = true ∧
      ∃ y, bitmapScan s.freeMap 0 (bytesToSectors length) false = some y ∧
      inodeCreate x length s = .ok (
        if mapWriteOk { s with mem := s.mem.tail } then
          (true, created { s with mem := s.mem.tail } x y length)
        else (false, Filesys.mapWritten { s with mem := s.mem.tail }
          (bitmapSetMultiple s.freeMap y (bytesToSectors length) true)))) := by
  have hs : MapOpen { s with mem := s.mem.tail } f := ⟨h.open_file, h.onDisk, h.size⟩
  simp only [inodeCreate, bind_run, assert_run (show decide (0 ≤ length) = true by simpa using h0),
    ok_bind, malloc_run]
  cases s.mem.headD true
  · exact .inl ⟨rfl, rfl⟩
  · right
    simp only [if_true, bind_run]
    rcases hs.allocate_run hmap (bytesToSectors length) with ⟨hscan, e⟩ | ⟨y, hscan, e⟩
    · exact .inl ⟨by trivial, hscan, by rw [e]; rfl⟩
    · refine .inr ⟨by trivial, y, hscan, ?_⟩
      obtain ⟨-, hle, -⟩ := bitmapScan_some hscan
      have hle : y + bytesToSectors length ≤ s.capacity := by
        rw [← h.size]
        exact hle
      rw [e]
      cases mapWriteOk { s with mem := s.mem.tail }
      · rfl
      · have hw := diskWrite_run (s := takeSectors { s with mem := s.mem.tail } y
          (bytesToSectors length)) hx (encodeInode { start := y, length, magic := inodeMagic })
        simp only [if_true, ok_bind, bind_run, hw]
        rw [zeroSectors_run _ (by exact hle), ok_bind]
        rfl

theorem Inv.create_run (h : Inv s refs) (h0 : 0 ≤ length) (hx : x < s.capacity) :
    (s.mem.headD true = false ∧
      inodeCreate x length s = .ok (false, { s with mem := s.mem.tail })) ∨
    (s.mem.headD true = true ∧ bitmapScan s.freeMap 0 (bytesToSectors length) false = none ∧
      inodeCreate x length s = .ok (false, { s with mem := s.mem.tail })) ∨
    (s.mem.headD true = true ∧
      ∃ y, bitmapScan s.freeMap 0 (bytesToSectors length) false = some y ∧
      inodeCreate x length s = .ok (
        if mapWriteOk { s with mem := s.mem.tail } then
          (true, created { s with mem := s.mem.tail } x y length)
        else (false, Filesys.mapWritten { s with mem := s.mem.tail }
          (bitmapSetMultiple s.freeMap y (bytesToSectors length) true)))) := by
  obtain ⟨file, -, -, -, hmap, -⟩ := h.map_ref
  exact (h.mapOpen hmap s.freeMap h.layout.size s.released).create_run hmap h0 hx

/-- The new inode is that of a file without a name. -/
theorem Inv.created (h : Inv s refs) (hx : Spare s x) (h0 : 0 ≤ length) (h1 : length < 2 ^ 31)
    (hscan : bitmapScan s.freeMap 0 (bytesToSectors length) false = some y) :
    Inv (created s x y length) refs ∧
      Unnamed s.capacity (created s x y length).disk (created s x y length).freeMap
        (Opened s.openInodes) x := by
  obtain ⟨-, hle, -⟩ := bitmapScan_some hscan
  have hfree : ∀ t, y ≤ t → t < y + bytesToSectors length → bitmapTest s.freeMap t = false :=
    fun t ht1 ht2 => bitmapScan_test hscan ht1 ht2
  have hle : y + bytesToSectors length ≤ s.capacity := by rwa [← h.layout.size]
  have hcap := s.lba28
  have hout : ¬ (y ≤ x ∧ x < y + bytesToSectors length) := by
    rintro ⟨h1, h2⟩
    have := hfree x h1 h2
    rw [hx.marked] at this
    cases this
  -- The taken sectors belong to no live file, since those are marked.
  have hown : ∀ z t, Live s.disk (Opened s.openInodes) z → Extent s.disk z t →
      t ≠ x ∧ ¬ (y ≤ t ∧ t < y + bytesToSectors length) := by
    intro z t hz ht
    refine ⟨fun he => hx.free z hz (he ▸ ht), fun ⟨h1, h2⟩ => ?_⟩
    have := hfree t h1 h2
    rw [h.layout.owns.marked z t hz ht] at this
    cases this
  have ht := h.mark hle
  have hmeta := h.mapWritten_sameMeta (bitmapSetMultiple s.freeMap y (bytesToSectors length) true)
  have hnew : SameMeta (takeSectors s y (bytesToSectors length)).disk
      (Filesys.created s x y length).disk (Opened s.openInodes) := by
    refine .of_sectors (fun z hz i _ => ?_) fun i _ => ?_
    · obtain ⟨hne, hno⟩ := hown z z (hmeta.live.mp hz) (.inl rfl)
      rw [show (Filesys.created s x y length).disk z = _ from newFile_of_ne hne hno]
    · have hr := hown rootDirSector _ live_root (.inr h.layout.rootData)
      rw [← show inodeAt (takeSectors s y (bytesToSectors length)).disk rootDirSector = _ from
        hmeta.inode _ live_root] at hr
      rw [show (Filesys.created s x y length).disk _ = _ from newFile_of_ne hr.1 hr.2]
  have hino : inodeAt (Filesys.created s x y length).disk x =
      { start := y, length, magic := inodeMagic } := newFile_inode hout h0 h1 (by omega)
  refine ⟨ht.frame hnew _, ?_, ?_, ?_, ?_, ?_⟩
  · rw [hino]
    exact h0
  · rw [hino]
    exact hle
  · intro t ht
    rw [Extent, hino] at ht
    show bitmapTest (bitmapSetMultiple s.freeMap y (bytesToSectors length) true) t = true
    rw [bitmapTest_setMultiple (by rw [h.layout.size]; exact hle)]
    rcases ht with rfl | ht
    · rw [if_neg hout]
      exact hx.marked
    · exact if_pos ht
  · intro z t hz ht hxt
    have hz' := hnew.live.mp hz
    have hz'' := hmeta.live.mp hz'
    rw [Extent, hnew.inode z hz', show inodeAt (takeSectors s y _).disk z = _ from
      hmeta.inode z hz''] at ht
    obtain ⟨hne, hno⟩ := hown z t hz'' ht
    rw [Extent, hino] at hxt
    rcases hxt with rfl | hxt
    · exact hne rfl
    · exact hno hxt
  · rw [hino]
    exact hout

end

end Pintos.Filesys
