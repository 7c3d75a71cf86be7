import Pintos.Filesys.Entries

/-!
# A mounted file system

The free map file is open, and the inodes of a list of sectors are claimed: their sectors and those
of the open inodes are marked and belong to one inode each. This is what the inode functions need
of the rest of the disk, whatever directories there are on it.
-/

namespace Pintos.Filesys

open Pintos.Base Pintos.Kernel

/-- The inodes `live` with their data have marked sectors of their own. -/
structure Extents (capacity : Nat) (k : Disk) (map : Bitmap) (live : Nat → Prop) : Prop where
  size : bitmapSize map = capacity
  length_nonneg : ∀ x, live x → 0 ≤ (inodeAt k x).length
  data_le : ∀ x, live x → (inodeAt k x).start + bytesToSectors (inodeAt k x).length ≤ capacity
  owns : Owns live (Extent k) fun t => bitmapTest map t = true
  own_data : ∀ x, live x → ¬ DataSector (inodeAt k x) x

section

variable {capacity : Nat} {k k' : Disk} {map map' : Bitmap} {live live' : Nat → Prop} {x y t : Nat}

theorem Extents.lt (h : Extents capacity k map live) (hx : live x) (ht : Extent k x t) :
    t < capacity := by
  have := bitmapTest_lt (h.owns.marked x t hx ht)
  rwa [h.size] at this

theorem Extents.dataSector (h : Extents capacity k map live) (hx : live x) {pos : Nat}
    (hpos : (pos : Int) < (inodeAt k x).length) :
    DataSector (inodeAt k x) ((inodeAt k x).start + pos / 512) :=
  dataSector_of_lt (h.length_nonneg x hx) hpos

theorem Extents.onDisk (h : Extents capacity k map live) (hx : live x) :
    OnDisk capacity (inodeAt k x) := fun _ hpos => h.lt hx (.inr (h.dataSector hx hpos))

/-- No inode lies in the data of another or in its own. -/
theorem Extents.not_data (h : Extents capacity k map live) (hx : live x) (hy : live y) :
    ¬ DataSector (inodeAt k y) x := by
  intro hd
  obtain rfl := h.owns.disjoint x y x hx hy (.inl rfl) (.inr hd)
  exact h.own_data x hx hd

theorem Extents.mono (h : Extents capacity k map live) (hl : ∀ x, live' x → live x) :
    Extents capacity k map live' where
  size := h.size
  length_nonneg x hx := h.length_nonneg x (hl x hx)
  data_le x hx := h.data_le x (hl x hx)
  owns := h.owns.mono hl (fun _ _ _ => id) fun _ => id
  own_data x hx := h.own_data x (hl x hx)

/-- The inodes stay as they are. -/
theorem Extents.frame (h : Extents capacity k map live)
    (hk : ∀ x, live x → inodeAt k' x = inodeAt k x) : Extents capacity k' map live where
  size := h.size
  length_nonneg x hx := by
    rw [hk x hx]
    exact h.length_nonneg x hx
  data_le x hx := by
    rw [hk x hx]
    exact h.data_le x hx
  owns := h.owns.mono (fun _ => id) (fun x t hx ht => by rwa [Extent, hk x hx] at ht) fun _ => id
  own_data x hx := by
    rw [hk x hx]
    exact h.own_data x hx

/-- The marks of the live inodes stay. -/
theorem Extents.setMap (h : Extents capacity k map live) (hs : bitmapSize map' = capacity)
    (hm : ∀ x t, live x → Extent k x t → bitmapTest map' t = true) : Extents capacity k map' live :=
  { h with size := hs, owns := ⟨fun x t hx ht => hm x t hx ht, h.owns.disjoint⟩ }

/-- One more inode. -/
theorem Extents.insert (h : Extents capacity k map live) (hl : ∀ z, live' z → live z ∨ z = x)
    (h0 : 0 ≤ (inodeAt k x).length)
    (hle : (inodeAt k x).start + bytesToSectors (inodeAt k x).length ≤ capacity)
    (hm : ∀ t, Extent k x t → bitmapTest map t = true)
    (hd : ∀ z t, live z → Extent k z t → ¬ Extent k x t) (ho : ¬ DataSector (inodeAt k x) x) :
    Extents capacity k map live' where
  size := h.size
  length_nonneg z hz := by
    rcases hl z hz with hz | rfl
    · exact h.length_nonneg z hz
    · exact h0
  data_le z hz := by
    rcases hl z hz with hz | rfl
    · exact h.data_le z hz
    · exact hle
  owns := h.owns.insert hm hd hl
  own_data z hz := by
    rcases hl z hz with hz | rfl
    · exact h.own_data z hz
    · exact ho

/-- A write into the data of one inode leaves the other sectors as they are. -/
theorem Extents.write_out (h : Extents capacity k map live) (hy : live y) {size offset n : Nat}
    (b : Buffer) (hn : n ≤ ioLen (inodeAt k y) size offset) (ht : ¬ DataSector (inodeAt k y) t) :
    splice k (inodeAt k y).start offset n b t = k t := by
  refine splice_untouched fun pos _ h2 hp => ht ?_
  rw [hp]
  apply h.dataSector hy
  unfold ioLen at hn
  omega

theorem Extents.write_inode (h : Extents capacity k map live) (hy : live y) {size offset n : Nat}
    (b : Buffer) (hn : n ≤ ioLen (inodeAt k y) size offset) (hx : live x) :
    inodeAt (splice k (inodeAt k y).start offset n b) x = inodeAt k x :=
  congrArg decodeInode (h.write_out hy b hn (h.not_data hx hy))

end

/-! ## Memory -/

/-- The list of open inodes: `refs` counts the references to each. -/
structure Inodes (s : Fs) (refs : Ptr → Nat) : Prop where
  addrs : (s.openInodes.map Inode.addr).Nodup
  fresh : ∀ n ∈ s.openInodes, n.addr < s.next
  count : ∀ n ∈ s.openInodes, n.openCnt = refs n.addr ∧ 0 < refs n.addr
  refs_open : ∀ p, 0 < refs p → ∃ n ∈ s.openInodes, n.addr = p
  sectors : (s.openInodes.map Inode.sector).Nodup
  data : ∀ n ∈ s.openInodes, n.data = inodeAt s.disk n.sector

/-- The free map file and the inode of it are in memory. -/
def MapHandle (s : Fs) (refs : Ptr → Nat) : Prop :=
  ∃ f n, s.freeMapFile = some f.addr ∧ s.file? f.addr = some f ∧ n ∈ s.openInodes ∧
    n.addr = f.inode ∧ n.sector = freeMapSector ∧ n.denyWriteCnt = 0 ∧ 0 < refs n.addr

section

variable {s : Fs} {refs refs' : Ptr → Nat} {n n' : Inode} {p : Ptr} {x : Nat}

theorem Inodes.counted (h : Inodes s refs) : Counted s.next s.openInodes refs :=
  ⟨h.addrs, h.fresh, h.count, h.refs_open, h.sectors⟩

theorem Inodes.inode? (h : Inodes s refs) (hn : n ∈ s.openInodes) : s.inode? n.addr = some n :=
  find?_addr h.addrs hn

theorem Inodes.ext (h : Inodes s refs) (hn : n ∈ s.openInodes) (hn' : n' ∈ s.openInodes)
    (he : n.addr = n'.addr) : n = n' := h.counted.ext hn hn' he

/-- The inodes change in place. -/
theorem Inodes.map (h : Inodes s refs) {g : Inode → Inode}
    (hg : ∀ n, (g n).sector = n.sector ∧ (g n).data = n.data)
    (hc : Counted s.next (s.openInodes.map g) refs') :
    Inodes { s with openInodes := s.openInodes.map g } refs' :=
  { hc with
    data := List.forall_mem_map.mpr fun n hn => by
      rw [(hg n).2, (hg n).1]
      exact h.data n hn }

/-- An inode no one refers to leaves the list. -/
theorem Inodes.drop (h : Inodes s refs) (hp : refs' p = 0) (hrefs : ∀ q, q ≠ p → refs' q = refs q) :
    Inodes (dropInode s p) refs' :=
  { h.counted.filter hp hrefs with data := fun n hn => h.data n (List.mem_filter.mp hn).1 }

/-- An inode is read into memory. -/
theorem Inodes.load (h : Inodes s refs) (hno : ¬ Opened s.openInodes x) :
    Inodes (loadInode s x) (addRef refs s.next) :=
  { h.counted.cons rfl rfl hno with data := List.forall_mem_cons.mpr ⟨rfl, h.data⟩ }

theorem Inodes.incRef (h : Inodes s refs) (hn : n ∈ s.openInodes) :
    Inodes (incRef s n.addr) (addRef refs n.addr) :=
  h.map (fun m => by
    obtain ⟨-, h2, h3, -⟩ := count_map (f := (· + 1)) n.addr m
    exact ⟨h2, h3⟩) (h.counted.incRef hn)

theorem Inodes.decRef (h : Inodes s (addRef refs p)) (hpos : 0 < refs p) :
    Inodes (decRef s p) refs :=
  h.map (fun m => by
    obtain ⟨-, h2, h3, -⟩ := count_map (f := (· - 1)) p m
    exact ⟨h2, h3⟩) (h.counted.decRef hpos)

end

/-! ## The file system -/

/-- The inodes that are in use. -/
def Used (inodes : List Inode) (claimed : List Nat) (x : Nat) : Prop :=
  x = freeMapSector ∨ x ∈ claimed ∨ Opened inodes x

structure Mounted (s : Fs) (refs : Ptr → Nat) (claimed : List Nat) : Prop where
  extents : Extents s.capacity s.disk s.freeMap (Used s.openInodes claimed)
  map_length : (inodeAt s.disk freeMapSector).length = (byteCnt s.capacity : Nat)
  granted : Granted s.mem
  inodes : Inodes s refs
  removed : ∀ n ∈ s.openInodes, n.removed = true → n.sector ≠ freeMapSector ∧ n.sector ∉ claimed
  map_handle : MapHandle s refs
  not_map : freeMapSector ∉ claimed

/-- The sectors of the claimed inodes, the open inodes but for their counts and the files stay. -/
structure Kept (claimed : List Nat) (s s' : Fs) : Prop where
  disk : ∀ x ∈ claimed, ∀ t, Extent s.disk x t → s'.disk t = s.disk t
  next : s.next ≤ s'.next
  inode : ∀ n' ∈ s'.openInodes, n'.addr < s.next → ∃ n ∈ s.openInodes, n.addr = n'.addr ∧
    n.sector = n'.sector ∧ n.denyWriteCnt = n'.denyWriteCnt
  files : s'.files = s.files
  map_file : s'.freeMapFile = s.freeMapFile

section

variable {s s' s'' : Fs} {refs refs' : Ptr → Nat} {claimed claimed' : List Nat} {n : Inode} {x : Nat}

theorem Kept.inode_same (h : Kept claimed s s') (hx : x ∈ claimed) : inodeAt s'.disk x = inodeAt s.disk x :=
  congrArg decodeInode (h.disk x hx x (.inl rfl))

theorem Kept.trans (h : Kept claimed s s') (h' : Kept claimed s' s'') : Kept claimed s s'' where
  disk x hx t ht := by
    have ht' : Extent s'.disk x t := by rwa [Extent, h.inode_same hx]
    exact (h'.disk x hx t ht').trans (h.disk x hx t ht)
  next := h.next.trans h'.next
  inode n'' hn'' hlt := by
    obtain ⟨n', hn', a', b', c'⟩ := h'.inode n'' hn'' (Nat.lt_of_lt_of_le hlt h.next)
    obtain ⟨n, hn, a, b, c⟩ := h.inode n' hn' (a' ▸ hlt)
    exact ⟨n, hn, a.trans a', b.trans b', c.trans c'⟩
  files := h'.files.trans h.files
  map_file := h'.map_file.trans h.map_file

theorem Kept.mono (h : Kept claimed s s') (hc : ∀ x ∈ claimed', x ∈ claimed) : Kept claimed' s s' :=
  { h with disk := fun x hx => h.disk x (hc x hx) }

/-- A step on the disk. -/
theorem Kept.of_disk (hk : ∀ x ∈ claimed, ∀ t, Extent s.disk x t → s'.disk t = s.disk t)
    (hi : s'.openInodes = s.openInodes) (hn : s'.next = s.next) (hf : s'.files = s.files)
    (hm : s'.freeMapFile = s.freeMapFile) : Kept claimed s s' :=
  ⟨hk, Nat.le_of_eq hn.symm, fun n hn' _ => ⟨n, hi ▸ hn', rfl, rfl, rfl⟩, hf, hm⟩

theorem kept_setMem (s : Fs) (mem : List Bool) : Kept claimed s { s with mem := mem } :=
  .of_disk (fun _ _ _ _ => rfl) rfl rfl rfl rfl

/-- The open inodes change but for what is kept. -/
theorem Kept.of_map {g : Inode → Inode} (hg : ∀ n, (g n).addr = n.addr ∧ (g n).sector = n.sector ∧
    (g n).denyWriteCnt = n.denyWriteCnt) :
    Kept claimed s { s with openInodes := s.openInodes.map g } :=
  ⟨fun _ _ _ _ => rfl, Nat.le_refl _, List.forall_mem_map.mpr fun n hn _ =>
    ⟨n, hn, (hg n).1.symm, (hg n).2.1.symm, (hg n).2.2.symm⟩, rfl, rfl⟩

/-- The handle of the free map file stays one of `refs`. -/
theorem MapHandle.kept (h : MapHandle s refs) (h' : MapHandle s' refs') (hk : Kept claimed s s') :
    MapHandle s' refs := by
  obtain ⟨f, n, hm, hf, -, hn, -, -, hpos⟩ := h
  obtain ⟨f', n', hm', hf', hmem, hn', hs, hd, -⟩ := h'
  have hff : f.addr = f'.addr := Option.some.inj (hm.symm.trans (hk.map_file ▸ hm'))
  have hfile : s'.file? f'.addr = s.file? f.addr := by
    unfold Fs.file?
    rw [hk.files, hff]
  rw [hf', hf] at hfile
  obtain rfl := Option.some.inj hfile
  exact ⟨f', n', hm', hf', hmem, hn', hs, hd, by rwa [hn', ← hn]⟩

theorem Mounted.used (_ : Mounted s refs claimed) (hn : n ∈ s.openInodes) :
    Used s.openInodes claimed n.sector := .inr (.inr ⟨n, hn, rfl⟩)

theorem Mounted.lt (h : Mounted s refs claimed) (hx : Used s.openInodes claimed x) : x < s.capacity :=
  h.extents.lt hx (.inl rfl)

theorem Mounted.mono (h : Mounted s refs claimed) (hc : ∀ x ∈ claimed', x ∈ claimed) :
    Mounted s refs claimed' :=
  { h with
    extents := h.extents.mono fun x hx => hx.imp_right (Or.imp_left (hc x))
    removed := fun n hn hr => (h.removed n hn hr).imp_right (mt (hc n.sector))
    not_map := mt (hc freeMapSector) h.not_map }

/-- The disk and the answers of the allocator change, and the inodes stay. -/
theorem Mounted.setDisk (h : Mounted s refs claimed) {k : Disk} {mem : List Bool} (hm : Granted mem)
    (hk : ∀ x, Used s.openInodes claimed x → inodeAt k x = inodeAt s.disk x) :
    Mounted { s with disk := k, mem := mem } refs claimed where
  extents := h.extents.frame hk
  map_length := (congrArg DiskInode.length (hk _ (.inl rfl))).trans h.map_length
  granted := hm
  inodes := { h.inodes with data := fun n hn => (h.inodes.data n hn).trans (hk _ (h.used hn)).symm }
  removed := h.removed
  map_handle := h.map_handle
  not_map := h.not_map

theorem Mounted.setMem (h : Mounted s refs claimed) {mem : List Bool} (hm : Granted mem) :
    Mounted { s with mem := mem } refs claimed :=
  h.setDisk (k := s.disk) hm fun _ _ => rfl

/-- The free map file can be written. -/
theorem Mounted.mapOpen (h : Mounted s refs claimed) :
    ∃ f, s.freeMapFile = some f ∧ MapOpen s f := by
  obtain ⟨f, n, hm, hf, hn, hp, hs, hd, -⟩ := h.map_handle
  refine ⟨f.addr, hm, ⟨f, n, hf, hp ▸ h.inodes.inode? hn, hd, ?_⟩, h.extents.onDisk (.inl rfl),
    h.extents.size⟩
  rw [h.inodes.data n hn, hs]

theorem Granted.head {mem : List Bool} (h : Granted mem) : mem.headD true = true := by
  by_contra hm
  exact absurd (h _ (mem_of_headD (by simpa using hm))) Bool.false_ne_true

/-! ## Opening -/

/-- The inodes change in place. -/
theorem Mounted.mapInodes (h : Mounted s refs claimed) {g : Inode → Inode}
    (hg : ∀ n, (g n).addr = n.addr ∧ (g n).sector = n.sector ∧ (g n).denyWriteCnt = n.denyWriteCnt)
    (hremoved : ∀ n ∈ s.openInodes, (g n).removed = true →
      n.sector ≠ freeMapSector ∧ n.sector ∉ claimed)
    (hi : Inodes { s with openInodes := s.openInodes.map g } refs') (hm : MapHandle s refs') :
    Mounted { s with openInodes := s.openInodes.map g } refs' claimed where
  extents := by
    refine h.extents.mono fun x hx => hx.imp_right (Or.imp_right ?_)
    rintro ⟨n', hn', rfl⟩
    obtain ⟨n, hn, rfl⟩ := List.mem_map.mp hn'
    exact ⟨n, hn, (hg n).2.1.symm⟩
  map_length := h.map_length
  granted := h.granted
  inodes := hi
  removed := List.forall_mem_map.mpr fun n hn hr => by
    rw [(hg n).2.1]
    exact hremoved n hn hr
  map_handle := by
    obtain ⟨f, n, h1, h2, hn, h3, h4, h5, h6⟩ := hm
    refine ⟨f, g n, h1, h2, List.mem_map_of_mem hn, (hg n).1.trans h3, (hg n).2.1.trans h4,
      (hg n).2.2.trans h5, ?_⟩
    rwa [(hg n).1]
  not_map := h.not_map

theorem MapHandle.mono (h : MapHandle s refs) (hle : ∀ p, refs p ≤ refs' p) : MapHandle s refs' := by
  obtain ⟨f, n, h1, h2, h3, h4, h5, h6, hpos⟩ := h
  exact ⟨f, n, h1, h2, h3, h4, h5, h6, Nat.lt_of_lt_of_le hpos (hle _)⟩

theorem Mounted.incRef (h : Mounted s refs claimed) (hn : n ∈ s.openInodes) :
    Mounted (incRef s n.addr) (addRef refs n.addr) claimed := by
  refine h.mapInodes (fun m => ?_) (fun m hm hr => ?_) (h.inodes.incRef hn)
    (h.map_handle.mono (le_addRef refs _))
  · obtain ⟨h1, h2, -, h4, -⟩ := count_map (f := (· + 1)) n.addr m
    exact ⟨h1, h2, h4⟩
  · rw [(count_map (f := (· + 1)) n.addr m).2.2.2.2] at hr
    exact h.removed m hm hr

theorem kept_incRef (p : Ptr) : Kept claimed s (Filesys.incRef s p) :=
  .of_map fun m => by
    obtain ⟨h1, h2, -, h4, -⟩ := count_map (f := (· + 1)) p m
    exact ⟨h1, h2, h4⟩

theorem Mounted.load (h : Mounted s refs claimed) (hx : Used s.openInodes claimed x)
    (hno : ¬ Opened s.openInodes x) : Mounted (loadInode s x) (addRef refs s.next) claimed where
  extents := by
    refine h.extents.mono fun y hy => ?_
    rcases hy with hy | hy | ⟨n, hn, rfl⟩
    · exact .inl hy
    · exact .inr (.inl hy)
    · rcases List.mem_cons.mp hn with rfl | hn
      · exact hx
      · exact h.used hn
  map_length := h.map_length
  granted b hb := h.granted b (List.mem_of_mem_tail hb)
  inodes := h.inodes.load hno
  removed := List.forall_mem_cons.mpr ⟨fun hr => (by cases hr), h.removed⟩
  map_handle := by
    obtain ⟨f, n, h1, h2, h3, h4, h5, h6, hpos⟩ := h.map_handle
    exact ⟨f, n, h1, h2, List.mem_cons_of_mem _ h3, h4, h5, h6,
      Nat.lt_of_lt_of_le hpos (le_addRef ..)⟩
  not_map := h.not_map

theorem kept_load (x : Nat) : Kept claimed s (loadInode s x) := by
  refine ⟨fun _ _ _ _ => rfl, Nat.le_succ _, fun n' hn' hlt => ?_, rfl, rfl⟩
  rcases List.mem_cons.mp hn' with rfl | hn
  · exact absurd hlt (Nat.lt_irrefl _)
  · exact ⟨n', hn, rfl, rfl, rfl⟩

/-- **`inode_open`** of an inode in use. -/
theorem Mounted.open_run (h : Mounted s refs claimed) (hx : Used s.openInodes claimed x) :
    ∃ n s', inodeOpen x s = .ok (some n.addr, s') ∧ Mounted s' (addRef refs n.addr) claimed ∧
      Kept claimed s s' ∧ n ∈ s'.openInodes ∧ n.sector = x ∧
      (¬ Opened s.openInodes x → n.denyWriteCnt = 0) := by
  rcases h.inodes.counted.open_run (h.lt hx) with ⟨n, hn, hsec, hrun⟩ | ⟨hno, hrun⟩
  · exact ⟨{ n with openCnt := n.openCnt + 1 }, Filesys.incRef s n.addr, hrun, h.incRef hn,
      kept_incRef n.addr, List.mem_map.mpr ⟨n, hn, if_pos rfl⟩, hsec,
      fun hno => absurd ⟨n, hn, hsec⟩ hno⟩
  · rw [h.granted.head, if_pos rfl] at hrun
    exact ⟨_, Filesys.loadInode s x, hrun, h.load hx hno, kept_load x, List.mem_cons_self, rfl,
      fun _ => rfl⟩

/-! ## The free map -/

theorem Mounted.mapWritten_inode (h : Mounted s refs claimed) (map : Bitmap)
    (hx : Used s.openInodes claimed x) : inodeAt (mapWritten s map).disk x = inodeAt s.disk x :=
  h.extents.write_inode (.inl rfl) _ (mapTransfer_le s) hx

/-- A write of the map is whole and leaves the sectors in use as they are. -/
theorem Mounted.mapWritten (h : Mounted s refs claimed) (map : Bitmap) :
    mapWriteOk s = true ∧ Mounted (mapWritten s map) refs claimed ∧ Kept claimed s (mapWritten s map) := by
  have hlen : (mapTransfer s).1 = byteCnt s.capacity := by
    rw [mapTransfer, transfer_of_granted h.granted]
    unfold ioLen
    rw [h.map_length]
    omega
  refine ⟨decide_eq_true hlen, h.setDisk (granted_transfer h.granted _ _ _ _) fun x hx =>
    h.mapWritten_inode map hx, .of_disk (fun x hx t ht => ?_) rfl rfl rfl rfl⟩
  refine h.extents.write_out (.inl rfl) _ (mapTransfer_le s) fun hd =>
    h.not_map ?_
  rwa [h.extents.owns.disjoint _ _ t (.inl rfl) (.inr (.inl hx)) (.inr hd) ht]

/-- The marks change, and those of the inodes in use stay. -/
theorem Mounted.setMap (h : Mounted s refs claimed) {map : Bitmap} (log : List (Nat × Nat))
    (hs : bitmapSize map = s.capacity) (hm : ∀ x t, Used s.openInodes claimed x → Extent s.disk x t →
      bitmapTest map t = true) : Mounted { s with freeMap := map, released := log } refs claimed :=
  { h with
    extents := h.extents.setMap hs hm
    inodes := { h.inodes with }
    map_handle := h.map_handle }

/-- **`free_map_release`** of sectors no inode in use has. -/
theorem Mounted.release (h : Mounted s refs claimed) {cnt : Nat} (hle : x + cnt ≤ s.capacity)
    (hmark : ∀ t, x ≤ t → t < x + cnt → bitmapTest s.freeMap t = true)
    (hfree : ∀ y t, Used s.openInodes claimed y → Extent s.disk y t → ¬ (x ≤ t ∧ t < x + cnt)) :
    freeMapRelease x cnt s = .ok ((), releaseSectors s x cnt) ∧
      Mounted (releaseSectors s x cnt) refs claimed ∧ Kept claimed s (releaseSectors s x cnt) := by
  obtain ⟨f, hf, hopen⟩ := h.mapOpen
  obtain ⟨-, hm, hk⟩ := h.mapWritten (bitmapSetMultiple s.freeMap x cnt false)
  refine ⟨hopen.release_run hf hmark hle, hm.setMap _ ?_ fun y t hy ht => ?_, ⟨hk.disk, hk.next,
    hk.inode, hk.files, hk.map_file⟩⟩
  · rw [bitmapSize_setMultiple, h.extents.size]
    rfl
  · rw [Extent, h.mapWritten_inode _ hy] at ht
    rw [bitmapTest_setMultiple (by rw [h.extents.size]; exact hle), if_neg (hfree y t hy ht)]
    exact h.extents.owns.marked y t hy ht

/-- **`free_map_allocate`** -/
theorem Mounted.allocate (h : Mounted s refs claimed) (cnt : Nat) :
    (bitmapScan s.freeMap 0 cnt false = none ∧ freeMapAllocate cnt s = .ok (none, s)) ∨
    ∃ x, bitmapScan s.freeMap 0 cnt false = some x ∧ x + cnt ≤ s.capacity ∧
      freeMapAllocate cnt s = .ok (some x, takeSectors s x cnt) ∧
      Mounted (takeSectors s x cnt) refs claimed ∧ Kept claimed s (takeSectors s x cnt) := by
  obtain ⟨f, hf, hopen⟩ := h.mapOpen
  rcases hopen.allocate_run hf cnt with hno | ⟨x, hscan, hrun⟩
  · exact .inl hno
  · obtain ⟨hok, hm, hk⟩ := h.mapWritten (bitmapSetMultiple s.freeMap x cnt true)
    obtain ⟨-, hle, -⟩ := bitmapScan_some hscan
    rw [hok, if_pos rfl] at hrun
    refine .inr ⟨x, hscan, h.extents.size ▸ hle, hrun, hm.setMap s.released ?_ fun y t hy ht => ?_,
      ⟨hk.disk, hk.next, hk.inode, hk.files, hk.map_file⟩⟩
    · rw [bitmapSize_setMultiple, h.extents.size]
      rfl
    · rw [Extent, h.mapWritten_inode _ hy] at ht
      rw [bitmapTest_setMultiple hle]
      split
      · rfl
      · exact h.extents.owns.marked y t hy ht

/-! ## Closing -/

theorem Mounted.drop (h : Mounted s (addRef refs n.addr) claimed) (hp : refs n.addr = 0)
    (hmap : MapHandle s refs) : Mounted (dropInode s n.addr) refs claimed where
  extents := h.extents.mono fun x hx => hx.imp_right (Or.imp_right fun ⟨m, hm, hs⟩ =>
    ⟨m, (List.mem_filter.mp hm).1, hs⟩)
  map_length := h.map_length
  granted := h.granted
  inodes := h.inodes.drop hp fun _ hq => (addRef_of_ne refs hq).symm
  removed m hm := h.removed m (List.mem_filter.mp hm).1
  map_handle := by
    obtain ⟨f, m, h1, h2, h3, h4, h5, h6, hpos⟩ := hmap
    refine ⟨f, m, h1, h2, List.mem_filter.mpr ⟨h3, ?_⟩, h4, h5, h6, hpos⟩
    have hne : m.addr ≠ n.addr := fun he => by
      rw [he, hp] at hpos
      exact absurd hpos (Nat.lt_irrefl 0)
    simpa using hne
  not_map := h.not_map

theorem kept_drop (p : Ptr) : Kept claimed s (dropInode s p) :=
  ⟨fun _ _ _ _ => rfl, Nat.le_refl _, fun n hn _ => ⟨n, (List.mem_filter.mp hn).1, rfl, rfl, rfl⟩,
    rfl, rfl⟩

theorem Mounted.decRef (h : Mounted s (addRef refs n.addr) claimed) (hpos : 0 < refs n.addr)
    (hmap : MapHandle s refs) : Mounted (decRef s n.addr) refs claimed := by
  refine h.mapInodes (fun m => ?_) (fun m hm hr => ?_) (h.inodes.decRef hpos) hmap
  · obtain ⟨h1, h2, -, h4, -⟩ := count_map (f := (· - 1)) n.addr m
    exact ⟨h1, h2, h4⟩
  · rw [(count_map (f := (· - 1)) n.addr m).2.2.2.2] at hr
    exact h.removed m hm hr

theorem kept_decRef (p : Ptr) : Kept claimed s (Filesys.decRef s p) :=
  .of_map fun m => by
    obtain ⟨h1, h2, -, h4, -⟩ := count_map (f := (· - 1)) p m
    exact ⟨h1, h2, h4⟩

/-- A removed inode that is closed is no longer in use. -/
theorem Mounted.dead (h : Mounted s refs claimed) (hn : n ∈ s.openInodes) (hr : n.removed = true)
    {y t : Nat} (hy : Used (dropInode s n.addr).openInodes claimed y) (ht : Extent s.disk y t) :
    ¬ Extent s.disk n.sector t := by
  intro hxt
  obtain ⟨h0, h1⟩ := h.removed n hn hr
  have hlive : Used s.openInodes claimed y ∧ y ≠ n.sector := by
    rcases hy with rfl | hy | ⟨m, hm, rfl⟩
    · exact ⟨.inl rfl, h0.symm⟩
    · exact ⟨.inr (.inl hy), fun he => h1 (he ▸ hy)⟩
    · obtain ⟨hm, hne⟩ := List.mem_filter.mp hm
      refine ⟨h.used hm, fun he => ?_⟩
      rw [List.inj_on_of_nodup_map h.inodes.sectors hm hn he] at hne
      simp at hne
  exact hlive.2 (h.extents.owns.disjoint _ _ t hlive.1 (h.used hn) ht hxt)

/-- The sectors of a removed inode that was open once are given back. -/
theorem Mounted.releaseFile (h : Mounted s (addRef refs n.addr) claimed) (hp : refs n.addr = 0)
    (hmap : MapHandle s refs) (hn : n ∈ s.openInodes) (hr : n.removed = true) :
    ∃ s', (freeMapRelease n.sector 1 >>= fun _ =>
        freeMapRelease n.data.start (bytesToSectors n.data.length)) (dropInode s n.addr) = .ok ((), s') ∧
      Mounted s' refs claimed ∧ Kept claimed s s' := by
  have hused := h.used hn
  have hdata := h.inodes.data n hn
  have h1 := h.drop hp hmap
  have hle1 : n.sector + 1 ≤ (dropInode s n.addr).capacity := h.lt hused
  have hle2 : n.data.start + bytesToSectors n.data.length ≤
      (releaseSectors (dropInode s n.addr) n.sector 1).capacity := by
    rw [hdata]
    exact h.extents.data_le _ hused
  obtain ⟨hrun1, h2, hk2⟩ := h1.release hle1 (fun t ht1 ht2 => by
    obtain rfl : t = n.sector := by omega
    exact h.extents.owns.marked _ _ hused (.inl rfl)) fun y t hy ht hx =>
    h.dead hn hr hy ht (.inl (by omega))
  have hmark2 : ∀ t, n.data.start ≤ t → t < n.data.start + bytesToSectors n.data.length →
      bitmapTest (releaseSectors (dropInode s n.addr) n.sector 1).freeMap t = true := by
    intro t ht1 ht2
    rw [hdata] at ht1 ht2
    have hne : ¬ (n.sector ≤ t ∧ t < n.sector + 1) := fun hx => by
      obtain rfl : t = n.sector := by omega
      exact h.extents.own_data _ hused ⟨ht1, ht2⟩
    rw [releaseSectors, bitmapTest_setMultiple (by rw [h1.extents.size]; exact h.lt hused), if_neg hne]
    exact h.extents.owns.marked n.sector t hused (.inr ⟨ht1, ht2⟩)
  obtain ⟨hrun2, h3, hk3⟩ := h2.release hle2 hmark2 fun y t hy ht hx => by
    have hy' : Used (dropInode s n.addr).openInodes claimed y := hy
    rw [Extent, show inodeAt (releaseSectors _ n.sector 1).disk y = _ from
      h1.mapWritten_inode _ hy'] at ht
    rw [hdata] at hx
    exact h.dead hn hr hy' ht (.inr hx)
  refine ⟨_, ?_, h3, ((kept_drop n.addr).trans hk2).trans hk3⟩
  rw [bind_run, hrun1, ok_bind]
  exact hrun2

/-- **`inode_close`** of one of several references, or of the last. -/
theorem Mounted.close_run (h : Mounted s (addRef refs n.addr) claimed) (hmap : MapHandle s refs)
    (hn : n ∈ s.openInodes) :
    ∃ s', inodeClose (some n.addr) s = .ok ((), s') ∧ Mounted s' refs claimed ∧ Kept claimed s s' := by
  have hcnt := (h.inodes.count n hn).1
  rw [addRef_self] at hcnt
  have hdec : modifyInode n.addr (fun n => { n with openCnt := n.openCnt - 1 }) s =
      .ok ((), Filesys.decRef s n.addr) := rfl
  have hdrop : removeInode n.addr (Filesys.decRef s n.addr) = .ok ((), dropInode s n.addr) := by
    rw [← dropInode_decRef]
    rfl
  simp only [inodeClose, bind_run, getInode_run (h.inodes.inode? hn), ok_bind, hdec]
  by_cases hlast : n.openCnt - 1 = 0
  · have hp : refs n.addr = 0 := by omega
    rw [if_pos hlast]
    by_cases hr : n.removed = true
    · obtain ⟨s', hrun, hm, hk⟩ := h.releaseFile hp hmap hn hr
      rw [if_pos hr]
      refine ⟨s', ?_, hm, hk⟩
      simp only [bind_run, hdrop, ok_bind]
      exact hrun
    · rw [if_neg hr]
      refine ⟨dropInode s n.addr, ?_, h.drop hp hmap, kept_drop n.addr⟩
      simp only [bind_run, hdrop, ok_bind, pure_run]
  · rw [if_neg hlast]
    exact ⟨Filesys.decRef s n.addr, rfl, h.decRef (by omega) hmap, kept_decRef n.addr⟩

/-- An inode that is not claimed is marked as removed. -/
theorem Mounted.setRemoved (h : Mounted s refs claimed) (hn : n ∈ s.openInodes)
    (h0 : n.sector ≠ freeMapSector) (h1 : n.sector ∉ claimed) :
    Mounted (setRemoved s n.addr) refs claimed := by
  refine h.mapInodes (fun m => ?_) (fun m hm hr => ?_) ?_ h.map_handle
  · split <;> exact ⟨rfl, rfl, rfl⟩
  · by_cases he : m.addr = n.addr
    · obtain rfl := h.inodes.ext hm hn he
      exact ⟨h0, h1⟩
    · rw [if_neg he] at hr
      exact h.removed m hm hr
  · refine h.inodes.map (fun m => ?_) (h.inodes.counted.setRemoved n.addr)
    split <;> exact ⟨rfl, rfl⟩

theorem kept_setRemoved (p : Ptr) : Kept claimed s (Filesys.setRemoved s p) :=
  .of_map fun m => by split <;> exact ⟨rfl, rfl, rfl⟩

/-! ## Creating -/

/-- A sector that is taken and that no inode in use has. -/
structure Unowned (s : Fs) (claimed : List Nat) (x : Nat) : Prop where
  marked : bitmapTest s.freeMap x = true
  free : ∀ z, Used s.openInodes claimed z → ¬ Extent s.disk z x

/-- What a new inode is: a file of `length` zeros. -/
structure NewInode (s s' : Fs) (refs : Ptr → Nat) (claimed : List Nat) (x : Nat) (length : Int) :
    Prop where
  mounted : Mounted s' refs (x :: claimed)
  kept : Kept claimed s s'
  len : (inodeAt s'.disk x).length = length
  zero : ∀ pos : Nat, (pos : Int) < length → fileByte s'.disk (inodeAt s'.disk x).start pos = 0

/-- **`inode_create`** -/
theorem Mounted.create_run (h : Mounted s refs claimed) (hx : Unowned s claimed x) {length : Int}
    (h0 : 0 ≤ length) (h1 : length < 2 ^ 31) :
    (∃ mem, inodeCreate x length s = .ok (false, { s with mem := mem }) ∧ Granted mem) ∨
      ∃ s', inodeCreate x length s = .ok (true, s') ∧ NewInode s s' refs claimed x length := by
  obtain ⟨f, hf, hopen⟩ := h.mapOpen
  have hxs : x < s.capacity := by
    have := bitmapTest_lt hx.marked
    rwa [h.extents.size] at this
  have htail : Granted s.mem.tail := fun b hb => h.granted b (List.mem_of_mem_tail hb)
  have hs := h.setMem htail
  rcases hopen.create_run hf h0 hxs with ⟨hm, -⟩ | ⟨-, -, hrun⟩ | ⟨-, y, hscan, hrun⟩
  · rw [h.granted.head] at hm
    cases hm
  · exact .inl ⟨_, hrun, htail⟩
  right
  rcases hs.allocate (bytesToSectors length) with ⟨hno, -⟩ | ⟨y', hscan', hle, -, ht, hk⟩
  · cases hscan.symm.trans hno
  cases hscan.symm.trans hscan'
  rw [(hs.mapWritten s.freeMap).1, if_pos rfl] at hrun
  -- The sectors taken belong to no inode in use, since those are marked.
  have hown : ∀ z t, Used s.openInodes claimed z → Extent s.disk z t →
      t ≠ x ∧ ¬ (y ≤ t ∧ t < y + bytesToSectors length) := fun z t hz ht => by
    refine ⟨fun he => hx.free z hz (he ▸ ht), fun ⟨ht1, ht2⟩ => ?_⟩
    have hfree := bitmapScan_test hscan ht1 ht2
    rw [h.extents.owns.marked z t hz ht] at hfree
    cases hfree
  have hout : ¬ (y ≤ x ∧ x < y + bytesToSectors length) := fun ⟨hx1, hx2⟩ => by
    have hfree := bitmapScan_test hscan hx1 hx2
    rw [hx.marked] at hfree
    cases hfree
  have hle' : y + bytesToSectors length ≤ bitmapSize s.freeMap := h.extents.size.symm ▸ hle
  have hcap := s.lba28
  have hino : inodeAt (created { s with mem := s.mem.tail } x y length).disk x =
      { start := y, length, magic := inodeMagic } :=
    newFile_inode hout h0 h1 (by dsimp only at hle; omega)
  have hsame : ∀ z, Used s.openInodes claimed z →
      inodeAt (created { s with mem := s.mem.tail } x y length).disk z =
        inodeAt (takeSectors { s with mem := s.mem.tail } y (bytesToSectors length)).disk z :=
    fun z hz => congrArg decodeInode (newFile_of_ne (hown z z hz (.inl rfl)).1 (hown z z hz (.inl rfl)).2)
  have hold : ∀ z, Used s.openInodes claimed z →
      inodeAt (created { s with mem := s.mem.tail } x y length).disk z = inodeAt s.disk z :=
    fun z hz => (hsame z hz).trans (hs.mapWritten_inode _ hz)
  have hnew := ht.setDisk ht.granted hsame
  have hlive : ∀ z, Used s.openInodes (x :: claimed) z → Used s.openInodes claimed z ∨ z = x := by
    rintro z (hz | hz | hz)
    · exact .inl (.inl hz)
    · exact (List.mem_cons.mp hz).symm.imp_left fun hz => .inr (.inl hz)
    · exact .inl (.inr (.inr hz))
  refine ⟨_, hrun, ⟨{ hnew with
      extents := hnew.extents.insert hlive ?_ ?_ (fun t ht => ?_) (fun z t hz ht hxt => ?_) ?_
      removed := fun n hn hr => ?_
      not_map := ?_ }, .of_disk (fun z hz t ht => ?_) rfl rfl rfl rfl, ?_, fun pos hpos => ?_⟩⟩
  · rw [hino]
    exact h0
  · rw [hino]
    exact hle
  · rw [Extent, hino] at ht
    show bitmapTest (bitmapSetMultiple s.freeMap y (bytesToSectors length) true) t = true
    rw [bitmapTest_setMultiple hle']
    rcases ht with rfl | ht
    · rw [if_neg hout]
      exact hx.marked
    · exact if_pos ht
  · have hz' : Used s.openInodes claimed z := hz
    rw [Extent, hold z hz'] at ht
    rw [Extent, hino] at hxt
    obtain ⟨hne, hno⟩ := hown z t hz' ht
    rcases hxt with hxt | hxt
    · exact hne hxt
    · exact hno hxt
  · rw [hino]
    exact hout
  · obtain ⟨hn0, hn1⟩ := h.removed n hn hr
    refine ⟨hn0, fun hm => ?_⟩
    rcases List.mem_cons.mp hm with hm | hm
    · exact hx.free _ (h.used hn) (.inl hm.symm)
    · exact hn1 hm
  · intro hm
    rcases List.mem_cons.mp hm with hm | hm
    · exact hx.free _ (.inl rfl) (.inl hm.symm)
    · exact h.not_map hm
  · obtain ⟨hne, hno⟩ := hown z t (.inr (.inl hz)) ht
    exact (newFile_of_ne hne hno).trans (hk.disk z hz t ht)
  · rw [hino]
  · have hsec := le_bytesToSectors h0 h1
    unfold sectorSize at hsec
    rw [hino]
    refine if_pos ⟨Nat.le_add_right y _, ?_, Nat.mod_lt _ (by decide)⟩
    show y + pos / 512 < y + bytesToSectors length
    omega

end

end Pintos.Filesys
