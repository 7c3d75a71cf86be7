import Pintos.Filesys.Layout
import Mathlib.Data.List.Nodup

/-!
# The invariant of the file system

The layout of the disk together with the in-memory inodes and files. `refs` counts
the references to each inode that have been handed out and not yet closed: at the
boundary of a call those of the open files, inside one also the caller's own.
-/

namespace Pintos.Filesys

open Pintos.Base Pintos.Kernel

/-- The sectors with an open inode. -/
def Opened (inodes : List Inode) (x : Nat) : Prop := ∃ n ∈ inodes, n.sector = x

/-- One reference more. -/
def addRef (refs : Ptr → Nat) (p q : Ptr) : Nat := refs q + if q = p then 1 else 0

theorem addRef_self (refs : Ptr → Nat) (p : Ptr) : addRef refs p p = refs p + 1 := by
  rw [addRef, if_pos rfl]

theorem addRef_of_ne (refs : Ptr → Nat) {p q : Ptr} (h : q ≠ p) : addRef refs p q = refs q := by
  rw [addRef, if_neg h, Nat.add_zero]

theorem le_addRef (refs : Ptr → Nat) (p q : Ptr) : refs q ≤ addRef refs p q := Nat.le_add_right ..

/-- The references held by open files. -/
def fileRefs (files : List File) (p : Ptr) : Nat := files.countP fun f => f.inode == p

/-- The free map file is open, and its reference is one of `refs`. -/
def MapRef (s : Fs) (refs : Ptr → Nat) : Prop :=
  ∃ f ∈ s.files, ∃ n ∈ s.openInodes, s.freeMapFile = some f.addr ∧ n.addr = f.inode ∧
    n.sector = freeMapSector ∧ 0 < refs f.inode

structure Inv (s : Fs) (refs : Ptr → Nat) : Prop where
  layout : Layout s.capacity s.disk s.freeMap (Opened s.openInodes)
  addrs : (s.openInodes.map Inode.addr).Nodup
  fresh : ∀ n ∈ s.openInodes, n.addr < s.next
  count : ∀ n ∈ s.openInodes, n.openCnt = refs n.addr ∧ 0 < refs n.addr
  refs_open : ∀ p, 0 < refs p → ∃ n ∈ s.openInodes, n.addr = p
  sectors : (s.openInodes.map Inode.sector).Nodup
  data : ∀ n ∈ s.openInodes, n.data = inodeAt s.disk n.sector
  removed : ∀ n ∈ s.openInodes, n.removed = true →
    n.sector ≠ freeMapSector ∧ n.sector ≠ rootDirSector ∧ ¬ Named s.disk n.sector
  deny : ∀ n ∈ s.openInodes, n.denyWriteCnt = 0
  file_addrs : (s.files.map File.addr).Nodup
  file_fresh : ∀ f ∈ s.files, f.addr < s.next
  file_deny : ∀ f ∈ s.files, f.denyWrite = false
  map_ref : MapRef s refs

/-- The structure in a list with a given address. -/
theorem find?_addr {α : Type} {l : List α} {addr : α → Ptr} (h : (l.map addr).Nodup) {a : α}
    (ha : a ∈ l) : l.find? (fun b => addr b == addr a) = some a := by
  induction l with
  | nil => cases ha
  | cons b l ih =>
    rw [List.map_cons, List.nodup_cons] at h
    rcases List.mem_cons.mp ha with rfl | ha
    · exact List.find?_cons_of_pos (by simp)
    · rw [List.find?_cons_of_neg, ih h.2 ha]
      intro hb
      exact h.1 (List.mem_map.mpr ⟨a, ha, (beq_iff_eq.mp hb).symm⟩)

/-! ## The list of open inodes -/

/-- Inodes of different sectors at different places below `next`, each with its references. -/
structure Counted (next : Ptr) (inodes : List Inode) (refs : Ptr → Nat) : Prop where
  addrs : (inodes.map Inode.addr).Nodup
  fresh : ∀ n ∈ inodes, n.addr < next
  count : ∀ n ∈ inodes, n.openCnt = refs n.addr ∧ 0 < refs n.addr
  refs_open : ∀ p, 0 < refs p → ∃ n ∈ inodes, n.addr = p
  sectors : (inodes.map Inode.sector).Nodup

section

variable {next : Ptr} {inodes : List Inode} {refs refs' : Ptr → Nat} {n n' : Inode} {p : Ptr}

theorem Counted.ext (h : Counted next inodes refs) (hn : n ∈ inodes) (hn' : n' ∈ inodes)
    (he : n.addr = n'.addr) : n = n' := List.inj_on_of_nodup_map h.addrs hn hn' he

theorem Counted.refs_next (h : Counted next inodes refs) : refs next = 0 := by
  by_contra hne
  obtain ⟨n, hn, he⟩ := h.refs_open next (Nat.pos_of_ne_zero hne)
  exact absurd (he ▸ h.fresh n hn) (Nat.lt_irrefl _)

/-- The inodes change in place. -/
theorem Counted.map (h : Counted next inodes refs) {g : Inode → Inode}
    (hg : ∀ n, (g n).addr = n.addr ∧ (g n).sector = n.sector)
    (hcount : ∀ n ∈ inodes, (g n).openCnt = refs' n.addr ∧ 0 < refs' n.addr)
    (hopen : ∀ p, 0 < refs' p → ∃ n ∈ inodes, n.addr = p) : Counted next (inodes.map g) refs' where
  addrs := by
    have hsame : (inodes.map g).map Inode.addr = inodes.map Inode.addr := by
      rw [List.map_map]
      exact List.map_congr_left fun n _ => (hg n).1
    rw [hsame]
    exact h.addrs
  fresh := List.forall_mem_map.mpr fun n hn => by
    rw [(hg n).1]
    exact h.fresh n hn
  count := List.forall_mem_map.mpr fun n hn => by
    rw [(hg n).1]
    exact hcount n hn
  refs_open p hp := by
    obtain ⟨n, hn, rfl⟩ := hopen p hp
    exact ⟨g n, List.mem_map_of_mem hn, (hg n).1⟩
  sectors := by
    have hsame : (inodes.map g).map Inode.sector = inodes.map Inode.sector := by
      rw [List.map_map]
      exact List.map_congr_left fun n _ => (hg n).2
    rw [hsame]
    exact h.sectors

/-- An inode no one refers to leaves the list. -/
theorem Counted.filter (h : Counted next inodes refs) (hp : refs' p = 0)
    (hrefs : ∀ q, q ≠ p → refs' q = refs q) :
    Counted next (inodes.filter fun n => n.addr ≠ p) refs' := by
  have hsub : ∀ n ∈ inodes.filter (fun n => n.addr ≠ p), n ∈ inodes ∧ n.addr ≠ p :=
    fun n hn => by simpa using List.mem_filter.mp hn
  refine ⟨h.addrs.sublist (List.filter_sublist.map _), fun n hn => h.fresh n (hsub n hn).1,
    fun n hn => ?_, fun q hq => ?_, h.sectors.sublist (List.filter_sublist.map _)⟩
  · rw [hrefs _ (hsub n hn).2]
    exact h.count n (hsub n hn).1
  · have hne : q ≠ p := by
      rintro rfl
      exact absurd hp (Nat.ne_of_gt hq)
    obtain ⟨n, hn, rfl⟩ := h.refs_open q (hrefs q hne ▸ hq)
    exact ⟨n, List.mem_filter.mpr ⟨hn, by simpa using hne⟩, rfl⟩

/-- An inode enters the list with its first reference. -/
theorem Counted.cons (h : Counted next inodes refs) (haddr : n.addr = next) (hcnt : n.openCnt = 1)
    (hno : ¬ Opened inodes n.sector) : Counted (next + 1) (n :: inodes) (addRef refs next) := by
  refine ⟨?_, List.forall_mem_cons.mpr ⟨?_, fun m hm => Nat.lt_succ_of_lt (h.fresh m hm)⟩,
    List.forall_mem_cons.mpr ⟨?_, fun m hm => ?_⟩, fun q hq => ?_, ?_⟩
  · refine List.nodup_cons.mpr ⟨fun hm => ?_, h.addrs⟩
    obtain ⟨m, hm, he⟩ := List.mem_map.mp hm
    exact absurd (he.trans haddr) (Nat.ne_of_lt (h.fresh m hm))
  · rw [haddr]
    exact Nat.lt_succ_self _
  · rw [haddr, addRef_self, h.refs_next, hcnt]
    exact ⟨rfl, Nat.one_pos⟩
  · rw [addRef_of_ne _ (Nat.ne_of_lt (h.fresh m hm))]
    exact h.count m hm
  · by_cases hq' : q = next
    · exact ⟨n, List.mem_cons_self, haddr.trans hq'.symm⟩
    · rw [addRef_of_ne _ hq'] at hq
      obtain ⟨m, hm, he⟩ := h.refs_open q hq
      exact ⟨m, List.mem_cons_of_mem _ hm, he⟩
  · refine List.nodup_cons.mpr ⟨fun hm => hno ?_, h.sectors⟩
    obtain ⟨m, hm, he⟩ := List.mem_map.mp hm
    exact ⟨m, hm, he⟩

end

section

variable {s : Fs} {refs : Ptr → Nat} {n n' : Inode} {p : Ptr}

theorem Inv.counted (h : Inv s refs) : Counted s.next s.openInodes refs :=
  ⟨h.addrs, h.fresh, h.count, h.refs_open, h.sectors⟩

theorem Inv.inode? (h : Inv s refs) (hn : n ∈ s.openInodes) : s.inode? n.addr = some n :=
  find?_addr h.addrs hn

theorem Inv.file? (h : Inv s refs) {f : File} (hf : f ∈ s.files) : s.file? f.addr = some f :=
  find?_addr h.file_addrs hf

theorem Inv.inode_ext (h : Inv s refs) (hn : n ∈ s.openInodes) (hn' : n' ∈ s.openInodes)
    (he : n.addr = n'.addr) : n = n' := h.counted.ext hn hn' he

theorem Inv.sector_ext (h : Inv s refs) (hn : n ∈ s.openInodes) (hn' : n' ∈ s.openInodes)
    (he : n.sector = n'.sector) : n = n' :=
  List.inj_on_of_nodup_map h.sectors hn hn' he

theorem Inv.live (_ : Inv s refs) (hn : n ∈ s.openInodes) :
    Live s.disk (Opened s.openInodes) n.sector := .inr (.inr (.inr ⟨n, hn, rfl⟩))

theorem Inv.onDisk (h : Inv s refs) (hn : n ∈ s.openInodes) : OnDisk s.capacity n.data := by
  rw [h.data n hn]
  exact h.layout.onDisk (h.live hn)

/-- Sectors outside the inodes and the directory, and the allocator's answers, can change. -/
theorem Inv.frame (h : Inv s refs) {k : Disk} (hk : SameMeta s.disk k (Opened s.openInodes))
    (mem : List Bool) : Inv { s with disk := k, mem := mem } refs :=
  { h with
    layout := h.layout.frame hk
    data := fun n hn => (h.data n hn).trans (hk.inode _ (h.live hn)).symm
    removed := fun n hn hr => by
      obtain ⟨h0, h1, h2⟩ := h.removed n hn hr
      exact ⟨h0, h1, fun hname => h2 (hk.named.mp hname)⟩
    map_ref := h.map_ref }

theorem Inv.setMem (h : Inv s refs) (mem : List Bool) : Inv { s with mem := mem } refs :=
  h.frame (k := s.disk) ⟨fun _ _ => rfl, fun _ _ _ _ => rfl⟩ mem

/-! ## The free map and its file -/

/-- What a write of the free map moves, and the allocator's answers it leaves. -/
def mapTransfer (s : Fs) : Nat × List Bool :=
  transfer (inodeAt s.disk freeMapSector) (byteCnt s.capacity) 0 false s.mem

/-- The whole map is written. -/
def mapWriteOk (s : Fs) : Bool := decide ((mapTransfer s).1 = byteCnt s.capacity)

/-- The state after `map` has been written to the free map file. -/
def mapWritten (s : Fs) (map : Bitmap) : Fs :=
  { s with
    disk := splice s.disk (inodeAt s.disk freeMapSector).start 0 (mapTransfer s).1 (bitmapBytes map)
    mem := (mapTransfer s).2 }

/-- The state after sectors have been taken. -/
def takeSectors (s : Fs) (x cnt : Nat) : Fs :=
  { mapWritten s (bitmapSetMultiple s.freeMap x cnt true) with
    freeMap := bitmapSetMultiple s.freeMap x cnt true }

/-- The state after sectors have been released. -/
def releaseSectors (s : Fs) (x cnt : Nat) : Fs :=
  { mapWritten s (bitmapSetMultiple s.freeMap x cnt false) with
    freeMap := bitmapSetMultiple s.freeMap x cnt false
    released := s.released ++ [(x, cnt)] }

theorem mapTransfer_le (s : Fs) :
    (mapTransfer s).1 ≤ ioLen (inodeAt s.disk freeMapSector) (byteCnt s.capacity) 0 := transfer_le

/-- A write of the map changes the data of the free map file only. -/
theorem mapWritten_of_not_data (h0 : 0 ≤ (inodeAt s.disk freeMapSector).length) (map : Bitmap)
    {t : Nat} (ht : ¬ DataSector (inodeAt s.disk freeMapSector) t) :
    (mapWritten s map).disk t = s.disk t := by
  have hle := mapTransfer_le s
  refine splice_untouched fun pos _ h2 hp => ht ?_
  rw [hp]
  apply dataSector_of_lt h0
  unfold ioLen at hle
  omega

theorem Inv.mapWritten_sameMeta (h : Inv s refs) (map : Bitmap) :
    SameMeta s.disk (mapWritten s map).disk (Opened s.openInodes) :=
  h.layout.write live_map (by decide) _ transfer_le

theorem Inv.mapWritten (h : Inv s refs) (map : Bitmap) : Inv (mapWritten s map) refs :=
  h.frame (h.mapWritten_sameMeta map) _

/-- The free map file is open for `bitmap_write`. -/
structure MapOpen (s : Fs) (f : Ptr) : Prop where
  open_file : ∃ file n, s.file? f = some file ∧ s.inode? file.inode = some n ∧ n.denyWriteCnt = 0 ∧
    n.data = inodeAt s.disk freeMapSector
  onDisk : OnDisk s.capacity (inodeAt s.disk freeMapSector)
  size : bitmapSize s.freeMap = s.capacity

theorem MapOpen.bitmapWrite_run {f : Ptr} (h : MapOpen s f) :
    bitmapWrite f s = .ok (mapWriteOk s, Filesys.mapWritten s s.freeMap) := by
  obtain ⟨file, n, hf, hn, hdeny, hdata⟩ := h.open_file
  have hrun : fileWriteAt f (bitmapBytes s.freeMap) (byteCnt s.capacity) 0 s =
      .ok ((mapTransfer s).1, Filesys.mapWritten s s.freeMap) := by
    rw [fileWriteAt, bind_run, getFile_run hf]
    apply (writeAt_run hn hdeny (hdata ▸ h.onDisk) _).trans
    rw [hdata]
    rfl
  rw [bitmapWrite, bind_run]
  show (fileWriteAt f (bitmapBytes s.freeMap) (byteCnt (bitmapSize s.freeMap)) 0 >>= fun m =>
    (pure (decide (m = byteCnt (bitmapSize s.freeMap))) : M Bool)) s = _
  rw [h.size, bind_run, hrun]
  rfl

theorem Inv.mapOpen (h : Inv s refs) {f : Ptr} (hf : s.freeMapFile = some f) (map : Bitmap)
    (hsize : bitmapSize map = s.capacity) (log : List (Nat × Nat)) :
    MapOpen { s with freeMap := map, released := log } f := by
  obtain ⟨file, hfile, n, hn, hmap, haddr, hsec, -⟩ := h.map_ref
  obtain rfl : file.addr = f := Option.some.inj (hmap.symm.trans hf)
  refine ⟨⟨file, n, h.file? hfile, haddr ▸ h.inode? hn, h.deny n hn, ?_⟩, ?_, hsize⟩
  · rw [← hsec]
    exact h.data n hn
  · exact h.layout.onDisk live_map

theorem bitmapSetMultiple_undo {b : Bitmap} {x cnt : Nat} (h : bitmapScan b 0 cnt false = some x) :
    bitmapSetMultiple (bitmapSetMultiple b x cnt true) x cnt false = b := by
  obtain ⟨-, hle, -⟩ := bitmapScan_some h
  refine bitmap_ext (by simp) fun i _ => ?_
  rw [bitmapTest_setMultiple (by simpa using hle), bitmapTest_setMultiple hle]
  by_cases hi : x ≤ i ∧ i < x + cnt
  · rw [if_pos hi, bitmapScan_test h hi.1 hi.2]
  · rw [if_neg hi, if_neg hi]

theorem MapOpen.setMap {f : Ptr} (h : MapOpen s f) {map : Bitmap} (hsize : bitmapSize map = s.capacity) :
    MapOpen { s with freeMap := map } f := ⟨h.open_file, h.onDisk, hsize⟩

/-- **`free_map_allocate`** -/
theorem MapOpen.allocate_run {f : Ptr} (h : MapOpen s f) (hmap : s.freeMapFile = some f) (cnt : Nat) :
    (bitmapScan s.freeMap 0 cnt false = none ∧ freeMapAllocate cnt s = .ok (none, s)) ∨
    ∃ x, bitmapScan s.freeMap 0 cnt false = some x ∧
      freeMapAllocate cnt s = .ok (
        if mapWriteOk s then (some x, takeSectors s x cnt)
        else (none, Filesys.mapWritten s (bitmapSetMultiple s.freeMap x cnt true))) := by
  cases hs : bitmapScan s.freeMap 0 cnt false with
  | none =>
    refine .inl ⟨rfl, ?_⟩
    simp only [freeMapAllocate, bind_run, get_run, ok_bind, bitmapScanAndFlip, hs, pure_run]
  | some x =>
    have hw : bitmapWrite f { s with
          freeMap := bitmapSetMultiple s.freeMap x cnt true, freeMapFile := some f } =
        .ok (mapWriteOk s, takeSectors s x cnt) := by
      rw [← hmap]
      exact (h.setMap (by rw [bitmapSize_setMultiple, h.size])).bitmapWrite_run
    refine .inr ⟨x, rfl, ?_⟩
    simp only [freeMapAllocate, bind_run, get_run, ok_bind, bitmapScanAndFlip, hs, setFreeMap,
      modify_run, hmap, Bool.not_false, hw]
    cases mapWriteOk s
    · rw [if_neg Bool.false_ne_true, if_neg Bool.false_ne_true, bitmapSetMultiple_undo hs]
      rfl
    · rw [if_pos rfl, if_pos rfl]
      rfl

theorem Inv.allocate_run (h : Inv s refs) (cnt : Nat) :
    (bitmapScan s.freeMap 0 cnt false = none ∧ freeMapAllocate cnt s = .ok (none, s)) ∨
    ∃ x, bitmapScan s.freeMap 0 cnt false = some x ∧
      freeMapAllocate cnt s = .ok (
        if mapWriteOk s then (some x, takeSectors s x cnt)
        else (none, Filesys.mapWritten s (bitmapSetMultiple s.freeMap x cnt true))) := by
  obtain ⟨file, -, -, -, hmap, -⟩ := h.map_ref
  exact (h.mapOpen hmap s.freeMap h.layout.size s.released).allocate_run hmap cnt

/-- **`free_map_release`** -/
theorem MapOpen.release_run {f : Ptr} (h : MapOpen s f) (hmap : s.freeMapFile = some f) {x cnt : Nat}
    (hx : ∀ t, x ≤ t → t < x + cnt → bitmapTest s.freeMap t = true) (hle : x + cnt ≤ s.capacity) :
    freeMapRelease x cnt s = .ok ((), releaseSectors s x cnt) := by
  have hall : bitmapAll s.freeMap x cnt = true :=
    bitmapAll_iff.mpr fun i hi => hx _ (by omega) (by omega)
  have hopen : MapOpen { s with
      freeMap := bitmapSetMultiple s.freeMap x cnt false
      released := s.released ++ [(x, cnt)] } f :=
    ⟨h.open_file, h.onDisk, by rw [bitmapSize_setMultiple, h.size]⟩
  simp only [freeMapRelease, bind_run, get_run, ok_bind]
  rw [assert_run (by rw [h.size]; simpa using hle), ok_bind, assert_run hall, ok_bind, set_run,
    ok_bind, show deref s.freeMapFile = pure f by rw [hmap]; rfl, pure_run, ok_bind]
  exact discard_run hopen.bitmapWrite_run

theorem Inv.release_run (h : Inv s refs) {x cnt : Nat}
    (hx : ∀ t, x ≤ t → t < x + cnt → bitmapTest s.freeMap t = true)
    (hle : x + cnt ≤ s.capacity) :
    freeMapRelease x cnt s = .ok ((), releaseSectors s x cnt) := by
  obtain ⟨file, -, -, -, hmap, -⟩ := h.map_ref
  exact (h.mapOpen hmap s.freeMap h.layout.size s.released).release_run hmap hx hle

theorem Inv.setMap (h : Inv s refs) {map : Bitmap} (log : List (Nat × Nat))
    (hl : Layout s.capacity s.disk map (Opened s.openInodes)) :
    Inv { s with freeMap := map, released := log } refs :=
  { h with layout := hl, map_ref := h.map_ref }

/-- Sectors no live file has are released. -/
theorem Inv.release (h : Inv s refs) {x cnt : Nat} (hle : x + cnt ≤ s.capacity)
    (hfree : ∀ y t, Live s.disk (Opened s.openInodes) y → Extent s.disk y t →
      ¬ (x ≤ t ∧ t < x + cnt)) :
    Inv (releaseSectors s x cnt) refs := by
  apply Inv.setMap (h.mapWritten _) _
  refine (h.mapWritten _).layout.release ?_ fun y t hy ht => ?_
  · rw [bitmapSize_setMultiple]
    exact h.layout.size
  · have hs := h.mapWritten_sameMeta (bitmapSetMultiple s.freeMap x cnt false)
    have hy : Live s.disk (Opened s.openInodes) y := hs.live.mp hy
    rw [Extent, hs.inode y hy] at ht
    rw [bitmapTest_setMultiple (by rw [h.layout.size]; exact hle), if_neg (hfree y t hy ht)]
    rfl

/-- Sectors are taken from the free map. -/
theorem Inv.mark (h : Inv s refs) {x cnt : Nat} (hle : x + cnt ≤ s.capacity) :
    Inv (takeSectors s x cnt) refs := by
  apply Inv.setMap (h.mapWritten _) s.released
  refine (h.mapWritten _).layout.mark ?_ fun t ht => ?_
  · rw [bitmapSize_setMultiple]
    exact h.layout.size
  · rw [bitmapTest_setMultiple (by rw [h.layout.size]; exact hle)]
    split
    · rfl
    · exact ht

/-! ## A change of the open inodes -/

/-- The inodes change in place. -/
theorem Inv.mapInodes (h : Inv s refs) {refs' : Ptr → Nat} {g : Inode → Inode}
    (hg : ∀ n, (g n).addr = n.addr ∧ (g n).sector = n.sector ∧ (g n).data = n.data ∧
      (g n).denyWriteCnt = n.denyWriteCnt)
    (hremoved : ∀ n ∈ s.openInodes, (g n).removed = true →
      n.sector ≠ freeMapSector ∧ n.sector ≠ rootDirSector ∧ ¬ Named s.disk n.sector)
    (hc : Counted s.next (s.openInodes.map g) refs') (hmap : MapRef s refs') :
    Inv { s with openInodes := s.openInodes.map g } refs' :=
  { hc with
    layout := by
      refine h.layout.reopen fun x hx => ?_
      obtain ⟨n', hn', rfl⟩ := hx
      obtain ⟨n, hn, rfl⟩ := List.mem_map.mp hn'
      rw [(hg n).2.1]
      exact h.live hn
    data := List.forall_mem_map.mpr fun n hn => by
      rw [(hg n).2.2.1, (hg n).2.1]
      exact h.data n hn
    removed := List.forall_mem_map.mpr fun n hn hr => by
      rw [(hg n).2.1]
      exact hremoved n hn hr
    deny := List.forall_mem_map.mpr fun n hn => by
      rw [(hg n).2.2.2]
      exact h.deny n hn
    file_addrs := h.file_addrs
    file_fresh := h.file_fresh
    file_deny := h.file_deny
    map_ref := by
      obtain ⟨f, hf, n, hn, h1, h2, h3, h4⟩ := hmap
      exact ⟨f, hf, g n, List.mem_map_of_mem hn, h1, (hg n).1.trans h2, (hg n).2.1.trans h3, h4⟩ }

/-- An inode no one refers to leaves the list. -/
theorem Inv.dropInode {refs' : Ptr → Nat} (h : Inv s refs) (hp : refs' p = 0)
    (hrefs : ∀ q, q ≠ p → refs' q = refs q) (hmap : MapRef s refs') :
    Inv { s with openInodes := s.openInodes.filter fun n => n.addr ≠ p } refs' := by
  have hsub : ∀ n ∈ s.openInodes.filter (fun n => n.addr ≠ p), n ∈ s.openInodes :=
    fun n hn => (List.mem_filter.mp hn).1
  refine { h.counted.filter hp hrefs with
    layout := h.layout.reopen fun x hx => ?_
    data := fun n hn => h.data n (hsub n hn)
    removed := fun n hn => h.removed n (hsub n hn)
    deny := fun n hn => h.deny n (hsub n hn)
    file_addrs := h.file_addrs
    file_fresh := h.file_fresh
    file_deny := h.file_deny
    map_ref := ?_ }
  · obtain ⟨n, hn, rfl⟩ := hx
    exact h.live (hsub n hn)
  · obtain ⟨f, hf, n, hn, h1, h2, h3, h4⟩ := hmap
    refine ⟨f, hf, n, List.mem_filter.mpr ⟨hn, ?_⟩, h1, h2, h3, h4⟩
    have hne : n.addr ≠ p := by
      intro he
      rw [← h2, he, hp] at h4
      exact absurd h4 (Nat.lt_irrefl 0)
    simpa using hne

end

end Pintos.Filesys
