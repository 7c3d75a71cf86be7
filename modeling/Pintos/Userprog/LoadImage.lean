import Pintos.Filesys.File
import Pintos.Userprog.LoadRun

/-!
# The image of an executable

What a program sees of its executable: each byte of a segment is the byte of the file or
zero, a page is writable as its header says, and no page belongs to two segments or to a
segment and the stack. The file is what the file layer reads from the disk.
-/

namespace Pintos.Userprog.Loader

open Pintos.Base Pintos.Kernel Pintos.Threads

/-! ## Pages -/

/-- User page `u` is one of the pages of the segment. -/
def Phdr.Has (ph : Phdr) (u : Nat) : Prop := pgNo ph.vaddr ≤ u ∧ u < pgNo ph.vaddr + ph.pages

/-- The address is inside the segment. -/
def Phdr.Covers (ph : Phdr) (a : Nat) : Prop := ph.vaddr ≤ a ∧ a < ph.vaddr + ph.memsz

theorem Phdr.Covers.has {ph : Phdr} {a : Nat} (h : ph.Covers a) : ph.Has (pgNo a) := by
  obtain ⟨h1, h2⟩ := h
  simp only [Phdr.Has, Phdr.pages, divRoundUp, pgNo, pgSize]
  omega

section

variable {s s' s0 : Vm} {pd : Nat} {V V' : View} {f : Image} {w : Bool}

/-- What `addPages` adds. -/
theorem addPages_some {n v pos size : Nat} (h : addPages f w n v pos size V = some V') :
    (∀ u, u < v ∨ v + n ≤ u → V' u = V u) ∧
    (∀ u, v ≤ u → u < v + n → V u = none ∧
      V' u = some (w, filePage f (pos + min size (pgSize * (u - v)))
        (min (size - pgSize * (u - v)) pgSize))) ∧
    (size ≤ pgSize * n → size = 0 ∨ pos + size ≤ f.length) := by
  induction n generalizing v pos size V with
  | zero =>
    cases h
    exact ⟨fun _ _ => rfl, fun u h1 h2 => by omega, fun hs => .inl (by simpa using hs)⟩
  | succ n ih =>
    rw [addPages] at h
    split at h
    · next hv =>
      obtain ⟨hnone, hlen⟩ := hv
      obtain ⟨ih1, ih2, ih3⟩ := ih h
      have hadd : ∀ u, u ≠ v → V.add v w (filePage f pos (min size pgSize)) u = V u :=
        fun u hu => Function.update_of_ne hu ..
      refine ⟨fun u hu => ?_, fun u h1 h2 => ?_, fun hs => ?_⟩
      · rw [ih1 u (by omega), hadd u (by omega)]
      · by_cases huv : u = v
        · subst huv
          refine ⟨hnone, ?_⟩
          rw [ih1 u (by omega), Nat.sub_self, Nat.mul_zero, Nat.min_zero, Nat.add_zero, Nat.sub_zero]
          exact Function.update_self ..
        · obtain ⟨hn, hV⟩ := ih2 u (by omega) (by omega)
          rw [hadd u huv] at hn
          refine ⟨hn, ?_⟩
          obtain ⟨k, rfl⟩ := Nat.exists_eq_add_of_lt (Nat.lt_of_le_of_ne h1 (Ne.symm huv))
          have hpos : pos + min size pgSize + min (size - min size pgSize) (pgSize * k) =
              pos + min size (pgSize * (k + 1)) := by
            simp only [pgSize]
            omega
          have hlen : min (size - min size pgSize - pgSize * k) pgSize =
              min (size - pgSize * (k + 1)) pgSize := by
            simp only [pgSize]
            omega
          rw [hV, show v + k + 1 - (v + 1) = k by omega, show v + k + 1 - v = k + 1 by omega, hpos,
            hlen]
      · simp only [pgSize] at hs hlen ih3
        omega
    · cases h

/-- The pages of one segment. -/
structure Placed (f : Image) (ph : Phdr) (V V' : View) : Prop where
  valid : validateSegment ph f = true
  fresh : ∀ u, ph.Has u → V u = none
  pages : ∀ u, ph.Has u → V' u = some (ph.writable,
    filePage f (ph.offset - ph.offset % pgSize + min ph.readBytes (pgSize * (u - pgNo ph.vaddr)))
      (min (ph.readBytes - pgSize * (u - pgNo ph.vaddr)) pgSize))
  read : ph.readBytes = 0 ∨ ph.offset - ph.offset % pgSize + ph.readBytes ≤ f.length

theorem segmentView_some {ph : Phdr} (h : segmentView f ph V = some V') (hsz : ph.memsz < 2 ^ 32) :
    Placed f ph V V' ∧ ∀ u, ¬ ph.Has u → V' u = V u := by
  unfold segmentView at h
  split at h
  · next hval =>
    obtain ⟨h1, h2, h3⟩ := addPages_some h
    obtain ⟨-, hfile, -, -, -⟩ := validateSegment_bounds hval hsz
    refine ⟨⟨hval, fun u hu => (h2 u hu.1 hu.2).1, fun u hu => (h2 u hu.1 hu.2).2, h3 ?_⟩,
      fun u hu => h1 u ?_⟩
    · simp only [Phdr.readBytes, Phdr.pages, divRoundUp, pgSize]
      split <;> omega
    · unfold Phdr.Has at hu
      omega
  · cases h

/-- What the headers add: each segment has its pages to itself. -/
theorem headersView_some {n ofs : Nat} (h : headersView f n ofs V = some V') :
    (∀ u, V u ≠ none → V' u = V u) ∧
    (∀ i < n, (phdrAt f (ofs + phdrSize * i)).type = 1 →
      Placed f (phdrAt f (ofs + phdrSize * i)) V V') ∧
    ∀ j < n, (phdrAt f (ofs + phdrSize * j)).type = 1 →
      ∀ i < j, (phdrAt f (ofs + phdrSize * i)).type = 1 →
        ∀ u, (phdrAt f (ofs + phdrSize * i)).Has u → ¬ (phdrAt f (ofs + phdrSize * j)).Has u := by
  induction n generalizing ofs V with
  | zero =>
    cases h
    exact ⟨fun _ _ => rfl, fun i hi => absurd hi (Nat.not_lt_zero i),
      fun j hj => absurd hj (Nat.not_lt_zero j)⟩
  | succ n ih =>
    have hnext : ∀ i, ofs + phdrSize * (i + 1) = ofs + phdrSize + phdrSize * i := by
      intro i
      rw [Nat.mul_succ]
      omega
    rw [headersView] at h
    split at h
    · cases h
    split at h
    · cases h
    split at h
    · next hload =>
      obtain ⟨V1, hV1, hrest⟩ := Option.bind_eq_some_iff.mp h
      obtain ⟨hp, hout⟩ := segmentView_some hV1 (load32_lt _ _)
      obtain ⟨ih1, ih2, ih3⟩ := ih hrest
      have hkeep : ∀ u, V u ≠ none → V1 u = V u := by
        intro u hu
        exact hout u fun hh => hu (hp.fresh u hh)
      refine ⟨fun u hu => ?_, fun i hi ht => ?_, fun j hj htj i hij hti u hu => ?_⟩
      · rw [ih1 u (by rw [hkeep u hu]; exact hu), hkeep u hu]
      · cases i with
        | zero =>
          refine ⟨hp.valid, hp.fresh, fun u hu => ?_, hp.read⟩
          have hpage : V1 u = _ := hp.pages u hu
          rw [ih1 u (by rw [hpage]; simp)]
          exact hpage
        | succ i =>
          rw [hnext] at ht ⊢
          have hpi := ih2 i (by omega) ht
          refine ⟨hpi.valid, fun u hu => ?_, hpi.pages, hpi.read⟩
          by_contra hc
          rw [← hkeep u hc] at hc
          exact hc (hpi.fresh u hu)
      · obtain ⟨j, rfl⟩ := Nat.exists_eq_add_one.mpr (Nat.zero_lt_of_lt hij)
        rw [hnext] at htj ⊢
        cases i with
        | zero =>
          intro huj
          have hfresh := (ih2 j (by omega) htj).fresh u huj
          have hpage : V1 u = _ := hp.pages u hu
          rw [hpage] at hfresh
          cases hfresh
        | succ i =>
          rw [hnext] at hti hu
          exact ih3 j (by omega) htj i (by omega) hti u hu
    · next hload =>
      obtain ⟨ih1, ih2, ih3⟩ := ih h
      refine ⟨ih1, fun i hi ht => ?_, fun j hj htj i hij hti u hu => ?_⟩
      · cases i with
        | zero => exact absurd ht hload
        | succ i =>
          rw [hnext] at ht ⊢
          exact ih2 i (by omega) ht
      · obtain ⟨j, rfl⟩ := Nat.exists_eq_add_one.mpr (Nat.zero_lt_of_lt hij)
        rw [hnext] at htj ⊢
        cases i with
        | zero => exact absurd hti hload
        | succ i =>
          rw [hnext] at hti hu
          exact ih3 j (by omega) htj i (by omega) hti u hu

/-- The headers add nothing else. -/
theorem headersView_none {n ofs : Nat} (h : headersView f n ofs V = some V') {u : Nat}
    (hu : V u = none) (hno : ∀ i < n, (phdrAt f (ofs + phdrSize * i)).type = 1 →
      ¬ (phdrAt f (ofs + phdrSize * i)).Has u) : V' u = none := by
  induction n generalizing ofs V with
  | zero =>
    cases h
    exact hu
  | succ n ih =>
    have hrest : ∀ i < n, (phdrAt f (ofs + phdrSize + phdrSize * i)).type = 1 →
        ¬ (phdrAt f (ofs + phdrSize + phdrSize * i)).Has u := by
      intro i hi
      have := hno (i + 1) (by omega)
      rwa [Nat.mul_succ, Nat.add_comm (phdrSize * i), ← Nat.add_assoc] at this
    rw [headersView] at h
    split at h
    · cases h
    split at h
    · cases h
    split at h
    · next hload =>
      obtain ⟨V1, hV1, hv⟩ := Option.bind_eq_some_iff.mp h
      obtain ⟨-, hout⟩ := segmentView_some hV1 (load32_lt _ _)
      exact ih hv ((hout u (hno 0 (by omega) hload)).trans hu) hrest
    · exact ih h hu hrest

/-- A byte of a segment. -/
theorem Placed.byte {ph : Phdr} (h : Placed f ph V V') (hsz : ph.memsz < 2 ^ 32) {j : Nat}
    (hj : j < ph.memsz) : ∃ b, V' (pgNo (ph.vaddr + j)) = some (ph.writable, b) ∧
      (j < ph.filesz → ph.offset + j < f.length ∧ b (pgOfs (ph.vaddr + j)) = f.byte (ph.offset + j)) ∧
      (ph.filesz ≤ j → b (pgOfs (ph.vaddr + j)) = 0) := by
  have hcov : ph.Covers (ph.vaddr + j) := ⟨by omega, by omega⟩
  obtain ⟨hofs, -, -, -, -⟩ := validateSegment_bounds h.valid hsz
  refine ⟨_, h.pages _ hcov.has, fun hf => ?_, fun hf => ?_⟩
  · have hread : ph.readBytes = ph.vaddr % pgSize + ph.filesz := if_pos (by omega)
    have hlen := h.read
    rw [hread] at hlen ⊢
    have hin : pgOfs (ph.vaddr + j) < min (ph.vaddr % pgSize + ph.filesz -
        pgSize * (pgNo (ph.vaddr + j) - pgNo ph.vaddr)) pgSize := by
      simp only [pgNo, pgOfs, pgSize]
      omega
    have hpos : ph.offset - ph.offset % pgSize + min (ph.vaddr % pgSize + ph.filesz)
        (pgSize * (pgNo (ph.vaddr + j) - pgNo ph.vaddr)) + pgOfs (ph.vaddr + j) = ph.offset + j := by
      simp only [pgNo, pgOfs, pgSize] at *
      omega
    refine ⟨by omega, ?_⟩
    rw [filePage, if_pos hin, hpos]
  · have hread : ph.readBytes ≤ ph.vaddr % pgSize + j := by
      unfold Phdr.readBytes
      split <;> omega
    apply if_neg
    simp only [pgNo, pgOfs, pgSize] at *
    omega

/-! ## What the program sees -/

/-- The page of an address and a byte of it, through the page tables. -/
theorem Loading.byte (h : Loading s0 s pd V) {a : Nat} (hu : isUserVaddr a = true) {w : Bool}
    {b : Buffer} (hV : V (pgNo a) = some (w, b)) :
    ∃ k, s.translate a = some (k, w) ∧ s.mem k (pgOfs a) = b (pgOfs a) := by
  obtain ⟨⟨T, held, hs, -, hsh⟩, hpd⟩ := h
  have hv := hsh (pgNo a)
  have htr := hs.translate hpd hu
  cases hf : T.addr (.frame (pgNo a)) with
  | none =>
    rw [hf, hV] at hv
    cases hv
  | some k =>
    rw [hf] at hv
    obtain ⟨c, hc, ho⟩ := hv
    rw [hV] at hc
    cases hc
    refine ⟨k, ?_, ho _ (Nat.mod_lt _ (by decide))⟩
    rw [htr, hf]
    rfl

/-- `e_phnum` -/
def Image.phnum (f : Image) : Nat := load16 f.byte 44

/-- Program header `i` of the file. -/
def Image.phdr (f : Image) (i : Nat) : Phdr := phdrAt f (load32 f.byte 28 + phdrSize * i)

theorem Image.ehdrPhnum_eq (f : Image) : ehdrPhnum f.ehdr = f.phnum := by
  have hbyte : ∀ k < ehdrSize, f.ehdr k = f.byte k := by
    intro k hk
    rw [Image.ehdr, memcpy_in (by omega) (by omega)]
    congr 1
    omega
  simp only [ehdrPhnum, Image.phnum, load16]
  rw [hbyte 44 (by decide), hbyte (44 + 1) (by decide)]

theorem Image.ehdrPhoff_eq (f : Image) : ehdrPhoff f.ehdr = load32 f.byte 28 := by
  refine load32_eq fun k hk => ?_
  rw [Image.ehdr, memcpy_in (by omega) (by simp only [ehdrSize]; omega)]
  congr 1
  omega

variable {words : List CString} {stale : Stale} {eip esp : Nat} {L : List CString} {m : Buffer}

/-- The headers of the file, as `load` goes through them. -/
theorem Loaded.view (h : Loaded s0 s pd words stale f eip esp L m V) :
    headersView f f.phnum (load32 f.byte 28) (stackView m) = some V := by
  have hh := h.headers
  have hoff := h.phoff
  rw [f.ehdrPhnum_eq] at hh hoff
  rw [f.ehdrPhoff_eq] at hh hoff
  rcases hoff with hz | hpos
  · rw [hz] at hh ⊢
    exact hh
  · have : (asInt32 (load32 f.byte 28)).toNat = load32 f.byte 28 := by
      have := load32_lt f.byte 28
      unfold asInt32 at hpos ⊢
      split at hpos <;> omega
    rw [this] at hh
    exact hh

/-! ## The file layer -/

/-- The file behind an inode. -/
def imageOf (t : Filesys.Fs) (n : Filesys.Inode) (h : n.data.length < 2 ^ 31) : Image where
  length := n.data.length.toNat
  byte := Filesys.fileByte t.disk n.data.start
  length_lt := by omega

/-- **`file_read`** of the loader is that of the file layer on the image of the file: the same
bytes, the same number of them and the same position, with the disk unchanged. -/
theorem fileRead_file_layer {t : Filesys.Fs} {p : Filesys.Ptr} {file : Filesys.File}
    {n : Filesys.Inode} (hfile : t.file? p = some file) (hn : t.inode? file.inode = some n)
    (hd : Filesys.OnDisk t.capacity n.data) (hlen : n.data.length < 2 ^ 31) (dst : Buffer)
    (size : Nat) :
    ∃ got b t', Filesys.fileRead p dst size t = .ok ((got, b), t') ∧ t'.disk = t.disk ∧
      t'.files = t.files.map (fun g => if g.addr = p then { g with pos := g.pos + got } else g) ∧
      ∀ (s : Vm) (rest : List Nat), s.pos = file.pos → s.reads = got :: rest →
        fileRead (imageOf t n hlen) dst size s =
          .ok ((b, got), { s with pos := file.pos + got, reads := rest }) := by
  have hread := @Filesys.readAt_run _ n t size file.pos hn hd dst
  have hle := @Filesys.transfer_le n.data (size : Int).toNat file.pos false t.mem
  generalize Filesys.transfer n.data (size : Int).toNat file.pos false t.mem = r at hread hle
  obtain ⟨got, mem⟩ := r
  have hrun : Filesys.fileRead p dst size t = .ok ((got,
      memcpy dst 0 (Filesys.fileByte t.disk n.data.start) file.pos got), { t with
      mem := mem
      files := t.files.map fun g => if g.addr = p then { g with pos := g.pos + got } else g }) := by
    rw [Filesys.fileRead, bind_run, Filesys.getFile_run hfile, ok_bind, bind_run, hread]
    rfl
  refine ⟨got, _, _, hrun, rfl, rfl, fun s rest hpos hreads => ?_⟩
  have hgot : min (min size ((imageOf t n hlen).length - s.pos)) (s.reads.headD size) = got := by
    rw [hreads, List.headD_cons, hpos]
    simp only [Filesys.ioLen, imageOf, Int.toNat_natCast] at *
    omega
  rw [fileRead, bind_run, get_run, ok_bind]
  simp only
  rw [hgot, hreads, hpos]
  rfl

/-! ## The theorem -/

end

end Pintos.Userprog.Loader
