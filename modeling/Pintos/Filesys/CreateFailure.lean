import Pintos.Filesys.Ownership

/-!
# A failed `filesys_create`

Which failures leave the file system as it was. The clean-up of `filesys_create`
releases the inode sector and nothing else, so the data sectors are lost when
`inode_create` has succeeded and `dir_add` then refuses the name, finds no slot or
runs out of memory.
-/

namespace Pintos.Filesys

open Pintos.Base Pintos.Kernel

/-- The first `k` requests to the allocator are granted. -/
def granted : (k : Nat) → List Bool → Bool
  | 0, _ => true
  | k + 1, mem => mem.headD true && granted k mem.tail

/-- The requests before `dir_add`: the root inode, the directory, the new inode and, where
the free map does not fill its last sector, the bounce buffers of two writes of it. -/
def requests (capacity : Nat) : Nat := if byteCnt capacity % 512 = 0 then 3 else 5

section

variable {s s' : Fs} {refs : Ptr → Nat} {size : Int}

/-- A write of the free map on a disk of this size gets the memory it needs. -/
def mapOk (capacity : Nat) (mem : List Bool) : Prop :=
  byteCnt capacity % 512 = 0 ∨ mem.headD true = true

/-- The answers of the allocator it leaves. -/
def mapLeft (capacity : Nat) (mem : List Bool) : List Bool :=
  if byteCnt capacity % 512 = 0 then mem else mem.tail

theorem Inv.mapTransfer_eq (h : Inv s refs) :
    (mapWriteOk s = true ↔ mapOk s.capacity s.mem) ∧ (mapTransfer s).2 = mapLeft s.capacity s.mem := by
  have hlen : ioLen (inodeAt s.disk freeMapSector) (byteCnt s.capacity) 0 = byteCnt s.capacity := by
    unfold ioLen
    rw [h.layout.map_length]
    omega
  unfold mapWriteOk mapTransfer mapOk mapLeft
  by_cases hz : byteCnt s.capacity % 512 = 0
  · rw [transfer_noBounce (.inr (.inr ⟨rfl, hlen.symm ▸ hz⟩)), hlen, if_pos hz]
    exact ⟨by simp [hz], rfl⟩
  · have hneeds : ¬ NoBounce (ioLen (inodeAt s.disk freeMapSector) (byteCnt s.capacity) 0) 0 false := by
      rw [hlen]
      rintro (h0 | h0 | h0)
      · exact hz (by rw [h0])
      · cases h0
      · exact hz h0.2
    rw [transfer_needs hneeds, hlen, if_neg hz]
    refine ⟨?_, rfl⟩
    cases s.mem.headD true
    · have : wholePart (byteCnt s.capacity) 0 ≠ byteCnt s.capacity := by
        unfold wholePart
        rw [if_pos rfl]
        omega
      simp [hz, this]
    · simp

/-- The requests before `dir_add` in the order they are made. -/
theorem granted_requests (capacity : Nat) (mem : List Bool) :
    (granted (requests capacity) mem = true ↔ (mem.headD true = true ∧ mem.tail.headD true = true) ∧
      mapOk capacity mem.tail.tail ∧ (mapLeft capacity mem.tail.tail).headD true = true ∧
      mapOk capacity (mapLeft capacity mem.tail.tail).tail) ∧
    mem.drop (requests capacity) = mapLeft capacity (mapLeft capacity mem.tail.tail).tail := by
  unfold requests mapOk mapLeft
  by_cases hz : byteCnt capacity % 512 = 0
  · simp [hz, granted, and_assoc, ← List.drop_one]
  · simp [hz, granted, and_assoc, ← List.drop_one]

/-- The answers of the allocator the chain comes to `inode_create` with. -/
theorem Inv.taken_mem (h : Inv s refs) (x : Nat) :
    (takeSectors s x 1).mem = mapLeft s.capacity s.mem := h.mapTransfer_eq.2

theorem Inv.dataState (h : Inv s refs) {x : Nat} (hx : Taken s 1 x) :
    Inv (Filesys.dataState s x) refs := ((h.pending hx).idle h (idle_setMem _ _)).inv

/-- The answers it comes to `dir_add` with. -/
theorem Inv.made_mem (h : Inv s refs) {x : Nat} (hx : Taken s 1 x) (y : Nat) :
    (madeState s x y size).mem = mapLeft s.capacity (mapLeft s.capacity s.mem).tail :=
  (h.dataState hx).mapTransfer_eq.2.trans (by rw [Filesys.dataState, h.taken_mem]; rfl)

/-- A failed call changes the live files at most in the free map. -/
theorem Ready.fixed_files (h : Ready s) (hf : Fixed s s') {x : Nat}
    (hx : Live s.disk (Opened s.openInodes) x) (hne : x ≠ freeMapSector) :
    inodeAt s'.disk x = inodeAt s.disk x ∧ ∀ pos : Nat, (pos : Int) < (inodeAt s.disk x).length →
      fileByte s'.disk (inodeAt s.disk x).start pos = fileByte s.disk (inodeAt s.disk x).start pos := by
  refine ⟨(h.inv.fixed_meta hf).inode x hx, fun pos hpos => ?_⟩
  have hd := h.inv.layout.dataSector hx hpos
  have hno : ¬ DataSector (inodeAt s.disk freeMapSector)
      ((inodeAt s.disk x).start + pos / 512) := fun hm =>
    hne (h.inv.layout.owns.disjoint x _ _ hx live_map (.inr hd) (.inr hm))
  rw [fileByte, hf _ (h.inv.layout.owns.marked x _ hx (.inr hd)) hno]
  rfl

end

/-- What a call returns and the free map it leaves. -/
def created? (name : CString) (size : Int) (s : Fs) : Option (Bool × Bitmap) :=
  match filesysCreate name size zeros s with
  | .ok (b, s') => some (b, s'.freeMap)
  | .error _ => none

theorem created?_eq_some {name : CString} {size : Int} {s : Fs} {b : Bool} {map : Bitmap}
    (h : created? name size s = some (b, map)) :
    ∃ s', filesysCreate name size zeros s = .ok (b, s') ∧ s'.freeMap = map := by
  unfold created? at h
  split at h
  · next b' s' hrun =>
    cases h
    exact ⟨s', hrun, rfl⟩
  · cases h

end Pintos.Filesys
