/-
  Pintos.Fs.Transfer

  What the loops of `inode_read_at` and `inode_write_at` move.

  A transfer uses the bounce buffer as soon as one of its chunks is not a whole
  sector, and then it asks `malloc` once.  Without the buffer the whole sectors
  before that chunk are all it moves.
-/

import Pintos.Fs.Slots

namespace Pintos.Fs

open Pintos.Base Pintos.Lib Function

namespace State

variable (s : State)

@[simp] theorem setMallocs_self : s.setMallocs s.mallocs = s := rfl

end State

/-! ## Single steps -/

section Steps

variable {s : State} {d : Memory} {i : Nat}

theorem malloc_eq (s : State) :
    malloc s = .ok (s.mallocs.headD true) (s.setMallocs s.mallocs.tail) := by
  obtain ⟨_, _, _, _, _, mallocs⟩ := s
  cases mallocs with
  | nil => rfl
  | cons a rest => rfl

theorem getBounce_eq (bounce : Bool) (s : State) :
    getBounce bounce s = .ok (bounce || s.mallocs.headD true)
      (s.setMallocs (if bounce then s.mallocs else s.mallocs.tail)) := by
  cases bounce with
  | true => rfl
  | false =>
    rw [getBounce, if_neg (by decide), malloc_eq]
    rfl

theorem blockRead_eq {p : Sector} (h : p < s.size) : blockRead p s = .ok (s.disk p) s := if_pos h

theorem blockWrite_eq {p : Sector} {b : Memory} (h : p < s.size) :
    blockWrite p b s = .ok () (s.setDisk (update s.disk p b)) := if_pos h

theorem ptr_eq (h : i < PTRS_PER_SECTOR) : ptr d i s = .ok (word d (4 * i)) s := by
  rw [ptr, if_pos h]
  rfl

theorem direct_eq (h : i < DIRECT_BLOCKS) : direct d i s = .ok (word d (8 + 4 * i)) s := by
  rw [direct, if_pos h]
  rfl

end Steps

/-! ## Where a byte is -/

/-- The sectors that the slots of an inode can reach. -/
def capacity : Nat := DIRECT_BLOCKS + PTRS_PER_SECTOR + PTRS_PER_SECTOR * PTRS_PER_SECTOR

theorem capacity_eq : capacity = 16635 := rfl

/-- Every sector that has an owner is on the device. -/
def OnDevice (owner : Owner) (size : Nat) : Prop := ∀ p r, owner p = some r → p < size

/-- Byte `k` of an inode. -/
def byteOf (disk : Sector → Memory) (d : Memory) (k : Nat) : UInt8 :=
  disk (slotSector disk d (.data (k / BLOCK_SECTOR_SIZE))) (k % BLOCK_SECTOR_SIZE)

section

variable {owner : Owner} {n : Sector} {d : Memory} {cnt : Nat} {s : State}

theorem byteToSector_eq {pos : Nat} (hm : Maps s.disk d (Needs cnt) owner n)
    (hdev : OnDevice owner s.size) (hcap : cnt ≤ capacity) (hpos : (pos : Int) < length d)
    (hcnt : pos / BLOCK_SECTOR_SIZE < cnt) :
    byteToSector d pos s = .ok (slotSector s.disk d (.data (pos / BLOCK_SECTOR_SIZE))) s := by
  rw [capacity_eq] at hcap
  have hneeds : Slot.data (pos / BLOCK_SECTOR_SIZE) ∈ Needs cnt := hcnt
  simp only [byteToSector]
  rw [if_neg (by omega)]
  generalize pos / BLOCK_SECTOR_SIZE = i at hcnt hneeds ⊢
  by_cases hdirect : i < DIRECT_BLOCKS
  · rw [if_pos hdirect, direct_eq hdirect, slotSector, if_pos hdirect]
  rw [if_neg hdirect, slotSector, if_neg hdirect]
  by_cases hindirect : i - DIRECT_BLOCKS < PTRS_PER_SECTOR
  · have hblock : Slot.indirect ∈ Needs cnt := by
      rw [indirect_mem_needs]
      simp only [DIRECT_BLOCKS] at hdirect
      omega
    have hread : blockRead (indirect d) s = _ := blockRead_eq (hdev _ _ (hm _ hblock))
    rw [if_pos hindirect, if_pos hindirect, bind_ok hread, ptr_eq hindirect]
  · simp only [DIRECT_BLOCKS, PTRS_PER_SECTOR] at hdirect hindirect ⊢
    have hdoubly : Slot.doubly ∈ Needs cnt := by
      rw [doubly_mem_needs]
      omega
    have hinner : Slot.inner ((i - 123 - 128) / 128) ∈ Needs cnt := by
      rw [inner_mem_needs]
      omega
    have houter : (i - 123 - 128) / 128 < PTRS_PER_SECTOR := by
      simp only [PTRS_PER_SECTOR]
      omega
    have hin : (i - 123 - 128) % 128 < PTRS_PER_SECTOR := Nat.mod_lt _ (by decide)
    have hread : blockRead (doublyIndirect d) s = _ := blockRead_eq (hdev _ _ (hm _ hdoubly))
    have hread' := blockRead_eq (s := s) (hdev _ _ (hm _ hinner))
    rw [slotSector] at hread'
    rw [if_neg hindirect, if_neg hindirect, bind_ok hread, bind_ok (ptr_eq houter),
      bind_ok hread', ptr_eq hin]

theorem byteToSector_past {pos : Nat} (hpos : length d ≤ pos) :
    byteToSector d pos s = .ok (2 ^ 32 - 1) s := by
  simp only [byteToSector]
  rw [if_pos hpos]
  rfl

/-- The bytes of one sector. -/
theorem byteOf_add {offset i : Nat} (hi : i < BLOCK_SECTOR_SIZE - offset % BLOCK_SECTOR_SIZE)
    (disk : Sector → Memory) :
    byteOf disk d (offset + i) =
      disk (slotSector disk d (.data (offset / BLOCK_SECTOR_SIZE)))
        (offset % BLOCK_SECTOR_SIZE + i) := by
  simp only [BLOCK_SECTOR_SIZE] at hi ⊢
  rw [byteOf, show (offset + i) / BLOCK_SECTOR_SIZE = offset / 512 by
    simp only [BLOCK_SECTOR_SIZE]; omega, show (offset + i) % BLOCK_SECTOR_SIZE = offset % 512 + i by
    simp only [BLOCK_SECTOR_SIZE]; omega]

end

/-! ## How much is moved -/

/-- What is left of a request before the end of the inode. -/
def avail (d : Memory) (size offset : Nat) : Nat := min size (length d - offset).toNat

/-- Whether moving `size` bytes takes a bounce buffer. -/
def bounces (size offset : Nat) : Bool :=
  decide (0 < size ∧
    (offset % BLOCK_SECTOR_SIZE ≠ 0 ∨ (offset + size) % BLOCK_SECTOR_SIZE ≠ 0))

/-- The number of bytes moved of `size` bytes inside the inode. -/
def moved (mallocs : List Bool) (bounce : Bool) (size offset : Nat) : Nat :=
  if bounce || !bounces size offset || mallocs.headD true then size
  else if offset % BLOCK_SECTOR_SIZE = 0 then size - size % BLOCK_SECTOR_SIZE
  else 0

/-- The answers of `malloc` left after the transfer. -/
def mallocsLeft (mallocs : List Bool) (bounce : Bool) (size offset : Nat) : List Bool :=
  if bounce || !bounces size offset then mallocs else mallocs.tail

section Moved

variable {d : Memory} {mallocs : List Bool} {bounce : Bool} {size offset chunk : Nat}

theorem chunkSize_eq (d : Memory) (size offset : Nat) :
    chunkSize d size offset =
      min (avail d size offset) (BLOCK_SECTOR_SIZE - offset % BLOCK_SECTOR_SIZE) := by
  simp only [chunkSize, avail]
  split <;> split <;> omega

theorem avail_sub (h : chunk ≤ avail d size offset) :
    avail d (size - chunk) (offset + chunk) = avail d size offset - chunk := by
  simp only [avail] at h ⊢
  omega

/-- Something is left to move: the byte at the offset is in the inode. -/
theorem avail_pos {cnt : Nat} (hlen : length d ≤ BLOCK_SECTOR_SIZE * cnt)
    (h : avail d size offset ≠ 0) :
    size ≠ 0 ∧ (offset : Int) < length d ∧ offset / BLOCK_SECTOR_SIZE < cnt := by
  simp only [avail, BLOCK_SECTOR_SIZE] at h hlen ⊢
  omega

@[simp] theorem moved_zero : moved mallocs bounce 0 offset = 0 := by
  simp [moved, bounces]

@[simp] theorem mallocsLeft_zero : mallocsLeft mallocs bounce 0 offset = mallocs := by
  simp [mallocsLeft, bounces]

@[simp] theorem moved_bounce : moved mallocs true size offset = size := by
  simp [moved]

@[simp] theorem mallocsLeft_bounce : mallocsLeft mallocs true size offset = mallocs := by
  simp [mallocsLeft]

theorem bounces_full (hofs : offset % 512 = 0) (hfull : 512 ≤ size) :
    bounces (size - 512) (offset + 512) = bounces size offset := by
  apply decide_eq_decide.mpr
  simp only [BLOCK_SECTOR_SIZE]
  constructor
  · rintro ⟨h0, h⟩
    omega
  · rintro ⟨h0, h⟩
    omega

theorem moved_full (hofs : offset % 512 = 0) (hfull : 512 ≤ size) :
    512 + moved mallocs bounce (size - 512) (offset + 512) = moved mallocs bounce size offset := by
  simp only [moved]
  rw [bounces_full hofs hfull]
  split
  · omega
  · simp only [BLOCK_SECTOR_SIZE]
    rw [if_pos (show (offset + 512) % 512 = 0 by omega)]
    omega

theorem mallocsLeft_full (hofs : offset % 512 = 0) (hfull : 512 ≤ size) :
    mallocsLeft mallocs bounce (size - 512) (offset + 512) = mallocsLeft mallocs bounce size offset := by
  simp only [mallocsLeft]
  rw [bounces_full hofs hfull]

/-- A first chunk that is not a whole sector takes the buffer. -/
theorem bounces_of_not_full (hpos : 0 < size) (h : ¬ (offset % 512 = 0 ∧ 512 ≤ size)) :
    bounces size offset = true := by
  simp only [bounces, BLOCK_SECTOR_SIZE, decide_eq_true_eq]
  omega

theorem moved_granted (h : (bounce || mallocs.headD true) = true) :
    moved mallocs bounce size offset = size := by
  rw [moved, if_pos]
  simp only [Bool.or_eq_true] at h ⊢
  tauto

theorem mallocsLeft_of_bounces (h : bounces size offset = true) :
    mallocsLeft mallocs bounce size offset = if bounce then mallocs else mallocs.tail := by
  simp [mallocsLeft, h]

theorem moved_denied (hpos : 0 < size) (h : ¬ (offset % 512 = 0 ∧ 512 ≤ size))
    (hmalloc : mallocs.headD true = false) : moved mallocs false size offset = 0 := by
  rw [moved, bounces_of_not_full hpos h, hmalloc]
  simp only [BLOCK_SECTOR_SIZE, Bool.not_true, Bool.or_self, Bool.false_eq_true, if_false]
  split
  · omega
  · rfl

end Moved

/-! ## Reading -/

section Transfer

variable {owner : Owner} {n : Sector} {d : Memory} {cnt : Nat}

/-- The bytes of one chunk. -/
theorem bytesAt_chunk {offset chunk : Nat}
    (hchunk : chunk ≤ BLOCK_SECTOR_SIZE - offset % BLOCK_SECTOR_SIZE) (disk : Sector → Memory) :
    bytesAt (disk (slotSector disk d (.data (offset / BLOCK_SECTOR_SIZE))))
        (offset % BLOCK_SECTOR_SIZE) chunk =
      (List.range chunk).map fun k => byteOf disk d (offset + k) := by
  rw [bytesAt, List.map_inj_left]
  intro i hi
  rw [List.mem_range] at hi
  rw [byteOf_add (by omega)]

/-- One chunk and the bytes behind it. -/
theorem range_map_append {α : Type} (f : Nat → α) (offset chunk w : Nat) :
    ((List.range chunk).map fun k => f (offset + k)) ++
        ((List.range w).map fun k => f (offset + chunk + k)) =
      (List.range (chunk + w)).map fun k => f (offset + k) := by
  rw [List.range_add, List.map_append, List.map_map]
  congr 1
  apply List.map_congr_left
  intro k _
  rw [comp_apply, Nat.add_assoc]

/-- `inode_read_at` returns the bytes of the inode. -/
theorem readLoop_eq (hcap : cnt ≤ capacity) (hlen : length d ≤ BLOCK_SECTOR_SIZE * cnt) (fuel : Nat) :
    ∀ (size offset : Nat) (bounce : Bool) (s : State), Maps s.disk d (Needs cnt) owner n →
      OnDevice owner s.size → avail d size offset ≤ fuel →
      readLoop d fuel size offset bounce s =
        .ok ((List.range (moved s.mallocs bounce (avail d size offset) offset)).map fun k =>
            byteOf s.disk d (offset + k))
          (s.setMallocs (mallocsLeft s.mallocs bounce (avail d size offset) offset)) := by
  -- by induction on the iterations; the disk stays as it is
  induction fuel with
  | zero =>
    intro size offset bounce s hm hdev hfuel
    rw [Nat.le_zero.mp hfuel, moved_zero, mallocsLeft_zero]
    rfl
  | succ fuel ih =>
    intro size offset bounce s hm hdev hfuel
    simp only [readLoop]
    by_cases hzero : avail d size offset = 0
    · -- nothing is left: the request or the inode ends here
      rw [hzero, moved_zero, mallocsLeft_zero]
      by_cases hsize : size = 0
      · rw [if_pos hsize]
        rfl
      · have hpast : length d ≤ offset := by
          simp only [avail] at hzero
          omega
        rw [if_neg hsize, bind_ok (byteToSector_past hpast), chunkSize_eq, hzero, Nat.zero_min,
          if_pos rfl]
        rfl
    · obtain ⟨hsize, hpos, hcnt⟩ := avail_pos hlen hzero
      have hsec := hdev _ _ (hm _ (data_mem_needs.mpr hcnt))
      rw [if_neg hsize, bind_ok (byteToSector_eq hm hdev hcap hpos hcnt)]
      have hchunk := chunkSize_eq d size offset
      generalize chunkSize d size offset = chunk at hchunk ⊢
      have hle : chunk ≤ avail d size offset := by omega
      have hleft : chunk ≤ BLOCK_SECTOR_SIZE - offset % BLOCK_SECTOR_SIZE := by omega
      have hchunk0 : chunk ≠ 0 := by
        simp only [BLOCK_SECTOR_SIZE] at hchunk
        omega
      rw [if_neg hchunk0]
      have hrest := ih (size - chunk) (offset + chunk)
      rw [avail_sub hle] at hrest
      by_cases hfull : offset % BLOCK_SECTOR_SIZE = 0 ∧ chunk = BLOCK_SECTOR_SIZE
      · obtain ⟨hofs, rfl⟩ := hfull
        rw [if_pos ⟨hofs, rfl⟩, bind_ok (blockRead_eq hsec),
          bind_ok (hrest bounce s hm hdev (by omega)), ← moved_full hofs hle,
          mallocsLeft_full hofs hle, ← range_map_append (byteOf s.disk d), ← bytesAt_chunk hleft, hofs]
        rfl
      · -- the bounce buffer is there, or `malloc` is asked for it
        have hpart : ¬ (offset % 512 = 0 ∧ 512 ≤ avail d size offset) := by
          simp only [BLOCK_SECTOR_SIZE] at hchunk hfull
          omega
        have hpos' : 0 < avail d size offset := Nat.pos_of_ne_zero hzero
        rw [if_neg hfull, bind_ok (getBounce_eq bounce s),
          mallocsLeft_of_bounces (bounces_of_not_full hpos' hpart)]
        generalize hs : s.setMallocs (if bounce then s.mallocs else s.mallocs.tail) = s'
        have hdisk : s'.disk = s.disk := by rw [← hs]; rfl
        have hsize' : s'.size = s.size := by rw [← hs]; rfl
        split
        · rename_i hgranted
          rw [← hdisk] at hm ⊢
          rw [← hsize'] at hdev hsec
          rw [← hdisk] at hsec
          rw [bind_ok (blockRead_eq hsec), bind_ok (hrest true s' hm hdev (by omega)),
            moved_granted hgranted, moved_bounce, mallocsLeft_bounce, State.setMallocs_self]
          have hbytes := range_map_append (byteOf s'.disk d) offset chunk
            (avail d size offset - chunk)
          rw [Nat.add_sub_cancel' hle] at hbytes
          rw [bytesAt_chunk hleft, ← hbytes]
          rfl
        · rename_i hdenied
          simp only [Bool.or_eq_true, not_or, Bool.not_eq_true] at hdenied
          rw [hdenied.1, moved_denied hpos' hpart hdenied.2]
          rfl

/-! ## Writing -/

/-- `w` bytes of the buffer are written at the offset of the inode, and nothing
    else. -/
structure Wrote (owner : Owner) (n : Sector) (d : Memory) (cnt : Nat) (buffer : List UInt8)
    (offset w : Nat) (disk disk' : Sector → Memory) : Prop where
  dataOnly : DataOnly owner n disk disk'
  bytes : ∀ k < BLOCK_SECTOR_SIZE * cnt, byteOf disk' d k =
    if offset ≤ k ∧ k < offset + w then (buffer[k - offset]?).getD 0 else byteOf disk d k

namespace Wrote

variable {buffer : List UInt8} {offset w w' : Nat} {disk disk' disk'' : Sector → Memory}

theorem zero : Wrote owner n d cnt buffer offset 0 disk disk where
  dataOnly := .refl _ _ _
  bytes k _ := by rw [if_neg (by omega)]

section

variable (h : Wrote owner n d cnt buffer offset w disk disk')

include h

theorem trans (h' : Wrote owner n d cnt (buffer.drop w) (offset + w) w' disk' disk'') :
    Wrote owner n d cnt buffer offset (w + w') disk disk'' where
  dataOnly := h.dataOnly.trans h'.dataOnly
  bytes k hk := by
    rw [h'.bytes k hk, h.bytes k hk, List.getElem?_drop]
    by_cases hfirst : offset ≤ k ∧ k < offset + w
    · rw [if_neg (by omega), if_pos hfirst, if_pos (by omega)]
    · rw [if_neg hfirst]
      by_cases hsecond : offset + w ≤ k ∧ k < offset + w + w'
      · rw [if_pos hsecond, if_pos (by omega), show w + (k - (offset + w)) = k - offset by omega]
      · rw [if_neg hsecond, if_neg (by omega)]

theorem maps (hm : Maps disk d (Needs cnt) owner n) : Maps disk' d (Needs cnt) owner n :=
  hm.congr (closed_needs cnt) fun _ _ hp => Maps.index_of_dataOnly h.dataOnly hp

end

/-- One sector is written. -/
theorem chunk {b : Memory} (hm : Maps disk d (Needs cnt) owner n)
    (hcnt : offset / BLOCK_SECTOR_SIZE < cnt)
    (hw : w ≤ BLOCK_SECTOR_SIZE - offset % BLOCK_SECTOR_SIZE)
    (hb : ∀ i < BLOCK_SECTOR_SIZE, b i =
      if offset % BLOCK_SECTOR_SIZE ≤ i ∧ i < offset % BLOCK_SECTOR_SIZE + w then
        (buffer[i - offset % BLOCK_SECTOR_SIZE]?).getD 0
      else disk (Fs.slotSector disk d (.data (offset / BLOCK_SECTOR_SIZE))) i) :
    Wrote owner n d cnt buffer offset w disk
      (update disk (Fs.slotSector disk d (.data (offset / BLOCK_SECTOR_SIZE))) b) := by
  have hslot := hm _ (data_mem_needs.mpr hcnt)
  have hdata : DataOnly owner n disk
      (update disk (Fs.slotSector disk d (.data (offset / BLOCK_SECTOR_SIZE))) b) := by
    intro p hp
    rw [update_of_ne]
    rintro rfl
    exact hp _ hslot
  refine ⟨hdata, fun k hk => ?_⟩
  have hkcnt : k / BLOCK_SECTOR_SIZE < cnt := by
    simp only [BLOCK_SECTOR_SIZE] at hk ⊢
    omega
  have hkslot := data_mem_needs.mpr hkcnt
  rw [byteOf, hm.slotSector_congr (closed_needs cnt)
    (fun _ _ hp => Maps.index_of_dataOnly hdata hp) _ hkslot]
  by_cases hsame : k / BLOCK_SECTOR_SIZE = offset / BLOCK_SECTOR_SIZE
  · rw [hsame, update_self, hb _ (Nat.mod_lt _ (by decide)), byteOf, hsame]
    simp only [BLOCK_SECTOR_SIZE] at hsame hw ⊢
    by_cases hin : offset ≤ k ∧ k < offset + w
    · rw [if_pos hin, if_pos (by omega), show k % 512 - offset % 512 = k - offset by omega]
    · rw [if_neg hin, if_neg (by omega)]
  · -- another sector of the inode
    rw [update_of_ne, if_neg, byteOf]
    · simp only [BLOCK_SECTOR_SIZE] at hsame hw
      omega
    · intro heq
      exact hsame (Slot.data.inj (hm.injOn hkslot (data_mem_needs.mpr hcnt) heq))

end Wrote

theorem copyTo_take {buffer : List UInt8} {ofs chunk : Nat} (h : chunk ≤ buffer.length)
    (b : Memory) (i : Nat) :
    copyTo b ofs (buffer.take chunk) i =
      if ofs ≤ i ∧ i < ofs + chunk then (buffer[i - ofs]?).getD 0 else b i := by
  simp only [copyTo]
  by_cases hofs : ofs ≤ i
  · rw [if_pos hofs]
    by_cases hchunk : i < ofs + chunk
    · rw [if_pos ⟨hofs, hchunk⟩, List.getElem?_take_of_lt (by omega),
        List.getElem?_eq_getElem (by omega)]
      rfl
    · rw [if_neg (by omega), List.getElem?_take_eq_none (by omega)]
      rfl
  · rw [if_neg hofs, if_neg (by omega)]

/-- One chunk is written, then the rest. -/
theorem blockWrite_then {s : State} {buffer : List UInt8} {offset chunk w : Nat} {b : Memory}
    {rest : M Nat} {left : List Bool} (hm : Maps s.disk d (Needs cnt) owner n)
    (hdev : OnDevice owner s.size) (hcnt : offset / BLOCK_SECTOR_SIZE < cnt)
    (hchunk : chunk ≤ BLOCK_SECTOR_SIZE - offset % BLOCK_SECTOR_SIZE)
    (hb : ∀ i < BLOCK_SECTOR_SIZE, b i =
      if offset % BLOCK_SECTOR_SIZE ≤ i ∧ i < offset % BLOCK_SECTOR_SIZE + chunk then
        (buffer[i - offset % BLOCK_SECTOR_SIZE]?).getD 0
      else s.disk (slotSector s.disk d (.data (offset / BLOCK_SECTOR_SIZE))) i)
    (hrest : ∀ s' : State, s'.size = s.size → s'.mallocs = s.mallocs →
      Maps s'.disk d (Needs cnt) owner n →
      ∃ disk', rest s' = .ok w ((s'.setDisk disk').setMallocs left) ∧
        Wrote owner n d cnt (buffer.drop chunk) (offset + chunk) w s'.disk disk') :
    ∃ disk', (do
          blockWrite (slotSector s.disk d (.data (offset / BLOCK_SECTOR_SIZE))) b
          let r ← rest
          pure (chunk + r) : M Nat) s = .ok (chunk + w) ((s.setDisk disk').setMallocs left) ∧
      Wrote owner n d cnt buffer offset (chunk + w) s.disk disk' := by
  have hwrote := Wrote.chunk hm hcnt hchunk hb
  have hsec := hdev _ _ (hm _ (data_mem_needs.mpr hcnt))
  obtain ⟨disk', hrun, hwrote'⟩ := hrest (s.setDisk (update s.disk _ b)) rfl rfl
    (hwrote.maps hm)
  refine ⟨disk', ?_, hwrote.trans hwrote'⟩
  rw [bind_ok (blockWrite_eq hsec), bind_ok hrun]
  rfl

/-- `inode_write_at` writes the bytes of the buffer. -/
theorem writeLoop_eq (hcap : cnt ≤ capacity) (hlen : length d ≤ BLOCK_SECTOR_SIZE * cnt)
    (fuel : Nat) : ∀ (buffer : List UInt8) (offset : Nat) (bounce : Bool) (s : State),
      Maps s.disk d (Needs cnt) owner n → OnDevice owner s.size →
      avail d buffer.length offset ≤ fuel →
      ∃ disk', writeLoop d fuel buffer offset bounce s =
          .ok (moved s.mallocs bounce (avail d buffer.length offset) offset)
            ((s.setDisk disk').setMallocs
              (mallocsLeft s.mallocs bounce (avail d buffer.length offset) offset)) ∧
        Wrote owner n d cnt buffer offset
          (moved s.mallocs bounce (avail d buffer.length offset) offset) s.disk disk' := by
  -- by induction on the iterations; every chunk is written to a sector of data
  induction fuel with
  | zero =>
    intro buffer offset bounce s hm hdev hfuel
    rw [Nat.le_zero.mp hfuel, moved_zero, mallocsLeft_zero]
    exact ⟨s.disk, rfl, .zero⟩
  | succ fuel ih =>
    intro buffer offset bounce s hm hdev hfuel
    simp only [writeLoop]
    by_cases hzero : avail d buffer.length offset = 0
    · rw [hzero, moved_zero, mallocsLeft_zero]
      refine ⟨s.disk, ?_, .zero⟩
      by_cases hsize : buffer.length = 0
      · rw [if_pos hsize]
        rfl
      · have hpast : length d ≤ offset := by
          simp only [avail] at hzero
          omega
        rw [if_neg hsize, bind_ok (byteToSector_past hpast), chunkSize_eq, hzero, Nat.zero_min,
          if_pos rfl]
        rfl
    · obtain ⟨hsize, hpos, hcnt⟩ := avail_pos hlen hzero
      have hsec := hdev _ _ (hm _ (data_mem_needs.mpr hcnt))
      rw [if_neg hsize, bind_ok (byteToSector_eq hm hdev hcap hpos hcnt)]
      have hchunk := chunkSize_eq d buffer.length offset
      generalize chunkSize d buffer.length offset = chunk at hchunk ⊢
      have hle : chunk ≤ avail d buffer.length offset := by omega
      have hleft : chunk ≤ BLOCK_SECTOR_SIZE - offset % BLOCK_SECTOR_SIZE := by omega
      have hbuffer : chunk ≤ buffer.length := Nat.le_trans hle (Nat.min_le_left _ _)
      have hchunk0 : chunk ≠ 0 := by
        simp only [BLOCK_SECTOR_SIZE] at hchunk
        omega
      rw [if_neg hchunk0]
      have hrest := ih (buffer.drop chunk) (offset + chunk)
      rw [List.length_drop, avail_sub hle] at hrest
      by_cases hfull : offset % BLOCK_SECTOR_SIZE = 0 ∧ chunk = BLOCK_SECTOR_SIZE
      · obtain ⟨hofs, rfl⟩ := hfull
        rw [if_pos ⟨hofs, rfl⟩, ← moved_full hofs hle, ← mallocsLeft_full hofs hle]
        apply blockWrite_then hm hdev hcnt hleft
        · intro i hi
          rw [copyTo_take hbuffer, hofs, if_pos (by omega), if_pos (by omega)]
        · intro s' hsize' hmallocs' hm'
          rw [← hmallocs']
          exact hrest bounce s' hm' (by rw [hsize']; exact hdev) (by omega)
      · -- the bounce buffer is there, or `malloc` is asked for it
        have hpart : ¬ (offset % 512 = 0 ∧ 512 ≤ avail d buffer.length offset) := by
          simp only [BLOCK_SECTOR_SIZE] at hchunk hfull
          omega
        have hpos' : 0 < avail d buffer.length offset := Nat.pos_of_ne_zero hzero
        rw [if_neg hfull, bind_ok (getBounce_eq bounce s),
          mallocsLeft_of_bounces (bounces_of_not_full hpos' hpart)]
        by_cases hgranted : (bounce || s.mallocs.headD true) = true
        · have hread : blockRead (slotSector s.disk d (.data (offset / BLOCK_SECTOR_SIZE)))
              (s.setMallocs (if bounce then s.mallocs else s.mallocs.tail)) = _ := blockRead_eq hsec
          rw [if_pos hgranted, moved_granted hgranted, if_pos (by omega), bind_ok hread,
            show avail d buffer.length offset = chunk + (avail d buffer.length offset - chunk) by omega]
          apply blockWrite_then
            (s := s.setMallocs (if bounce then s.mallocs else s.mallocs.tail)) hm hdev hcnt hleft
          · intro i hi
            rw [copyTo_take hbuffer]
            rfl
          · intro s' hsize' hmallocs' hm'
            have hrun := hrest true s' hm' (by rw [hsize']; exact hdev) (by omega)
            rw [moved_bounce, mallocsLeft_bounce, hmallocs'] at hrun
            exact hrun
        · rw [if_neg hgranted]
          simp only [Bool.or_eq_true, not_or, Bool.not_eq_true] at hgranted
          rw [hgranted.1, moved_denied hpos' hpart hgranted.2]
          exact ⟨s.disk, rfl, .zero⟩

end Transfer

end Pintos.Fs
