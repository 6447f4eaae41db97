/-
  Pintos.Fs.Bounds

  Which indices the inode layer uses.

  Inside the capacity of an inode every index is in range, whatever is on the
  device.  A request that grows an inode beyond the capacity runs out of the
  doubly-indirect block, unless the device is full before.
-/

import Pintos.Fs.Deallocate
import Pintos.Fs.Programs

namespace Pintos.Fs

open Pintos.Base Pintos.Lib

variable {d : Memory}

/-! ## Programs with indices in range -/

/-- The free map's file is inside the capacity of an inode. -/
def FreeMapShort (s : State) : Prop :=
  ∀ i, s.inode? FREE_MAP_SECTOR = some i → length i.data ≤ BLOCK_SECTOR_SIZE * capacity

/-- The program does not use an index that is out of range. -/
structure Bounded {α : Type} (p : M α) : Prop where
  triple : Triple FreeMapShort p (fun _ => FreeMapShort) fun e _ => e ≠ .indexRange

namespace Bounded

variable {α : Type}

theorem ne_indexRange {p : M α} (hp : Bounded p) {s : State} (hs : FreeMapShort s) (s' : State) :
    p s ≠ .error .indexRange s' := by
  intro heq
  have h := hp.triple s hs
  rw [heq] at h
  exact h rfl

theorem ambient : Ambient FreeMapShort (· = .indexRange) where
  congr s s' hopen hs := by
    rw [FreeMapShort, State.inode?, hopen]
    exact hs
  stop _ he := he
  freeMap s i hs hi _ := hs i hi

theorem of_keeps {p : M α} (h : Keeps FreeMapShort (· = .indexRange) p) : Bounded p := ⟨h.triple⟩

theorem byteToSector (h : length d ≤ BLOCK_SECTOR_SIZE * capacity) (pos : Nat) :
    Bounded (byteToSector d pos) := of_keeps (ambient.byteToSector (fun _ => h) pos)

theorem writeLoop (h : length d ≤ BLOCK_SECTOR_SIZE * capacity) (n : Nat) (buffer : List UInt8)
    (offset : Nat) (bounce : Bool) : Bounded (writeLoop d n buffer offset bounce) :=
  of_keeps (ambient.writeLoop (fun _ => h) n buffer offset bounce)

theorem inodeExtend (d : Memory) {newLength : Int} (h : bytesToSectors newLength ≤ capacity) :
    Bounded (inodeExtend d newLength) := of_keeps (ambient.inodeExtend d fun _ => h)

theorem inodeDeallocate (h : sectors d ≤ capacity) : Bounded (inodeDeallocate d) :=
  of_keeps (ambient.inodeDeallocate fun _ => h)

end Bounded

/-! ## The bound -/

section

variable {s : State} {i j : Inode} {n sector : Sector} {buffer : List UInt8} {offset : Nat}
  {size len : Int}

/-- The bytes that the slots of an inode can hold. -/
def capacityBytes : Int := BLOCK_SECTOR_SIZE * capacity

/-- An inode is as it was: its copy in memory and its index blocks. -/
structure Unchanged (s s' : State) (n : Sector) (i : Inode) : Prop where
  inode : s'.inode? n = some i
  blocks : ∀ σ ρ : Slot, σ.parent = some ρ → ρ ∈ Needs (sectors i.data) →
    s'.disk (slotSector s.disk i.data ρ) = s.disk (slotSector s.disk i.data ρ)

/-- What keeps the indices of a write at `offset` and of a file of `len` bytes in
    range: the sum of offset and size does not overflow, no index is out of range,
    and requests beyond the capacity are rejected without a change of the inode. -/
structure IndexSafe (s : State) (n : Sector) (i : Inode) (buffer : List UInt8) (size : Int)
    (offset : Nat) (sector : Sector) (len : Int) : Prop where
  noOverflow : toInt32 (offset + size) = offset + size
  write : ∀ s', inodeWriteAt n buffer size offset s ≠ .error .indexRange s'
  writeRejected : capacityBytes < offset + size →
    ∃ s', inodeWriteAt n buffer size offset s = .ok 0 s' ∧ Unchanged s s' n i
  create : ∀ s', inodeCreate sector len s ≠ .error .indexRange s'
  createRejected : capacityBytes < len → ∃ s', inodeCreate sector len s = .ok false s'
  read : ∀ pos s', byteToSector i.data pos s ≠ .error .indexRange s'
  deallocate : ∀ s', inodeDeallocate i.data s ≠ .error .indexRange s'

/-- The inode that `inode_create` starts with. -/
def freshInode : Memory := setMagic (setLength zeros 0) INODE_MAGIC

/-- The pointers that an inode does not use are not those of free sectors: they are 0,
    or a growth that failed has left them. -/
def NoStale (s : State) (d : Memory) : Prop :=
  ∀ σ : Slot, σ ∉ Needs (sectors d) → (∀ ρ, σ.parent = some ρ → ρ ∈ Needs (sectors d)) →
    s.freeMap[slotSector s.disk d σ]? ≠ some false

/-- A growth of the inode `d` keeps none of the sectors that it allocates. -/
def KeepsNone (s : State) (d : Memory) : Prop :=
  ¬ CanAllocate s (slotsAt (sectors d)) ∧ ¬ (sectors d = 251 ∧ CanAllocate s 2)

/-- The write and the new file are inside the capacity, or are refused before the inode
    is changed: the code has no check of its own. -/
def RequestsFit (s : State) (i : Inode) (size : Int) (offset : Nat) (len : Int) : Prop :=
  offset + size < 2 ^ 31 ∧
  (i.denyWriteCnt ≠ 0 ∨ offset + size ≤ capacityBytes ∨ KeepsNone s i.data) ∧
  (len ≤ capacityBytes ∨ s.mallocs.headD true = false ∨
    ¬ CanAllocate (s.setMallocs s.mallocs.tail) (slotsNeeded freshInode len))

theorem capacity_lt_iff {x : Int} (h : 0 ≤ x) (h' : x < 2 ^ 31) :
    capacity < bytesToSectors x ↔ capacityBytes < x := by
  rw [capacityBytes, capacity_eq]
  simp only [BLOCK_SECTOR_SIZE]
  by_cases hover : 2 ^ 31 ≤ x + 511
  · exact iff_of_true (capacity_eq ▸ capacity_lt_bytesToSectors hover h') (by omega)
  · rw [bytesToSectors_eq h (by omega)]
    omega

theorem Mounted.freeMapShort (hm : Mounted s j) : FreeMapShort s := by
  intro i hi
  cases hm.inode.symm.trans hi
  refine Int.le_trans hm.short ?_
  have := hm.cap
  simp only [BLOCK_SECTOR_SIZE]
  omega

/-- A successful call sets the length. -/
theorem length_of_inodeExtend {d' : Memory} {s s' : State} {newLength : Int}
    (hlow : -(2 ^ 31) ≤ newLength) (hhigh : newLength < 2 ^ 31)
    (hrun : inodeExtend d newLength s = .ok (d', true) s') : length d' = newLength := by
  rw [inodeExtend_eq] at hrun
  split at hrun
  · cases hrun
    exact length_setLength d hlow hhigh
  · obtain ⟨⟨e, ok⟩, s₁, -, hrest⟩ := bind_eq_ok hrun
    cases ok with
    | true =>
      cases hrest
      exact length_setLength e hlow hhigh
    | false => cases hrest

theorem FreeMapShort.updateData (h : FreeMapShort s) (n : Sector) (hd : length d ≤ capacityBytes) :
    FreeMapShort (s.updateInode n fun i => { i with data := d }) := by
  intro i hi
  have hupdate := s.inode?_updateInode (n := n) (f := fun i => { i with data := d })
    FREE_MAP_SECTOR fun _ => rfl
  rw [hupdate, Option.map_eq_some_iff] at hi
  obtain ⟨k, hk, rfl⟩ := hi
  split
  · exact hd
  · exact h k hk

theorem length_le_capacityBytes (h : 0 ≤ length d) (hcap : sectors d ≤ capacity) :
    length d ≤ capacityBytes := by
  have hle := length_le_sectors h hcap
  simp only [capacityBytes, BLOCK_SECTOR_SIZE] at *
  omega

theorem bytesToSectors_le_capacity {x : Int} (hlow : 0 ≤ x) (hhigh : x < 2 ^ 31)
    (h : x ≤ capacityBytes) : bytesToSectors x ≤ capacity := by
  by_contra hlt
  have := (capacity_lt_iff hlow hhigh).mp (by omega)
  omega

/-- A write inside the capacity keeps its indices in range. -/
theorem inodeWriteAt_ne_indexRange (hshort : FreeMapShort s) (hi : s.inode? n = some i)
    (hnonneg : 0 ≤ length i.data) (hcap : length i.data ≤ capacityBytes)
    (hlen : toInt32 (offset + size) ≤ capacityBytes) (s' : State) :
    inodeWriteAt n buffer size offset s ≠ .error .indexRange s' := by
  have hbounds := toInt32_bounds (offset + size)
  rw [inodeWriteAt, bind_ok (getInode_eq hi)]
  split
  · exact nofun
  split
  · rename_i hgrows
    have hin := bytesToSectors_le_capacity (by omega) (by omega) hlen
    have hext := (Bounded.inodeExtend i.data hin).triple s hshort
    cases hrun : inodeExtend i.data (toInt32 (offset + size)) s with
    | error e s₁ =>
      rw [hrun] at hext
      rw [bind_error hrun]
      intro heq
      cases heq
      exact hext rfl
    | ok r s₁ =>
      obtain ⟨d', ok⟩ := r
      rw [hrun] at hext
      rw [bind_ok hrun]
      cases ok with
      | false => exact nofun
      | true =>
        have hd : length d' ≤ capacityBytes := by
          rw [length_of_inodeExtend hbounds.1 hbounds.2 hrun]
          exact hlen
        have hwrite : Bounded (do blockWrite n d'; writeLoop d' buffer.length buffer offset false) :=
          .of_keeps (Ambient.bind (Bounded.ambient.blockWrite n d') fun _ =>
            Bounded.ambient.writeLoop (fun _ => hd) _ _ _ _)
        exact hwrite.ne_indexRange (hext.updateData n hd) s'
  · exact (Bounded.writeLoop hcap _ _ _ _).ne_indexRange hshort s'

/-- A write beyond the capacity of the inode that the device has room for. -/
theorem inodeWriteAt_indexRange (hm : Mounted s j) (hi : s.inode? n = some i)
    (hr : Resident s j i.data ∨ i = j) (hdeny : i.denyWriteCnt = 0)
    (hlen : capacityBytes < toInt32 (offset + size))
    (hcan : CanAllocate s (slotsNeeded i.data (toInt32 (offset + size)))) :
    ∃ s', inodeWriteAt n buffer size offset s = .error .indexRange s' := by
  have hbounds := toInt32_bounds (offset + size)
  obtain ⟨hnonneg, hcap, m, files, owner, h, hfile⟩ := hm.exists_number (hr.imp_right (congrArg _))
  have hle := length_le_capacityBytes hnonneg hcap
  have hzero : (0 : Int) ≤ capacityBytes := by decide
  have hbeyond := (capacity_lt_iff (by omega) hbounds.2).mpr hlen
  obtain ⟨s', hrun⟩ := inodeExtend_indexRange h hfile hcap _ hbeyond hcan
  refine ⟨s', ?_⟩
  rw [inodeWriteAt, bind_ok (getInode_eq hi), if_neg (not_not_intro hdeny), if_pos ?_,
    bind_error hrun]
  exact Int.lt_of_le_of_lt hle hlen

theorem slotsAt_le_slotsNeeded {newLength : Int} (hcap : sectors d ≤ capacity)
    (hgrows : sectors d < bytesToSectors newLength) : slotsAt (sectors d) ≤ slotsNeeded d newLength := by
  obtain ⟨m, hm⟩ : ∃ m, bytesToSectors newLength - sectors d = m + 1 :=
    ⟨bytesToSectors newLength - sectors d - 1, by omega⟩
  rw [slotsNeeded, hm, slotsFrom_iterations_succ hcap]
  exact Nat.le_add_left _ _

/-- A set of slots is inside another one if each slot is whose parent is. -/
theorem subset_of_parents {S S₀ : Set Slot} (hclosed : Closed S)
    (hstep : ∀ σ ∈ S, (∀ ρ, Slot.parent σ = some ρ → ρ ∈ S₀) → σ ∈ S₀) : S ⊆ S₀ := by
  intro σ
  induction σ using Slot.parent_induction with
  | step σ ih => exact fun hσ => hstep σ hσ fun ρ hρ => ih ρ hρ (hclosed σ hσ ρ hρ)

theorem indexOf_parent (m : Sector) {σ ρ : Slot} (h : σ.parent = some ρ) :
    IndexOf m (m, some ρ) := by
  cases ρ with
  | data k => exact absurd h (σ.parent_ne_data k)
  | indirect => rfl
  | doubly => rfl
  | inner o => rfl

/-- A write that is denied changes nothing. -/
theorem inodeWriteAt_denied (hi : s.inode? n = some i) (hdeny : i.denyWriteCnt ≠ 0)
    (buffer : List UInt8) (size : Int) (offset : Nat) :
    inodeWriteAt n buffer size offset s = .ok 0 s := by
  rw [inodeWriteAt, bind_ok (getInode_eq hi), if_pos hdeny]
  rfl

/-- A write beyond the capacity of the inode that the device has no room for: it leaves
    the inode as it was if no sector is kept, and only then. -/
theorem inodeWriteAt_rejected (hm : Mounted s j) (hi : s.inode? n = some i)
    (hr : Resident s j i.data ∨ i = j) (hdeny : i.denyWriteCnt = 0)
    (hlen : capacityBytes < toInt32 (offset + size))
    (hcan : ¬ CanAllocate s (slotsNeeded i.data (toInt32 (offset + size)))) :
    ∃ s', inodeWriteAt n buffer size offset s = .ok 0 s' ∧
      (KeepsNone s i.data → Unchanged s s' n i) ∧
      (NoStale s i.data → Unchanged s s' n i → KeepsNone s i.data) := by
  obtain ⟨hnonneg, hcap, m, files, owner, h, hfile⟩ := hm.exists_number (hr.imp_right (congrArg _))
  obtain ⟨d', s₁, S', owner', hrun, hgrow, hnone⟩ := inodeExtend_false h hfile hm.file hcap _ hcan
  have hinode : (s₁.updateInode n fun i => { i with data := d' }).inode? n =
      some { i with data := d' } := by
    have hupdate := s₁.inode?_updateInode (n := n) (f := fun i => { i with data := d' }) n fun _ => rfl
    rw [hupdate, State.inode?, hgrow.openInodes]
    rw [State.inode?] at hi
    rw [hi, Option.map_some, if_pos rfl]
  refine ⟨s₁.updateInode n fun i => { i with data := d' }, ?_, fun hkeeps => ?_, fun hstale hsame => ?_⟩
  · rw [inodeWriteAt, bind_ok (getInode_eq hi), if_neg (not_not_intro hdeny), if_pos ?_, bind_ok hrun]
    · rfl
    · exact Int.lt_of_le_of_lt (length_le_capacityBytes hnonneg hcap) hlen
  · obtain ⟨rfl, hblocks⟩ := hgrow.same (hnone.mpr hkeeps)
    exact ⟨hinode, fun σ ρ hσ hρ => hblocks _ _ (h.maps _ _ _ hfile ρ hρ) (indexOf_parent m hσ)⟩
  · -- a slot whose parents were there before would hold a sector that was free
    refine hnone.mp (Set.Subset.antisymm (subset_of_parents hgrow.closed ?_) hgrow.sub)
    intro σ hσ hparents
    by_contra hnew
    have hdata : d' = i.data := congrArg Inode.data (Option.some.inj (hinode.symm.trans hsame.inode))
    have hslot : slotSector s₁.disk d' σ = slotSector s.disk i.data σ := by
      rw [slotSector_eq, slotSector_eq]
      cases hparent : σ.parent with
      | none => rw [hdata]; rfl
      | some ρ =>
        have hblock : s₁.disk (slotSector s.disk i.data ρ) = _ :=
          hsame.blocks σ ρ hparent (hparents ρ hparent)
        rw [pointerBlock, pointerBlock, hgrow.keeps ρ (hparents ρ hparent), hblock]
    exact hstale σ hnew hparents (hslot ▸ hgrow.fresh σ hσ hnew)

theorem length_freshInode : length freshInode = 0 := by
  rw [freshInode, setMagic, length, word_setWord_of_disjoint (by decide)]
  exact length_setLength zeros (by decide) (by decide)

theorem Mounted.setMallocs (hm : Mounted s j) (l : List Bool) : Mounted (s.setMallocs l) j where
  file := hm.file
  len := hm.len
  small := hm.small
  inode := hm.inode
  writable := hm.writable
  long := hm.long
  cap := hm.cap
  used := hm.used
  inj := hm.inj

theorem inodeCreate_eq (hlen : 0 < len) (hmalloc : s.mallocs.headD true = true) :
    inodeCreate sector len s = (do
      let (d, ok) ← inodeExtend freshInode len
      if ok then do
        blockWrite sector d
        pure true
      else pure false) (s.setMallocs s.mallocs.tail) := by
  have hmem : malloc s = .ok true (s.setMallocs s.mallocs.tail) := by rw [malloc_eq, hmalloc]
  rw [inodeCreate, if_neg (by omega), bind_ok hmem, if_pos rfl, if_pos hlen]
  rfl

theorem inodeCreate_no_memory (hlen : 0 ≤ len) (hmalloc : s.mallocs.headD true = false) :
    inodeCreate sector len s = .ok false (s.setMallocs s.mallocs.tail) := by
  have hmem : malloc s = .ok false (s.setMallocs s.mallocs.tail) := by rw [malloc_eq, hmalloc]
  rw [inodeCreate, if_neg (by omega), bind_ok hmem, if_neg Bool.false_ne_true]
  rfl

/-- The creation of a file inside the capacity keeps its indices in range. -/
theorem Bounded.inodeCreate (hhigh : len < 2 ^ 31) (hlen : len ≤ capacityBytes) :
    Bounded (inodeCreate sector len) := by
  refine .of_keeps (Bounded.ambient.inodeCreate sector fun _ hpos => ?_)
  exact bytesToSectors_le_capacity (Int.le_of_lt hpos) hhigh hlen

/-- The creation of a file beyond the capacity ends in the inode's last index, or
    fails if the device or the memory does not suffice. -/
theorem inodeCreate_beyond (sector : Sector) (hm : Mounted s j) (hhigh : len < 2 ^ 31) (hlen : capacityBytes < len) :
    ∃ s', inodeCreate sector len s = if s.mallocs.headD true = true ∧
        CanAllocate (s.setMallocs s.mallocs.tail) (slotsNeeded freshInode len) then
      .error .indexRange s' else .ok false s' := by
  have hpos : 0 < len := Int.lt_of_le_of_lt (by decide) hlen
  by_cases hmalloc : s.mallocs.headD true = true
  · have hm' := hm.setMallocs s.mallocs.tail
    obtain ⟨-, hcap, m, files, owner, h, hfile⟩ :=
      hm'.exists_number (.inl (resident_of_length_zero j length_freshInode))
    rw [inodeCreate_eq hpos hmalloc]
    by_cases hcan : CanAllocate (s.setMallocs s.mallocs.tail) (slotsNeeded freshInode len)
    · have hbeyond := (capacity_lt_iff (by omega) hhigh).mpr hlen
      obtain ⟨s', hrun⟩ := inodeExtend_indexRange h hfile hcap _ hbeyond hcan
      refine ⟨s', ?_⟩
      rw [if_pos ⟨hmalloc, hcan⟩, bind_error hrun]
    · obtain ⟨d', s', S', owner', hrun, -⟩ := inodeExtend_false h hfile hm'.file hcap _ hcan
      refine ⟨s', ?_⟩
      rw [if_neg fun hboth => hcan hboth.2, bind_ok hrun]
      rfl
  · refine ⟨s.setMallocs s.mallocs.tail, ?_⟩
    rw [if_neg fun hboth => hmalloc hboth.1,
      inodeCreate_no_memory (by omega) (Bool.eq_false_iff.mpr hmalloc)]

/-- The indices of an inode stay in range if every request fits; where the unused
    pointers are not those of free sectors, only then. -/
theorem indices_in_range_iff (hm : Mounted s j) (hi : s.inode? n = some i)
    (hr : Resident s j i.data ∨ i = j) (hoffset : offset < 2 ^ 31)
    (hsize : -(2 ^ 31) ≤ size ∧ size < 2 ^ 31) (hlen : len < 2 ^ 31) :
    (RequestsFit s i size offset len → IndexSafe s n i buffer size offset sector len) ∧
    (NoStale s i.data → IndexSafe s n i buffer size offset sector len →
      RequestsFit s i size offset len) := by
  obtain ⟨hnonneg, hcap, -⟩ := hm.exists_number (hr.imp_right (congrArg _))
  have hle := length_le_capacityBytes hnonneg hcap
  refine ⟨?_, fun hstale h => ?_⟩
  · rintro ⟨hsum, hwrite, hcreate⟩
    have htoInt : toInt32 (offset + size) = offset + size := toInt32_of_lt (by omega) hsum
    have hrejected : capacityBytes < offset + size →
        ∃ s', inodeWriteAt n buffer size offset s = .ok 0 s' ∧ Unchanged s s' n i := by
      intro hbeyond
      by_cases hdeny : i.denyWriteCnt = 0
      · have hkeeps := (hwrite.resolve_left (not_not_intro hdeny)).resolve_left (by omega)
        have hgrows : sectors i.data < bytesToSectors (offset + size) :=
          Nat.lt_of_le_of_lt hcap ((capacity_lt_iff (by omega) hsum).mpr hbeyond)
        rw [← htoInt] at hbeyond hgrows
        obtain ⟨s', hrun, hsame, -⟩ := inodeWriteAt_rejected hm hi hr hdeny hbeyond
          fun hcan => hkeeps.1 (hcan.mono (slotsAt_le_slotsNeeded hcap hgrows))
        exact ⟨s', hrun, hsame hkeeps⟩
      · exact ⟨s, inodeWriteAt_denied hi hdeny _ _ _, hi, fun _ _ _ _ => rfl⟩
    have hfails : capacityBytes < len → ∃ s', inodeCreate sector len s = .ok false s' := by
      intro hbeyond
      obtain ⟨s', hrun⟩ := inodeCreate_beyond sector hm hlen hbeyond
      rw [if_neg ?_] at hrun
      · exact ⟨s', hrun⟩
      · rintro ⟨hmalloc, hcan⟩
        rcases hcreate with h | h | h
        · omega
        · rw [h] at hmalloc
          cases hmalloc
        · exact h hcan
    refine ⟨htoInt, fun s' heq => ?_, hrejected, fun s' heq => ?_, hfails, fun pos s' => ?_,
      fun s' => ?_⟩
    · by_cases hbeyond : capacityBytes < offset + size
      · obtain ⟨s₁, hrun, -⟩ := hrejected hbeyond
        rw [hrun] at heq
        cases heq
      · exact inodeWriteAt_ne_indexRange hm.freeMapShort hi hnonneg hle (by omega) s' heq
    · by_cases hbeyond : capacityBytes < len
      · obtain ⟨s₁, hrun⟩ := hfails hbeyond
        rw [hrun] at heq
        cases heq
      · exact (Bounded.inodeCreate hlen (by omega)).ne_indexRange hm.freeMapShort s' heq
    · exact (Bounded.byteToSector hle pos).ne_indexRange hm.freeMapShort s'
    · exact (Bounded.inodeDeallocate hcap).ne_indexRange hm.freeMapShort s'
  · have hsum := h.noOverflow
    have hbounds := toInt32_bounds (offset + size)
    refine ⟨by omega, ?_, ?_⟩
    · by_contra hnot
      push Not at hnot
      obtain ⟨hdeny, hbeyond, hkeeps⟩ := hnot
      obtain ⟨s', hrun, hsame⟩ := h.writeRejected hbeyond
      rw [← hsum] at hbeyond
      by_cases hcan : CanAllocate s (slotsNeeded i.data (toInt32 (offset + size)))
      · obtain ⟨s₁, hrun₁⟩ : ∃ s₁, inodeWriteAt n buffer size offset s = .error .indexRange s₁ :=
          inodeWriteAt_indexRange hm hi hr hdeny hbeyond hcan
        exact h.write s₁ hrun₁
      · obtain ⟨s₁, hrun₁, -, hkept⟩ := inodeWriteAt_rejected hm hi hr hdeny hbeyond hcan
        cases hrun.symm.trans hrun₁
        exact hkeeps (hkept hstale hsame)
    · by_contra hnot
      push Not at hnot
      obtain ⟨hbeyond, hmalloc, hcan⟩ := hnot
      obtain ⟨s', hrun⟩ := inodeCreate_beyond sector hm hlen hbeyond
      rw [if_pos ⟨by simpa using hmalloc, hcan⟩] at hrun
      exact h.create s' hrun

theorem small_noStale (free : Nat) : NoStale (small free) smallFreeMap.data := by
  intro σ hσ hparents
  rw [sectors_smallFreeMap] at hσ hparents
  have hroot : σ.parent = none := by
    cases hp : σ.parent with
    | none => rfl
    | some ρ =>
      rw [mem_needs_one (hparents ρ hp)] at hp
      exact absurd hp (σ.parent_ne_data 0)
  have hpos := Growing.pos_of_root hroot
  have hne : σ ≠ .data 0 := by
    rintro rfl
    exact hσ (by simp)
  have hzero : slotSector (small free).disk smallFreeMap.data σ = 0 := by
    have hapart : σ.pos + 4 ≤ 8 ∨ 8 + 4 ≤ σ.pos := Slot.pos_disjoint hne hroot
    rw [slotSector_eq, hroot, pointerBlock, smallFreeMap, word_setWord_of_disjoint (by omega),
      setLength, word_setWord_of_disjoint (by omega)]
    simp [word, zeros]
  rw [hzero]
  simp [small]

/-- On a full device a write beyond the capacity is rejected. -/
theorem indices_in_range_iff_full : NoStale (small 0) smallFreeMap.data ∧
    IndexSafe (small 0) 0 smallFreeMap [1] 1 (2 ^ 24) 3 512 :=
  ⟨small_noStale 0,
    (indices_in_range_iff (small_mounted (by decide)) rfl (.inr rfl) (by decide) (by decide)
      (by decide)).1 ⟨by decide, .inr (.inr ⟨by decide, by decide⟩), .inl (by decide)⟩⟩

/-- The sum of the largest offset and the size 1 is negative. -/
theorem offset_overflows : ¬ IndexSafe (small 1) 0 smallFreeMap [1] 1 (2 ^ 31 - 1) 3 512 := by
  intro h
  exact absurd h.noOverflow (by decide)

end

end Pintos.Fs
