/-
  Pintos.Fs.Operations

  What each operation of the inode layer does to the store of files.

  Every lemma runs one operation from a consistent state and says how it ends: in a
  consistent state, with which files (`view`), with which open inodes (`info`), and
  with the free map's file up to date if no `malloc` fails (`Evolves`).
-/

import Pintos.Fs.Store
import Pintos.Fs.Bounds

namespace Pintos.Fs

open Pintos.Base Pintos.Lib Function

variable {files : Files} {disk : Sector → Memory} {offset k cnt : Nat} {buffer : List UInt8}
  {S S' : Set Slot} {X : Set Sector} {len : Int}

/-! ## Steps -/

/-- What holds of every operation. -/
structure Evolves (s s' : State) : Prop where
  size : s'.size = s.size
  mallocs : s'.mallocs <:+ s.mallocs
  synced : s.MallocsSucceed → Synced s → Synced s'

namespace Evolves

variable {s s₁ s' : State}

theorem refl (s : State) : Evolves s s := ⟨rfl, List.suffix_rfl, fun _ h => h⟩

theorem trans (h : Evolves s s₁) (h' : Evolves s₁ s') : Evolves s s' where
  size := h'.size.trans h.size
  mallocs := h'.mallocs.trans h.mallocs
  synced hok hs := h'.synced (hok.of_suffix h.mallocs) (h.synced hok hs)

theorem mallocsSucceed (h : Evolves s s') (hok : s.MallocsSucceed) : s'.MallocsSucceed :=
  hok.of_suffix h.mallocs

end Evolves

section

variable {s s' : State} {store : Store} {owner owner' : Owner} {n m : Sector} {d d' : Memory}
  {i : Inode} {l : List Bool}

theorem Owned.setMallocs (h : Owned s files owner) (l : List Bool) :
    Owned (s.setMallocs l) files owner where
  len := h.len
  small := h.small
  used := h.used
  closed := h.closed
  maps := h.maps
  file := h.file_congr rfl rfl rfl fun _ => rfl

theorem Consistent.setMallocs (h : Consistent s store owner) (l : List Bool) :
    Consistent (s.setMallocs l) store owner where
  owned := h.owned.setMallocs l
  mounted := h.mounted
  header := h.header
  nonneg := h.nonneg
  cap := h.cap
  memory := h.memory
  nodup := h.nodup
  counted := h.counted
  onDisk := h.onDisk
  closed := h.closed
  tail := h.tail

theorem Evolves.setMallocs (h : l <:+ s.mallocs) : Evolves s (s.setMallocs l) :=
  ⟨rfl, h, fun _ hs => hs⟩

/-! ## Reading -/

/-- The bytes that a request gets. -/
theorem contents_slice {w : Nat} (hw : w ≤ (length d - offset).toNat) :
    (List.range w).map (fun k => byteOf disk d (offset + k)) =
      ((contents disk d).drop offset).take w := by
  apply List.ext_getElem?
  intro k
  rw [List.getElem?_take, List.getElem?_drop]
  by_cases hk : k < w
  · rw [if_pos hk, contents_getElem? (by omega)]
    simp [hk]
  · rw [if_neg hk, List.getElem?_eq_none (by simp; omega)]

theorem moved_le (l : List Bool) (b : Bool) (size offset : Nat) : moved l b size offset ≤ size := by
  rw [moved]
  split
  · exact Nat.le_refl _
  · split
    · exact Nat.sub_le _ _
    · exact Nat.zero_le _

theorem State.MallocsSucceed.head (hok : s.MallocsSucceed) : s.mallocs.headD true = true := by
  cases hm : s.mallocs with
  | nil => rfl
  | cons a rest => exact hok a (by rw [hm]; exact List.mem_cons_self)

theorem moved_of_mallocsSucceed (hok : s.MallocsSucceed) (size offset : Nat) :
    moved s.mallocs false size offset = size := moved_granted hok.head

/-- `inode_read_at` returns bytes of the file, all that there are if the bounce
    buffer can be had. -/
theorem inodeReadAt_eq (h : Consistent s store owner) (hi : s.inode? n = some i) (size offset : Nat) :
    ∃ l, inodeReadAt n size offset s =
        .ok (((contents s.disk i.data).drop offset).take
          (moved s.mallocs false (avail i.data size offset) offset)) (s.setMallocs l) ∧
      l <:+ s.mallocs := by
  have hn := h.inode hi
  have hlen := length_le_sectors (h.nonneg n _ hn) (h.cap n _ hn)
  have hw : moved s.mallocs false (avail i.data size offset) offset ≤ (length i.data - offset).toNat :=
    Nat.le_trans (moved_le _ _ _ _) (Nat.min_le_right _ _)
  refine ⟨mallocsLeft s.mallocs false (avail i.data size offset) offset, ?_, mallocsLeft_suffix⟩
  rw [inodeReadAt, bind_ok (getInode_eq hi), readLoop_eq (h.cap n _ hn) hlen size size offset false s
    (h.maps hn) h.owned.onDevice (Nat.min_le_left _ _), contents_slice hw]

theorem take_avail (size offset : Nat) :
    ((contents disk d).drop offset).take (avail d size offset) =
      ((contents disk d).drop offset).take size := by
  rw [List.take_eq_take_iff, List.length_drop, contents_length, avail]
  omega

/-! ## Writing inside a file -/

/-- The file is filled up with zeros. -/
def zeroExtend (bytes : List UInt8) (len : Nat) : List UInt8 :=
  bytes ++ List.replicate (len - bytes.length) 0

/-- The bytes of the buffer replace those at the offset. -/
def overwrite (bytes : List UInt8) (offset : Nat) (buffer : List UInt8) : List UInt8 :=
  bytes.take offset ++ buffer ++ bytes.drop (offset + buffer.length)

theorem overwrite_getElem? {bytes : List UInt8}
    (h : offset + buffer.length ≤ bytes.length) (k : Nat) :
    (overwrite bytes offset buffer)[k]? =
      if offset ≤ k ∧ k < offset + buffer.length then buffer[k - offset]? else bytes[k]? := by
  have htake : (bytes.take offset).length = offset := by
    rw [List.length_take]
    omega
  rw [overwrite]
  by_cases hlow : k < offset
  · rw [List.append_assoc, List.getElem?_append_left (by omega), List.getElem?_take_of_lt hlow,
      if_neg (by omega)]
  by_cases hhigh : k < offset + buffer.length
  · rw [List.append_assoc, List.getElem?_append_right (by omega),
      List.getElem?_append_left (by omega), htake, if_pos ⟨by omega, hhigh⟩]
  · rw [List.getElem?_append_right (by rw [List.length_append]; omega), List.length_append, htake,
      List.getElem?_drop, if_neg (by omega)]
    congr 1
    omega

theorem zeroExtend_getElem? (bytes : List UInt8) {len : Nat} (hk : k < len) :
    (zeroExtend bytes len)[k]? = if k < bytes.length then bytes[k]? else some 0 := by
  rw [zeroExtend]
  split
  · rename_i hlt
    rw [List.getElem?_append_left hlt]
  · rename_i hge
    rw [List.getElem?_append_right (by omega), List.getElem?_replicate, if_pos (by omega)]

theorem zeroExtend_of_le {bytes : List UInt8} {len : Nat} (h : len ≤ bytes.length) :
    zeroExtend bytes len = bytes := by
  rw [zeroExtend, Nat.sub_eq_zero_of_le h, List.replicate_zero, List.append_nil]

@[simp] theorem overwrite_nil (bytes : List UInt8) (offset : Nat) : overwrite bytes offset [] = bytes := by
  rw [overwrite, List.append_nil, List.length_nil, Nat.add_zero, List.take_append_drop]

/-- What a write leaves in the file. -/
theorem contents_of_wrote {w : Nat} {disk' : Sector → Memory}
    (hlen : length d ≤ BLOCK_SECTOR_SIZE * cnt) (hw : w ≤ buffer.length)
    (hin : offset + w ≤ (length d).toNat) (h : Wrote owner n d cnt buffer offset w disk disk') :
    contents disk' d = overwrite (contents disk d) offset (buffer.take w) := by
  have htake : (buffer.take w).length = w := by
    rw [List.length_take]
    omega
  apply List.ext_getElem?
  intro k
  rw [overwrite_getElem? (by rw [htake, contents_length]; exact hin), htake]
  by_cases hk : k < (length d).toNat
  · rw [contents_getElem? hk, contents_getElem? hk, h.bytes k (by omega)]
    split
    · rw [List.getElem?_take_of_lt (by omega), List.getElem?_eq_getElem (by omega)]
      rfl
    · rfl
  · rw [List.getElem?_eq_none (by rw [contents_length]; omega), if_neg (by omega),
      List.getElem?_eq_none (by rw [contents_length]; omega)]

theorem Owned.setDisk {disk' : Sector → Memory} (h : Owned s files owner)
    (hdisk : ∀ p m σ, owner p = some (m, some σ) → (∃ τ, Slot.parent τ = some σ) →
      disk' p = s.disk p) : Owned (s.setDisk disk') files owner where
  len := h.len
  small := h.small
  used := h.used
  closed := h.closed
  maps m d S hm := by
    refine (h.maps m d S hm).congr (h.closed m d S hm) fun q τ hq hindex => hdisk q m τ hq hindex
  file := h.file_congr rfl rfl rfl fun _ => rfl

/-- Data is written to a file inside its length. -/
theorem Consistent.writeLoop (h : Consistent s store owner) (hn : store n = some d)
    (hne : n ≠ FREE_MAP_SECTOR) (hin : (offset + buffer.length : Int) ≤ length d) :
    ∃ w s', writeLoop d buffer.length buffer offset false s = .ok w s' ∧
      w = moved s.mallocs false buffer.length offset ∧ Consistent s' store owner ∧ Evolves s s' ∧
      s'.openInodes = s.openInodes ∧ s'.freeMap = s.freeMap ∧
      contents s'.disk d = overwrite (contents s.disk d) offset (buffer.take w) ∧
      ∀ m, m ≠ n → view s' store m = view s store m := by
  have hlen := length_le_sectors (h.nonneg n d hn) (h.cap n d hn)
  have havail : avail d buffer.length offset = buffer.length := by
    rw [avail]
    omega
  obtain ⟨disk', hrun, hwrote⟩ := writeLoop_eq (h.cap n d hn) hlen buffer.length buffer offset false s
    (h.maps hn) h.owned.onDevice (Nat.min_le_left _ _)
  rw [havail] at hrun hwrote
  have hw := moved_le s.mallocs false buffer.length offset
  generalize moved s.mallocs false buffer.length offset = w at hrun hwrote hw
  have hwrites : DataWrites owner n s.disk disk' := hwrote.dataOnly.writes
  have howned : Owned (s.setDisk disk') (filesOf store) owner :=
    h.owned.setDisk fun p m σ hp hindex => Maps.index_of_dataOnly hwrote.dataOnly hp hindex
  refine ⟨w, _, hrun, rfl, ?_, ⟨rfl, mallocsLeft_suffix, fun _ hs => ?_⟩, rfl, rfl, ?_, fun m hm => ?_⟩
  · have hcons : Consistent (s.setDisk disk') store owner := by
      refine h.dataWrites (n := n) howned (fun _ _ hp => hp) rfl rfl hwrites ?_
      intro e he _ k hk hkl
      cases hn.symm.trans he
      -- the write ends before the end of the file
      show byteOf disk' d k = 0
      rw [hwrote.bytes k hkl, if_neg (by omega)]
      exact h.tail n d hn hne k hk hkl
    exact hcons.setMallocs _
  · refine Synced.congr h.owned hs h.mounted fun p σ hp => ?_
    apply hwrote.dataOnly
    intro j hj
    rw [hp] at hj
    cases hj
    exact hne rfl
  · exact contents_of_wrote hlen hw (by omega) hwrote
  · have hview : view (s.setDisk disk') store m = view s store m := h.view_spares hwrites.spares hm
    exact hview

/-! ## Replacing an inode -/

theorem Owned.updateInode (h : Owned s files owner) (hne : n ≠ FREE_MAP_SECTOR)
    {f : Inode → Inode} (hf : ∀ i, (f i).sector = i.sector) : Owned (s.updateInode n f) files owner where
  len := h.len
  small := h.small
  used := h.used
  closed := h.closed
  maps := h.maps
  file := by
    refine h.file_congr rfl ?_ rfl fun _ => rfl
    rw [s.inode?_updateInode FREE_MAP_SECTOR hf]
    simp [Ne.symm hne]

theorem Synced.updateInode (h : Synced s) (hne : n ≠ FREE_MAP_SECTOR) {f : Inode → Inode}
    (hf : ∀ i, (f i).sector = i.sector) : Synced (s.updateInode n f) := by
  intro i hi
  rw [s.inode?_updateInode FREE_MAP_SECTOR hf, Option.map_eq_some_iff] at hi
  obtain ⟨j, hj, rfl⟩ := hi
  rw [if_neg (Ne.symm hne)]
  exact h j hj

theorem Owned.assign (h : Owned s files owner) (hne : n ≠ FREE_MAP_SECTOR)
    (d : Memory) : Owned (s.setData n d) files owner := h.updateInode hne fun _ => rfl

theorem Synced.assign (h : Synced s) (hne : n ≠ FREE_MAP_SECTOR) (d : Memory) :
    Synced (s.setData n d) := h.updateInode hne fun _ => rfl

/-- The open inode `n` gets new contents `d'`: what has to be shown. -/
theorem Consistent.replace (h : Consistent s store owner) (hi : s.inode? n = some i)
    (howned : Owned s' (filesOf (update store n (some d'))) owner')
    (hmono : ∀ p r, owner p = some r → owner' p = some r)
    (hopen : s'.openInodes = (s.setData n d').openInodes)
    (hfile : s'.freeMapFile = s.freeMapFile)
    (hdisk : Spares owner n s.disk s'.disk)
    (hlen : 0 ≤ length d') (hcap : sectors d' ≤ capacity) (hon : OnDisk (s'.disk n) d')
    (htail : n ≠ FREE_MAP_SECTOR → ∀ k : Nat, length d' ≤ k →
      k < BLOCK_SECTOR_SIZE * sectors d' → byteOf s'.disk d' k = 0) :
    Consistent s' (update store n (some d')) owner' := by
  have hclosed : ∀ m, s'.inode? m = none → s.inode? m = none := by
    intro m hnone
    have hupdate := s.inode?_setData n d' m
    rw [State.inode?, hopen] at hnone
    rw [State.inode?, hnone] at hupdate
    exact Option.map_eq_none_iff.mp hupdate.symm
  refine h.step howned hfile (hopen ▸ h.opened.setData n d') (fun m _ => hclosed m)
    (fun p m σ _ => hmono p _) hdisk (fun m hm => update_of_ne hm _ _) fun e he => ?_
  cases (update_self n (some d') store).symm.trans he
  refine ⟨hmono _ _ (h.header _ _ (h.inode hi)), hlen, hcap, hon, fun hnone => ?_, htail⟩
  rw [hclosed n hnone] at hi
  cases hi

/-- The other files keep their bytes. -/
theorem Consistent.view_replace (h : Consistent s store owner) (hdisk : Spares owner n s.disk s'.disk)
    (hmn : m ≠ n) : view s' (update store n (some d')) m = view s store m := by
  rw [← h.view_spares hdisk hmn, view, view, update_of_ne hmn]

/-! ## Growing a file -/

theorem info_setData (s : State) (n : Sector) (d : Memory) : (s.setData n d).info = s.info := by
  funext m
  rw [State.info, State.info, s.inode?_setData, Option.map_map]
  congr 1
  funext i
  simp only [comp_apply]
  split <;> rfl

section

variable (h : Growing n files s d S owner s' d' S' owner' X)

include h

/-- What growth leaves alone. -/
theorem Growing.spares : Spares owner n s.disk s'.disk := by
  intro p r hp hr hf
  refine h.kept p r hp ?_
  obtain ⟨m, _ | σ⟩ := r
  · trivial
  · cases σ with
    | data j =>
      rintro rfl
      exact hf j rfl
    | indirect => exact hr
    | doubly => exact hr
    | inner o => exact hr

theorem Growing.length_eq : length d' = length d := by
  rw [length, length, word_congr fun x _ hx => h.fields x (by omega)]

theorem Growing.isDir_eq : isDir d' = isDir d := by
  rw [isDir, isDir, word_congr fun x hx _ => h.fields x (by omega)]

/-- The pointers that were there stay. -/
theorem Growing.sameRoots : SameRoots S d' d := by
  intro σ hσ hroot
  have heq := h.keeps σ hσ
  rw [slotSector_eq, slotSector_eq s.disk d, hroot] at heq
  exact heq

end

/-- The bytes that were there stay. -/
theorem Growing.byteOf_eq (h : Growing n files s d (Needs cnt) owner s' d' S' owner' X)
    (hne : n ≠ FREE_MAP_SECTOR) (hm : Maps s.disk d (Needs cnt) owner n)
    (hk : k < BLOCK_SECTOR_SIZE * cnt) : byteOf s'.disk d' k = byteOf s.disk d k := by
  have hneeds : Slot.data (k / BLOCK_SECTOR_SIZE) ∈ Needs cnt := by
    rw [data_mem_needs]
    simp only [BLOCK_SECTOR_SIZE] at hk ⊢
    omega
  rw [byteOf, h.keeps _ hneeds, h.kept _ _ (hm _ hneeds) hne, byteOf]

/-- The bytes after growth: those that were there, and zeros. -/
theorem Consistent.byteOf_grown (h : Consistent s store owner) (hn : store n = some d)
    (hne : n ≠ FREE_MAP_SECTOR)
    (hgrow : Growing n files s d (Needs (sectors d)) owner s' d' (Needs cnt) owner' X)
    (hk : k < BLOCK_SECTOR_SIZE * cnt) :
    byteOf s'.disk d' k = if (k : Int) < length d then byteOf s.disk d k else 0 := by
  by_cases hold : k < BLOCK_SECTOR_SIZE * sectors d
  · rw [hgrow.byteOf_eq hne (h.maps hn) hold]
    split
    · rfl
    · exact h.tail n d hn hne k (by omega) hold
  · have hlen := length_le_sectors (h.nonneg n d hn) (h.cap n d hn)
    have hzero := hgrow.zero hne (k / BLOCK_SECTOR_SIZE)
      (by rw [data_mem_needs]; simp only [BLOCK_SECTOR_SIZE] at hk ⊢; omega)
      (by rw [data_mem_needs]; simp only [BLOCK_SECTOR_SIZE] at hold ⊢; omega)
    rw [byteOf, hzero, if_neg (by omega)]
    rfl

/-- A file grows, and its inode is written to the device. -/
theorem Consistent.grow (h : Consistent s store owner) (hi : s.inode? n = some i)
    (hne : n ≠ FREE_MAP_SECTOR) (hlt : length i.data < len) (hbound : len < 2 ^ 31)
    (hcap : bytesToSectors len ≤ capacity) (hcan : CanAllocate s (slotsNeeded i.data len)) :
    ∃ d' s₁ s₂ owner', inodeExtend i.data len s = .ok (d', true) s₁ ∧
      blockWrite n d' (s₁.setData n d') = .ok () s₂ ∧
      Consistent s₂ (update store n (some d')) owner' ∧ Evolves s s₂ ∧
      s₂.openInodes = (s.setData n d').openInodes ∧ length d' = len ∧ isDir d' = isDir i.data ∧
      contents s₂.disk d' = zeroExtend (contents s.disk i.data) len.toNat ∧
      (∀ m, m ≠ n → view s₂ (update store n (some d')) m = view s store m) ∧
      s₂.freeMap = s₁.freeMap ∧ ∀ k, CanAllocate s (k + slotsNeeded i.data len) ↔ CanAllocate s₁ k := by
  have hn := h.inode hi
  have hnonneg := h.nonneg n _ hn
  have hmono : sectors i.data ≤ bytesToSectors len := by
    have h₁ := bytesToSectors_eq_of_le hnonneg (length_bounds i.data).2 (h.cap n _ hn)
    have h₂ := bytesToSectors_eq_of_le (by omega) hbound hcap
    rw [sectors, h₁, h₂]
    omega
  obtain ⟨e, s₁, owner', hrun, hgrow, hcount⟩ :=
    inodeExtend_true h.owned (filesOf_eq_some hn) len hmono hcap hcan
  have hlength : length (setLength e len) = len := length_setLength e (by omega) hbound
  have hsectors : sectors (setLength e len) = bytesToSectors len := by rw [sectors, hlength]
  have hdir : isDir (setLength e len) = isDir i.data := by
    rw [← hgrow.isDir_eq]
    exact word_setWord_of_disjoint (by omega)
  have hroots := sameRoots_setLength (Needs (bytesToSectors len)) e len
  have hheader : owner' n = some (n, none) := hgrow.mono _ _ (h.header n _ hn)
  have hsize : n < s₁.size := by
    rw [hgrow.size]
    exact h.onDevice hn
  have howned : Owned s₁ (filesOf (update store n (some (setLength e len)))) owner' := by
    have := hgrow.owned.setData hgrow.live hroots
    rw [update_idem] at this
    rw [filesOf_update_some, hsectors]
    exact this
  have hbytes : ∀ k < BLOCK_SECTOR_SIZE * bytesToSectors len,
      byteOf (update s₁.disk n (setLength e len)) (setLength e len) k =
        if (k : Int) < length i.data then byteOf s.disk i.data k else 0 := by
    intro k hk
    rw [byteOf_update_header hheader (hgrow.owned.maps _ _ _ hgrow.live) hroots hk]
    exact h.byteOf_grown hn hne hgrow hk
  have hdisk : Spares owner n s.disk (update s₁.disk n (setLength e len)) := by
    refine hgrow.spares.update (fun r hr => ?_) _
    rw [h.header n _ hn] at hr
    cases hr
    rfl
  have hopen : (s₁.setData n (setLength e len)).openInodes =
      (s.setData n (setLength e len)).openInodes := by
    rw [State.setData, State.updateInode, State.setOpenInodes, hgrow.openInodes]
    rfl
  have howned' := howned.assign hne (setLength e len)
  refine ⟨setLength e len, s₁, _, owner', hrun, blockWrite_eq hsize, ?_, ⟨hgrow.size, hgrow.mallocs, ?_⟩,
    hopen, hlength, hdir, ?_, fun m hm => h.view_replace hdisk hm, rfl, hcount⟩
  · refine h.replace hi (howned'.setDisk fun _ _ _ hp _ => update_header hheader hp) hgrow.mono hopen
      hgrow.freeMapFile hdisk (by omega) (by rw [hsectors]; exact hcap) ?_ ?_
    · simp only [State.setDisk_disk, update_self]
      exact ⟨rfl, rfl, .refl _ _⟩
    · intro _ k hk hkl
      rw [hsectors] at hkl
      exact (hbytes k hkl).trans (if_neg (by omega))
  · intro hok hsync
    have hsync₁ := hgrow.synced hne h.mounted hok hsync
    refine Synced.congr howned' (hsync₁.assign hne _)
      (hgrow.freeMapFile.trans h.mounted) fun _ _ hp => update_header hheader hp
  · apply List.ext_getElem?
    intro k
    by_cases hk : k < len.toNat
    · have hkl : k < BLOCK_SECTOR_SIZE * bytesToSectors len := by
        rw [← hsectors]
        refine lt_sectors (by omega) (by rw [hsectors]; exact hcap) ?_
        omega
      rw [zeroExtend_getElem? _ hk, contents_getElem? (by rw [hlength]; exact hk), contents_length]
      simp only [State.setDisk_disk, State.setData_disk]
      rw [hbytes k hkl]
      by_cases hold : (k : Int) < length i.data
      · have hold' := Int.lt_toNat.mpr hold
        rw [if_pos hold, if_pos hold', contents_getElem? hold']
      · rw [if_neg hold, if_neg fun hc => hold (Int.lt_toNat.mp hc)]
    · have hold : (length i.data).toNat ≤ len.toNat := Int.toNat_le_toNat (Int.le_of_lt hlt)
      rw [List.getElem?_eq_none, List.getElem?_eq_none]
      · rw [zeroExtend, List.length_append, List.length_replicate, contents_length,
          Nat.add_sub_cancel' hold]
        exact Nat.le_of_not_lt hk
      · rw [contents_length, hlength]
        exact Nat.le_of_not_lt hk

theorem view_of_eq (hn : store n = some d) (hne : n ≠ FREE_MAP_SECTOR) :
    view s store n = some ⟨isDir d != 0, contents s.disk d⟩ := by
  rw [view, if_neg hne, hn, Option.map_some]

theorem Consistent.view_inode (h : Consistent s store owner) (hi : s.inode? n = some i)
    (hne : n ≠ FREE_MAP_SECTOR) : view s store n = some ⟨isDir i.data != 0, contents s.disk i.data⟩ :=
  view_of_eq (h.inode hi) hne

/-! ## Writing -/

theorem info_of_openInodes (h : s'.openInodes = s.openInodes) : s'.info = s.info := by
  funext m
  rw [State.info, State.inode?, h, State.info, State.inode?]

theorem CanAllocate.of_freeMap (hok : s'.MallocsSucceed) (hfree : s'.freeMap = s.freeMap)
    (h : CanAllocate s k) : CanAllocate s' k :=
  ⟨hfree ▸ h.1, fun _ _ a ha => hok a (List.mem_of_mem_take ha)⟩

theorem slotsFrom_add (i a b : Nat) : slotsFrom i (a + b) = slotsFrom i a + slotsFrom (i + a) b := by
  induction a generalizing i with
  | zero => simp [slotsFrom]
  | succ a ih =>
    rw [Nat.succ_add, slotsFrom, slotsFrom, ih, Nat.add_assoc, Nat.add_assoc, Nat.add_comm 1 a]

theorem bytesToSectors_mono {x y : Int} (hx : 0 ≤ x) (hxy : x ≤ y) (hy : y ≤ capacityBytes) :
    bytesToSectors x ≤ bytesToSectors y := by
  rw [capacityBytes, capacity_eq] at hy
  simp only [BLOCK_SECTOR_SIZE] at hy
  rw [bytesToSectors_eq hx (by omega), bytesToSectors_eq (by omega) (by omega)]
  omega

theorem slotsNeeded_mono {x y : Int} (hx : 0 ≤ x) (hxy : x ≤ y) (hy : y ≤ capacityBytes) :
    slotsNeeded d x ≤ slotsNeeded d y := by
  have hsectors := bytesToSectors_mono hx hxy hy
  have hiter : iterations (sectors d) (bytesToSectors x - sectors d) ≤
      iterations (sectors d) (bytesToSectors y - sectors d) := by
    simp only [iterations]
    omega
  obtain ⟨c, hc⟩ := Nat.exists_eq_add_of_le hiter
  rw [slotsNeeded, slotsNeeded, hc, slotsFrom_add]
  exact Nat.le_add_right _ _

/-- Growing in two steps takes the same sectors as growing at once. -/
theorem slotsNeeded_add {len' : Int} (hd' : length d' = len)
    (hle : sectors d ≤ bytesToSectors len) (hle' : bytesToSectors len ≤ bytesToSectors len')
    (hcap : bytesToSectors len' ≤ capacity) :
    slotsNeeded d len' = slotsNeeded d' len' + slotsNeeded d len := by
  have hsectors : sectors d' = bytesToSectors len := by rw [sectors, hd']
  have hiter : ∀ {a b : Nat}, b ≤ capacity → iterations a (b - a) = b - a := by
    intro a b hb
    rw [iterations]
    omega
  have hsplit : bytesToSectors len' - sectors d =
      bytesToSectors len - sectors d + (bytesToSectors len' - bytesToSectors len) := by omega
  rw [slotsNeeded, slotsNeeded, slotsNeeded, hsectors, hiter hcap, hiter hcap,
    hiter (hle'.trans hcap), hsplit, slotsFrom_add, Nat.add_sub_cancel' hle, Nat.add_comm]

/-- `inode_write_at` inside the capacity of the inode, with enough free sectors. -/
theorem inodeWriteAt_ok (h : Consistent s store owner) (hi : s.inode? n = some i)
    (hne : n ≠ FREE_MAP_SECTOR) (hdeny : i.denyWriteCnt = 0)
    (hbound : offset + buffer.length < 2 ^ 31)
    (hroom : (offset + buffer.length : Int) ≤ length i.data ∨
      (offset + buffer.length : Int) ≤ capacityBytes ∧
        CanAllocate s (slotsNeeded i.data (offset + buffer.length))) :
    ∃ w s' store' owner', inodeWriteAt n buffer buffer.length offset s = .ok w s' ∧
      Consistent s' store' owner' ∧ Evolves s s' ∧ s'.info = s.info ∧
      (∃ l, l <:+ s.mallocs ∧ w = moved l false buffer.length offset) ∧
      view s' store' = update (view s store) n (some ⟨isDir i.data != 0,
        overwrite (zeroExtend (contents s.disk i.data) (offset + buffer.length)) offset
          (buffer.take w)⟩) ∧
      (s.MallocsSucceed → ∀ len : Int, offset + buffer.length ≤ len → len ≤ capacityBytes →
        CanAllocate s (slotsNeeded i.data len) →
        ∃ i', s'.inode? n = some i' ∧ CanAllocate s' (slotsNeeded i'.data len)) := by
  have hn := h.inode hi
  have htoInt : toInt32 (offset + buffer.length) = offset + buffer.length :=
    toInt32_of_lt (by omega) (by omega)
  rw [inodeWriteAt, bind_ok (getInode_eq hi), if_neg (not_not_intro hdeny)]
  simp only [htoInt]
  by_cases hgrows : length i.data < offset + buffer.length
  · obtain ⟨hcap, hcan⟩ := hroom.resolve_left (by omega)
    have hsectors := bytesToSectors_le_capacity (by omega) (by omega) hcap
    obtain ⟨d', s₁, s₂, owner', hext, hwrite, hcons, hev, hopen, hlen, hdir, hcontents, hothers, hfree,
      hcount⟩ := h.grow hi hne hgrows (by omega) hsectors hcan
    have hin : (offset + buffer.length : Int) ≤ length d' := by rw [hlen]
    obtain ⟨w, s', hrun, hw, hcons', hev', hopen', hfree', hcontents', hothers'⟩ :=
      hcons.writeLoop (update_self _ _ _) hne hin
    refine ⟨w, s', _, owner', ?_, hcons', hev.trans hev', ?_, ⟨_, hev.mallocs, hw⟩, ?_, ?_⟩
    · have hmodify : modifyInode n (fun i => { i with data := d' }) s₁ = .ok () (s₁.setData n d') := rfl
      rw [if_pos hgrows, bind_ok hext, bind_ok hmodify, if_pos rfl, bind_ok hwrite]
      exact hrun
    · rw [info_of_openInodes (hopen'.trans hopen), info_setData]
    · funext m
      by_cases hm : m = n
      · subst hm
        rw [view_of_eq (update_self _ _ _) hne, update_self, hcontents', hcontents,
          hdir]
        rfl
      · rw [hothers' m hm, hothers m hm, update_of_ne hm]
    · -- growing to `len` takes what this write took and the rest
      intro hok len hle hmax hlong
      have hopen'' := hopen'.trans hopen
      have hi' : s'.inode? n = some { i with data := d' } := by
        rw [State.inode?, hopen'', ← State.inode?, State.inode?_setData, hi]
        simp
      refine ⟨_, hi', .of_freeMap ((hev.trans hev').mallocsSucceed hok) (hfree'.trans hfree) ?_⟩
      rw [← hcount, ← slotsNeeded_add hlen (bytesToSectors_mono (h.nonneg n _ hn) hgrows.le hcap)
        (bytesToSectors_mono (by omega) hle hmax) (bytesToSectors_le_capacity (by omega) ?_ hmax)]
      · exact hlong
      · rw [capacityBytes, capacity_eq] at hmax
        simp only [BLOCK_SECTOR_SIZE] at hmax
        omega
  · -- the write stays inside the file
    have hin : (offset + buffer.length : Int) ≤ length i.data := by omega
    obtain ⟨w, s', hrun, hw, hcons', hev', hopen', hfree', hcontents', hothers'⟩ :=
      h.writeLoop hn hne hin
    refine ⟨w, s', store, owner, ?_, hcons', hev', info_of_openInodes hopen',
      ⟨_, List.suffix_rfl, hw⟩, ?_, fun hok len _ _ hlong => ⟨i, ?_, ?_⟩⟩
    · rw [if_neg hgrows]
      exact hrun
    · funext m
      by_cases hm : m = n
      · subst hm
        rw [view_of_eq hn hne, update_self, hcontents', zeroExtend_of_le]
        rw [contents_length]
        omega
      · rw [hothers' m hm, update_of_ne hm]
    · rw [State.inode?, hopen', ← State.inode?, hi]
    · exact .of_freeMap (hev'.mallocsSucceed hok) hfree' hlong

end

end Pintos.Fs
