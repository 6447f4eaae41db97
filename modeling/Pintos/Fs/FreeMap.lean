/-
  Pintos.Fs.FreeMap

  The ownership invariant of the file system and what `free_map_allocate` and
  `free_map_release` do under it.

  Every change of the free map is written to the free map's file at once.  The
  file's sectors of data are the only ones that this touches, so the slots of all
  inodes stay as they are.
-/

import Pintos.Fs.Transfer

namespace Pintos.Fs

open Pintos.Base Pintos.Lib Function

namespace State

variable (s : State)

end State

/-! ## The invariant -/

/-- The live inodes: the contents of the inode and the slots that it owns. -/
abbrev Files := Sector → Option (Memory × Set Slot)

/-- Two inodes that point to the same sectors. -/
def SameRoots (S : Set Slot) (d d' : Memory) : Prop :=
  ∀ σ ∈ S, Slot.parent σ = none → word d σ.pos = word d' σ.pos

theorem SameRoots.refl (S : Set Slot) (d : Memory) : SameRoots S d d := fun _ _ _ => rfl

theorem SameRoots.slotSector {S : Set Slot} {d d' : Memory} (h : SameRoots S d d') (hS : Closed S)
    (disk : Sector → Memory) : ∀ σ ∈ S, slotSector disk d σ = slotSector disk d' σ := by
  intro σ
  induction σ using Slot.parent_induction with
  | step σ ih =>
    intro hσ
    rw [slotSector_eq, slotSector_eq disk d']
    cases hp : σ.parent with
    | none => exact h σ hσ hp
    | some τ =>
      simp only [pointerBlock]
      rw [ih τ hp (hS σ hσ τ hp)]

/-- The file of the free map is open, writable and as long as the free map; `cnt`
    sectors of it are mapped. -/
structure FreeMapFile (s : State) (files : Files) (i : Inode) (cnt : Nat) (d : Memory)
    (S : Set Slot) : Prop where
  inode : s.inode? FREE_MAP_SECTOR = some i
  writable : i.denyWriteCnt = 0
  long : (byteCnt s.freeMap.length : Int) ≤ length i.data
  short : length i.data ≤ BLOCK_SECTOR_SIZE * cnt
  cap : cnt ≤ capacity
  live : files FREE_MAP_SECTOR = some (d, S)
  needs : Needs cnt ⊆ S
  roots : SameRoots (Needs cnt) i.data d

/-- The sectors that the slots of the live inodes point to are used, and each has
    one owner. -/
structure Owned (s : State) (files : Files) (owner : Owner) : Prop where
  len : s.freeMap.length = s.size
  small : s.size ≤ 2 ^ 32
  used : ∀ p r, owner p = some r → s.freeMap[p]? = some true
  closed : ∀ n d S, files n = some (d, S) → Closed S
  maps : ∀ n d S, files n = some (d, S) → Maps s.disk d S owner n
  file : s.freeMapFile = true → ∃ i cnt d S, FreeMapFile s files i cnt d S

/-- No call of `malloc` to come fails. -/
def State.MallocsSucceed (s : State) : Prop := ∀ a ∈ s.mallocs, a = true

/-- The free map's file holds the free map. -/
def Synced (s : State) : Prop :=
  ∀ i, s.inode? FREE_MAP_SECTOR = some i → ∀ k < byteCnt s.freeMap.length,
    byteOf s.disk i.data k = bitmapByte s.freeMap k

section

variable {s s' : State} {files : Files} {owner : Owner}

theorem Owned.onDevice (h : Owned s files owner) : OnDevice owner s.size := by
  intro p r hp
  rw [← h.len]
  exact (List.getElem?_eq_some_iff.mp (h.used p r hp)).1

/-- The sectors of the free map's file. -/
theorem FreeMapFile.maps {i : Inode} {cnt : Nat} {d : Memory} {S : Set Slot}
    (hf : FreeMapFile s files i cnt d S) (h : Owned s files owner) :
    Maps s.disk i.data (Needs cnt) owner FREE_MAP_SECTOR := by
  intro σ hσ
  rw [hf.roots.slotSector (closed_needs cnt) s.disk σ hσ]
  exact h.maps _ _ _ hf.live σ (hf.needs hσ)

/-- The free map's file stays when its inode and its slots do. -/
theorem Owned.file_congr {files' : Files} (h : Owned s files owner)
    (hmounted : s'.freeMapFile = s.freeMapFile)
    (hinode : s'.inode? FREE_MAP_SECTOR = s.inode? FREE_MAP_SECTOR)
    (hlen : s'.freeMap.length = s.freeMap.length)
    (hfiles : files FREE_MAP_SECTOR ≠ none → files' FREE_MAP_SECTOR = files FREE_MAP_SECTOR)
    (hfile : s'.freeMapFile = true) : ∃ i cnt d S, FreeMapFile s' files' i cnt d S := by
  obtain ⟨i, cnt, d, S, hf⟩ := h.file (hmounted.symm.trans hfile)
  exact ⟨i, cnt, d, S, hinode.trans hf.inode, hf.writable, by rw [hlen]; exact hf.long, hf.short,
    hf.cap, (hfiles (by simp [hf.live])).trans hf.live, hf.needs, hf.roots⟩

/-- What is known of a live inode after the inode `n` changed. -/
theorem update_files_cases {n m : Sector} {d d' : Memory} {S S' : Set Slot}
    (h : update files n (some (d, S)) m = some (d', S')) :
    (m = n ∧ d' = d ∧ S' = S) ∨ (m ≠ n ∧ files m = some (d', S')) := by
  by_cases hm : m = n
  · subst hm
    rw [update_self] at h
    cases h
    exact .inl ⟨rfl, rfl, rfl⟩
  · rw [update_of_ne hm] at h
    exact .inr ⟨hm, h⟩

/-- The inode `n` gets the contents `d'` and the slots `S'`: what has to be shown. -/
theorem Owned.put {n : Sector} {d' : Memory} {S' : Set Slot} {owner' : Owner}
    (h : Owned s files owner) (disk' : Sector → Memory)
    (hused : ∀ p r, owner' p = some r → s.freeMap[p]? = some true) (hclosed : Closed S')
    (hmaps : Maps disk' d' S' owner' n)
    (hothers : ∀ m e S, m ≠ n → files m = some (e, S) → Maps disk' e S owner' m)
    (hzero : n = FREE_MAP_SECTOR → ∀ d S, files n = some (d, S) → S ⊆ S' ∧ SameRoots S d d') :
    Owned (s.setDisk disk') (update files n (some (d', S'))) owner' where
  len := h.len
  small := h.small
  used := hused
  closed m e S hm := by
    rcases update_files_cases hm with ⟨-, -, rfl⟩ | ⟨-, hm⟩
    · exact hclosed
    · exact h.closed m e S hm
  maps m e S hm := by
    rcases update_files_cases hm with ⟨rfl, rfl, rfl⟩ | ⟨hne, hm⟩
    · exact hmaps
    · exact hothers m e S hne hm
  file hfile := by
    by_cases hn : n = FREE_MAP_SECTOR
    · subst hn
      obtain ⟨i, cnt, d, S, hf⟩ := h.file hfile
      obtain ⟨hsub, hroots⟩ := hzero rfl d S hf.live
      exact ⟨i, cnt, d', S', hf.inode, hf.writable, hf.long, hf.short, hf.cap,
        update_self .., hf.needs.trans hsub, fun σ hσ hroot =>
          (hf.roots σ hσ hroot).trans (hroots σ (hf.needs hσ) hroot)⟩
    · exact h.file_congr rfl rfl rfl (fun _ => update_of_ne (Ne.symm hn) ..) hfile

theorem Owned.free_of_clear (h : Owned s files owner) {p : Sector}
    (hp : s.freeMap[p]? = some false) : owner p = none := by
  cases ho : owner p with
  | none => rfl
  | some r =>
    rw [h.used p r ho] at hp
    cases hp

/-! ## Changes of the free map -/

/-- What a change of the free map leaves alone. -/
structure FreeMapStep (owner : Owner) (s s' : State) : Prop where
  size : s'.size = s.size
  freeMapFile : s'.freeMapFile = s.freeMapFile
  openInodes : s'.openInodes = s.openInodes
  mallocs : s'.mallocs <:+ s.mallocs
  disk : DataOnly owner FREE_MAP_SECTOR s.disk s'.disk

theorem FreeMapStep.refl (owner : Owner) (s : State) : FreeMapStep owner s s :=
  ⟨rfl, rfl, rfl, List.suffix_rfl, .refl _ _ _⟩

theorem FreeMapStep.inode? (h : FreeMapStep owner s s') (n : Sector) : s'.inode? n = s.inode? n := by
  rw [State.inode?, h.openInodes, State.inode?]

/-- The invariant after a change of the free map that keeps owned sectors used. -/
theorem Owned.freeMapStep (h : Owned s files owner) (hstep : FreeMapStep owner s s')
    (hlen : s'.freeMap.length = s.freeMap.length)
    (hused : ∀ p r, owner p = some r → s'.freeMap[p]? = some true) : Owned s' files owner where
  len := by rw [hlen, h.len, hstep.size]
  small := by rw [hstep.size]; exact h.small
  used := hused
  closed := h.closed
  maps n d S hn :=
    (h.maps n d S hn).congr (h.closed n d S hn) fun _ _ hp => Maps.index_of_dataOnly hstep.disk hp
  file := h.file_congr hstep.freeMapFile (hstep.inode? _) hlen fun _ => rfl

theorem Owned.setFreeMap (h : Owned s files owner) {p : Sector} {b : Bool}
    (hfree : owner p = none) : Owned (s.setFreeMap (s.freeMap.set p b)) files owner := by
  apply h.freeMapStep
  · exact ⟨rfl, rfl, rfl, List.suffix_rfl, .refl _ _ _⟩
  · exact List.length_set
  · intro q r hq
    have hne : p ≠ q := by
      rintro rfl
      rw [hfree] at hq
      cases hq
    simp only [State.setFreeMap_freeMap]
    rw [List.getElem?_set_ne hne]
    exact h.used q r hq

end

/-! ## Writing the free map -/

section Write

variable {s : State} {files : Files} {owner : Owner}

@[simp] theorem bitmapBytes_length (b : List Bool) : (bitmapBytes b).length = byteCnt b.length := by
  simp [bitmapBytes]

theorem bitmapBytes_getElem? {b : List Bool} {k : Nat} (h : k < byteCnt b.length) :
    (bitmapBytes b)[k]? = some (bitmapByte b k) := by
  simp [bitmapBytes, h]

/-- Whether `bitmap_write` of the free map takes a bounce buffer. -/
def State.bounces (s : State) : Bool := Fs.bounces (byteCnt s.freeMap.length) 0

/-- The bounce buffer of the next `bitmap_write`, if it takes one. -/
def State.canWrite (s : State) : Bool := !s.bounces || s.mallocs.headD true

/-- The answers of `malloc` left after a `bitmap_write`. -/
def State.mallocsAfterWrite (s : State) : List Bool := if s.bounces then s.mallocs.tail else s.mallocs

theorem State.MallocsSucceed.canWrite (h : s.MallocsSucceed) : s.canWrite = true := by
  rw [State.canWrite]
  cases hm : s.mallocs with
  | nil => simp
  | cons a rest =>
    rw [h a (by rw [hm]; exact List.mem_cons_self)]
    simp

theorem State.MallocsSucceed.of_suffix {s' : State} (h : s.MallocsSucceed)
    (hs : s'.mallocs <:+ s.mallocs) : s'.MallocsSucceed := fun a ha => h a (hs.subset ha)

theorem mallocsLeft_suffix {mallocs : List Bool} {bounce : Bool} {size offset : Nat} :
    mallocsLeft mallocs bounce size offset <:+ mallocs := by
  rw [mallocsLeft]
  split
  · exact List.suffix_rfl
  · exact List.tail_suffix mallocs

theorem moved_eq_iff (mallocs : List Bool) (size : Nat) :
    (moved mallocs false size 0 == size) = (!bounces size 0 || mallocs.headD true) := by
  simp only [moved, Bool.false_or]
  split
  · rename_i h
    rw [h]
    exact beq_self_eq_true _
  · rename_i h
    simp only [Bool.or_eq_true, not_or, Bool.not_eq_true, Bool.not_eq_eq_eq_not, Bool.not_true,
      Bool.not_eq_false] at h
    rw [h.1, h.2]
    have hb := h.1
    simp only [bounces, BLOCK_SECTOR_SIZE, decide_eq_true_eq] at hb ⊢
    rw [if_pos (by decide)]
    simp only [Bool.not_true, Bool.or_self, beq_eq_false_iff_ne, ne_eq]
    omega

/-- `bitmap_write` of the free map. -/
theorem bitmapWrite_eq (h : Owned s files owner) (hfile : s.freeMapFile = true) :
    ∃ s', bitmapWrite s = .ok s.canWrite s' ∧ FreeMapStep owner s s' ∧
      s'.freeMap = s.freeMap ∧ s'.mallocs = s.mallocsAfterWrite ∧ (s.canWrite = true → Synced s') := by
  obtain ⟨i, cnt, d, S, hf⟩ := h.file hfile
  have hm := hf.maps h
  have havail : avail i.data (bitmapBytes s.freeMap).length 0 = byteCnt s.freeMap.length := by
    have := hf.long
    rw [bitmapBytes_length, avail]
    omega
  obtain ⟨disk', hrun, hwrote⟩ := writeLoop_eq hf.cap hf.short (bitmapBytes s.freeMap).length
    (bitmapBytes s.freeMap) 0 false s hm h.onDevice (Nat.min_le_left _ _)
  rw [havail] at hrun hwrote
  refine ⟨(s.setDisk disk').setMallocs (mallocsLeft s.mallocs false (byteCnt s.freeMap.length) 0),
    ?_, ⟨rfl, rfl, rfl, mallocsLeft_suffix, hwrote.dataOnly⟩, rfl, ?_, ?_⟩
  · have hget : (get : M State) s = .ok s s := rfl
    rw [bitmapWrite, bind_ok hget, if_neg (by simp [hfile])]
    simp only [hf.inode]
    rw [if_neg (by simp [hf.writable]), if_neg (by rw [bitmapBytes_length]; exact not_lt.mpr hf.long),
      bind_ok hrun, bitmapBytes_length, moved_eq_iff]
    rfl
  · simp only [State.setMallocs_mallocs, State.mallocsAfterWrite, State.bounces, mallocsLeft]
    by_cases hb : Fs.bounces (byteCnt s.freeMap.length) 0 = true <;> simp [hb]
  · -- all bytes were written
    intro hcan i' hi' k hk
    cases hf.inode.symm.trans hi'
    have hall := moved_eq_iff s.mallocs (byteCnt s.freeMap.length)
    rw [show (!bounces (byteCnt s.freeMap.length) 0 || s.mallocs.headD true) = true from hcan,
      beq_iff_eq] at hall
    have hlong := hf.long
    have hshort := hf.short
    simp only [State.setMallocs_disk, State.setDisk_disk, State.setMallocs_freeMap,
      State.setDisk_freeMap] at hk ⊢
    rw [hwrote.bytes k (by omega), hall, if_pos (by omega), Nat.sub_zero, bitmapBytes_getElem? hk]
    rfl

/-- Whether the next `n` sectors can be allocated one by one: they are free, and
    there is memory to write the free map after each. -/
def CanAllocate (s : State) (n : Nat) : Prop :=
  n ≤ s.freeMap.count false ∧
    (s.freeMapFile = true → s.bounces = true → ∀ a ∈ s.mallocs.take n, a = true)

instance (s : State) (n : Nat) : Decidable (CanAllocate s n) :=
  inferInstanceAs (Decidable (_ ∧ _))

theorem CanAllocate.mono {m n : Nat} (h : CanAllocate s n) (hmn : m ≤ n) : CanAllocate s m := by
  refine ⟨Nat.le_trans hmn h.1, fun hfile hb a ha => h.2 hfile hb a ?_⟩
  exact List.take_subset_take_left s.mallocs hmn ha

theorem canAllocate_zero (s : State) : CanAllocate s 0 :=
  ⟨Nat.zero_le _, fun _ _ a ha => by simp at ha⟩

theorem canAllocate_one :
    CanAllocate s 1 ↔ 0 < s.freeMap.count false ∧ (s.freeMapFile = true → s.canWrite = true) := by
  rw [CanAllocate, State.canWrite]
  refine and_congr Iff.rfl (forall_congr' fun _ => ?_)
  cases s.bounces with
  | false => simp
  | true => cases hm : s.mallocs <;> simp

theorem count_false_set {b : List Bool} {p : Nat} (h : b[p]? = some false) :
    (b.set p true).count false + 1 = b.count false := by
  obtain ⟨hlt, hp⟩ := List.getElem?_eq_some_iff.mp h
  have hpos : 0 < b.count false := List.count_pos_iff.mpr (hp ▸ List.getElem_mem hlt)
  rw [List.count_set hlt, hp]
  simp only [beq_self_eq_true, if_true]
  rw [if_neg (by decide)]
  omega

theorem count_false_eq_zero {b : List Bool} (h : bitmapScanAndFlip b 0 1 false = none) :
    b.count false = 0 := by
  rw [List.count_eq_zero]
  intro hmem
  obtain ⟨i, hi⟩ := List.getElem?_of_mem hmem
  exact bitmapScanAndFlip_none h i hi

/-- One allocation less. -/
theorem canAllocate_succ {s' : State} (hone : CanAllocate s 1)
    (hcount : s'.freeMap.count false + 1 = s.freeMap.count false)
    (hlen : s'.freeMap.length = s.freeMap.length) (hfile : s'.freeMapFile = s.freeMapFile)
    (hmallocs : s.freeMapFile = true → s'.mallocs = s.mallocsAfterWrite) (n : Nat) :
    CanAllocate s (n + 1) ↔ CanAllocate s' n := by
  have hb : s'.bounces = s.bounces := by rw [State.bounces, hlen, State.bounces]
  rw [CanAllocate, CanAllocate, hfile, hb]
  refine and_congr (by omega) (forall_congr' fun hf => forall_congr' fun hbounce => ?_)
  have hhead := hone.2 hf hbounce
  rw [hmallocs hf, State.mallocsAfterWrite, if_pos hbounce]
  cases hm : s.mallocs with
  | nil => simp
  | cons a rest =>
    rw [hm] at hhead
    have ha : a = true := hhead a (by simp)
    simp [ha]

end Write

/-! ## Allocation and release -/

section Allocate

variable {s : State} {files : Files} {owner : Owner}

/-- The free map with one sector more in use. -/
theorem setFreeMap_clear_set (b : List Bool) {p : Sector} (hp : b[p]? = some false) :
    (b.set p true).set p false = b := by
  rw [List.set_set]
  obtain ⟨hlt, hval⟩ := List.getElem?_eq_some_iff.mp hp
  rw [← hval]
  exact List.set_getElem_self hlt

/-- `free_map_allocate` of one sector succeeds: a free sector is used from now
    on. -/
theorem freeMapAllocate_some (h : Owned s files owner) (hcan : CanAllocate s 1) :
    ∃ p s', freeMapAllocate 1 s = .ok (some p) s' ∧ s.freeMap[p]? = some false ∧
      FreeMapStep owner s s' ∧ s'.freeMap = s.freeMap.set p true ∧
      (s.freeMapFile = true → Synced s') ∧ ∀ n, CanAllocate s (n + 1) ↔ CanAllocate s' n := by
  have hone := canAllocate_one.mp hcan
  have hget : (get : M State) s = .ok s s := rfl
  cases hscan : bitmapScanAndFlip s.freeMap 0 1 false with
  | none =>
    have := count_false_eq_zero hscan
    omega
  | some r =>
    obtain ⟨p, b⟩ := r
    obtain ⟨hclear, rfl⟩ := bitmapScanAndFlip_some hscan
    have hset : (set (s.setFreeMap (s.freeMap.set p true)) : M PUnit) s =
      .ok ⟨⟩ (s.setFreeMap (s.freeMap.set p true)) := rfl
    have hcount : (s.freeMap.set p true).count false + 1 = s.freeMap.count false :=
      count_false_set hclear
    cases hfile : s.freeMapFile with
    | false =>
      refine ⟨p, s.setFreeMap (s.freeMap.set p true), ?_, hclear, ⟨rfl, rfl, rfl, List.suffix_rfl, .refl _ _ _⟩,
        rfl, (fun hf => by cases hf), ?_⟩
      · rw [freeMapAllocate, bind_ok hget, hscan]
        simp only
        rw [bind_ok hset, if_neg (by simp [hfile])]
        rfl
      · apply canAllocate_succ hcan
        · exact hcount
        · exact List.length_set
        · rfl
        · intro hf
          rw [hfile] at hf
          cases hf
    | true =>
      have hbounces : (s.setFreeMap (s.freeMap.set p true)).bounces = s.bounces := by
        simp [State.bounces]
      have hwrite : (s.setFreeMap (s.freeMap.set p true)).canWrite = true := by
        rw [State.canWrite, hbounces]
        exact hone.2 hfile
      obtain ⟨s', hrun, hstep, hmap, hmallocs, hsync⟩ :=
        bitmapWrite_eq (h.setFreeMap (b := true) (h.free_of_clear hclear)) hfile
      rw [hwrite] at hrun
      refine ⟨p, s', ?_, hclear,
        ⟨hstep.size, hstep.freeMapFile, hstep.openInodes, hstep.mallocs, hstep.disk⟩, hmap,
        fun _ => hsync hwrite, ?_⟩
      · rw [freeMapAllocate, bind_ok hget, hscan]
        simp only
        rw [bind_ok hset, if_pos hfile, bind_ok hrun, if_pos rfl]
        rfl
      · apply canAllocate_succ hcan
        · rw [hmap]
          exact hcount
        · rw [hmap]
          exact List.length_set
        · exact hstep.freeMapFile
        · intro _
          rw [hmallocs, State.mallocsAfterWrite, hbounces]
          rfl

/-- `free_map_allocate` of one sector fails: the free map is as before. -/
theorem freeMapAllocate_none (h : Owned s files owner) (hcan : ¬ CanAllocate s 1) :
    ∃ s', freeMapAllocate 1 s = .ok none s' ∧ FreeMapStep owner s s' ∧ s'.freeMap = s.freeMap ∧
      (s.MallocsSucceed → s' = s) := by
  rw [canAllocate_one] at hcan
  have hget : (get : M State) s = .ok s s := rfl
  cases hscan : bitmapScanAndFlip s.freeMap 0 1 false with
  | none =>
    refine ⟨s, ?_, .refl _ _, rfl, fun _ => rfl⟩
    rw [freeMapAllocate, bind_ok hget, hscan]
    rfl
  | some r =>
    obtain ⟨p, b⟩ := r
    obtain ⟨hclear, rfl⟩ := bitmapScanAndFlip_some hscan
    have hcount := count_false_set hclear
    have hset : (set (s.setFreeMap (s.freeMap.set p true)) : M PUnit) s =
      .ok ⟨⟩ (s.setFreeMap (s.freeMap.set p true)) := rfl
    have hfile : s.freeMapFile = true := by
      by_contra hf
      exact hcan ⟨by omega, fun h => absurd h hf⟩
    have hbounces : (s.setFreeMap (s.freeMap.set p true)).bounces = s.bounces := by
      simp [State.bounces]
    have hwrite : (s.setFreeMap (s.freeMap.set p true)).canWrite = false := by
      by_contra hw
      rw [State.canWrite, hbounces, Bool.not_eq_false] at hw
      exact hcan ⟨by omega, fun _ => hw⟩
    obtain ⟨s', hrun, hstep, hmap, -⟩ :=
      bitmapWrite_eq (h.setFreeMap (b := true) (h.free_of_clear hclear)) hfile
    rw [hwrite] at hrun
    refine ⟨s'.setFreeMap s.freeMap, ?_,
      ⟨hstep.size, hstep.freeMapFile, hstep.openInodes, hstep.mallocs, hstep.disk⟩, rfl,
      fun hok => absurd ?_ hcan⟩
    · rw [freeMapAllocate, bind_ok hget, hscan]
      simp only
      rw [bind_ok hset, if_pos hfile, bind_ok hrun, if_neg (by decide)]
      have hmodify : (modify fun s : State =>
            s.setFreeMap (bitmapSetMultiple s.freeMap p 1 false) : M PUnit) s' =
          .ok ⟨⟩ (s'.setFreeMap s.freeMap) := by
        have hback : bitmapSetMultiple s'.freeMap p 1 false = s.freeMap := by
          rw [hmap, bitmapSetMultiple_one]
          exact setFreeMap_clear_set s.freeMap hclear
        rw [← hback]
        rfl
      rw [bind_ok hmodify]
      rfl
    · exact ⟨by omega, fun _ => hok.canWrite⟩

/-- `free_map_release` of one sector. -/
theorem freeMapRelease_eq (h : Owned s files owner) (hfile : s.freeMapFile = true) {p : Sector}
    (hused : s.freeMap[p]? = some true) (hfree : owner p = none) :
    ∃ s', freeMapRelease p 1 s = .ok () s' ∧ FreeMapStep owner s s' ∧
      s'.freeMap = s.freeMap.set p false ∧ (s.canWrite = true → Synced s') := by
  have hget : (get : M State) s = .ok s s := rfl
  have hlt : p < s.freeMap.length := (List.getElem?_eq_some_iff.mp hused).1
  have hset : (set (s.setFreeMap (s.freeMap.set p false)) : M PUnit) s =
    .ok ⟨⟩ (s.setFreeMap (s.freeMap.set p false)) := rfl
  have hcan : (s.setFreeMap (s.freeMap.set p false)).canWrite = s.canWrite := by
    simp [State.canWrite, State.bounces]
  obtain ⟨s', hrun, hstep, hmap, -, hsync⟩ :=
    bitmapWrite_eq (h.setFreeMap (b := false) hfree) hfile
  rw [hcan] at hrun hsync
  refine ⟨s', ?_, ⟨hstep.size, hstep.freeMapFile, hstep.openInodes, hstep.mallocs, hstep.disk⟩, hmap,
    hsync⟩
  rw [freeMapRelease, bind_ok hget, if_pos ⟨hlt, by simp [hused]⟩, bitmapSetMultiple_one,
    bind_ok hset, bind_ok hrun]
  rfl

end Allocate

end Pintos.Fs
