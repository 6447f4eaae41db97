/-
  Pintos.Fs.Mounted

  A mounted file system and the inodes on it, said without owners: the free map's
  file is open and its sectors are marked used, and so are the sectors of an
  inode, apart from those of the free map's file.

  The ownership invariant follows from that, and gives it back.
-/

import Pintos.Fs.FreeMap

namespace Pintos.Fs

open Pintos.Base Pintos.Lib Function

variable {x : Int} {disk : Sector → Memory} {S : Set Slot}

/-! ## Lengths -/

/-- The sectors of an inode. -/
def sectors (d : Memory) : Nat := bytesToSectors (length d)

theorem toInt32_of_lt (h : -(2 ^ 31) ≤ x) (h' : x < 2 ^ 31) : toInt32 x = x := by
  rw [toInt32, Int.bmod_eq_of_le] <;> omega

theorem toInt32_bounds (x : Int) : -(2 ^ 31) ≤ toInt32 x ∧ toInt32 x < 2 ^ 31 := by
  have h₁ := Int.le_bmod (x := x) (m := 2 ^ 32) (by decide)
  have h₂ := Int.bmod_lt (x := x) (m := 2 ^ 32) (by decide)
  rw [toInt32]
  omega

theorem length_bounds (d : Memory) : -(2 ^ 31) ≤ length d ∧ length d < 2 ^ 31 := toInt32_bounds _

/-- `bytes_to_sectors` where the sum does not overflow. -/
theorem bytesToSectors_eq (h : 0 ≤ x) (h' : x + 511 < 2 ^ 31) :
    bytesToSectors x = (x.toNat + 511) / 512 := by
  have hsum : x + (BLOCK_SECTOR_SIZE : Int) - 1 = x + 511 := by
    simp only [BLOCK_SECTOR_SIZE]
    omega
  rw [bytesToSectors, hsum, toInt32_of_lt (by omega) h', Int.tdiv_eq_ediv_of_nonneg (by omega)]
  simp only [BLOCK_SECTOR_SIZE]
  omega

/-- The sum that overflows makes more sectors than an inode can have. -/
theorem capacity_lt_bytesToSectors (h : 2 ^ 31 ≤ x + 511) (h' : x < 2 ^ 31) :
    capacity < bytesToSectors x := by
  have hsum : x + (BLOCK_SECTOR_SIZE : Int) - 1 = x + 511 := by
    simp only [BLOCK_SECTOR_SIZE]
    omega
  have hwrap : toInt32 (x + 511) = -(2 ^ 32 - 511 - x) := by
    rw [toInt32, Int.bmod_def]
    split <;> omega
  rw [capacity_eq, bytesToSectors, hsum, hwrap, Int.neg_tdiv, Int.tdiv_eq_ediv_of_nonneg (by omega)]
  simp only [BLOCK_SECTOR_SIZE]
  omega

/-- The sectors of a length inside the capacity. -/
theorem bytesToSectors_eq_of_le (h : 0 ≤ x) (h' : x < 2 ^ 31)
    (hcap : bytesToSectors x ≤ capacity) : bytesToSectors x = (x.toNat + 511) / 512 := by
  apply bytesToSectors_eq h
  by_contra hge
  have := capacity_lt_bytesToSectors (by omega) h'
  omega

/-- The sectors of an inode hold its bytes. -/
theorem length_le_sectors {d : Memory} (h : 0 ≤ length d) (hcap : sectors d ≤ capacity) :
    length d ≤ BLOCK_SECTOR_SIZE * sectors d := by
  have heq := bytesToSectors_eq_of_le h (length_bounds d).2 hcap
  simp only [BLOCK_SECTOR_SIZE, sectors] at *
  omega

theorem length_setLength (d : Memory) (h : -(2 ^ 31) ≤ x) (h' : x < 2 ^ 31) :
    length (setLength d x) = x := by
  have hword : word (setLength d x) 0 = (x % 2 ^ 32).toNat := word_setWord_self (by omega)
  rw [length, hword, toInt32, Int.bmod_def]
  split <;> omega

/-! ## Mounted file systems -/

/-- A mounted file system: `free_map_file` is a file on the inode `i`, it is as
    long as the free map, and its sectors are different and marked used. -/
structure Mounted (s : State) (i : Inode) : Prop where
  file : s.freeMapFile = true
  len : s.freeMap.length = s.size
  small : s.size ≤ 2 ^ 32
  inode : s.inode? FREE_MAP_SECTOR = some i
  writable : i.denyWriteCnt = 0
  long : (byteCnt s.freeMap.length : Int) ≤ length i.data
  cap : sectors i.data ≤ capacity
  used : ∀ σ ∈ Needs (sectors i.data), s.freeMap[slotSector s.disk i.data σ]? = some true
  inj : ∀ σ ∈ Needs (sectors i.data), ∀ τ ∈ Needs (sectors i.data),
    slotSector s.disk i.data σ = slotSector s.disk i.data τ → σ = τ

/-- The inode `d` is on the file system: its sectors are different and marked used,
    and the free map's file does not have them. -/
structure Resident (s : State) (i : Inode) (d : Memory) : Prop where
  nonneg : 0 ≤ length d
  cap : sectors d ≤ capacity
  used : ∀ σ ∈ Needs (sectors d), s.freeMap[slotSector s.disk d σ]? = some true
  inj : ∀ σ ∈ Needs (sectors d), ∀ τ ∈ Needs (sectors d),
    slotSector s.disk d σ = slotSector s.disk d τ → σ = τ
  apart : ∀ σ ∈ Needs (sectors d), ∀ τ ∈ Needs (sectors i.data),
    slotSector s.disk d σ ≠ slotSector s.disk i.data τ

/-- An empty inode is on every file system. -/
theorem resident_of_length_zero {s : State} (i : Inode) {d : Memory} (hlen : length d = 0) :
    Resident s i d := by
  have h : sectors d = 0 := by
    rw [sectors, hlen]
    decide
  have hempty : ∀ σ, σ ∉ Needs (sectors d) := by
    intro σ hσ
    rw [h] at hσ
    cases σ <;> simp at hσ
  exact {
    nonneg := by rw [hlen]
    cap := by rw [h]; exact Nat.zero_le _
    used := fun σ hσ => absurd hσ (hempty σ)
    inj := fun σ hσ => absurd hσ (hempty σ)
    apart := fun σ hσ => absurd hσ (hempty σ) }

section

variable {s : State} {i : Inode} {d : Memory} {n : Sector} {files : Files} {owner : Owner}

/-- The slots `S` of `d` get the inode number `n`; other sectors keep their owner. -/
noncomputable def withSlots (owner : Owner) (disk : Sector → Memory) (d : Memory) (S : Set Slot)
    (n : Sector) : Owner := fun p =>
  open Classical in
  if h : ∃ σ ∈ S, slotSector disk d σ = p then some (n, some h.choose) else owner p

theorem withSlots_of_mem
    (hinj : ∀ σ ∈ S, ∀ τ ∈ S, slotSector disk d σ = slotSector disk d τ → σ = τ) :
    Maps disk d S (withSlots owner disk d S n) n := by
  intro σ hσ
  have hex : ∃ τ ∈ S, slotSector disk d τ = slotSector disk d σ := ⟨σ, hσ, rfl⟩
  rw [withSlots, dif_pos hex, hinj _ hex.choose_spec.1 _ hσ hex.choose_spec.2]

theorem withSlots_of_not_mem {p : Sector}
    (h : ∀ σ ∈ S, slotSector disk d σ ≠ p) : withSlots owner disk d S n p = owner p := by
  rw [withSlots, dif_neg]
  rintro ⟨σ, hσ, heq⟩
  exact h σ hσ heq

theorem withSlots_eq_some {p : Sector}
    {r : Sector × Option Slot} (h : withSlots owner disk d S n p = some r) :
    (∃ σ ∈ S, slotSector disk d σ = p) ∨ owner p = some r := by
  by_cases hex : ∃ σ ∈ S, slotSector disk d σ = p
  · exact .inl hex
  · rw [withSlots, dif_neg hex] at h
    exact .inr h

theorem Mounted.short (h : Mounted s i) :
    length i.data ≤ BLOCK_SECTOR_SIZE * sectors i.data :=
  length_le_sectors (Int.le_trans (Int.natCast_nonneg _) h.long) h.cap

/-- The ownership invariant with the free map's file as the only inode. -/
theorem Mounted.owned (h : Mounted s i) :
    Owned s (fun m => if m = FREE_MAP_SECTOR then some (i.data, Needs (sectors i.data)) else none)
      (withSlots (fun _ => none) s.disk i.data (Needs (sectors i.data)) FREE_MAP_SECTOR) where
  len := h.len
  small := h.small
  used p r hp := by
    rcases withSlots_eq_some hp with ⟨σ, hσ, rfl⟩ | hnone
    · exact h.used σ hσ
    · cases hnone
  closed m e S hm := by
    split at hm
    · cases hm
      exact closed_needs _
    · cases hm
  maps m e S hm := by
    split at hm
    · rename_i hzero
      cases hm
      subst hzero
      exact withSlots_of_mem h.inj
    · cases hm
  file _ := ⟨i, sectors i.data, i.data, Needs (sectors i.data), h.inode, h.writable, h.long, h.short,
    h.cap, if_pos rfl, fun _ hσ => hσ, .refl _ _⟩

/-- One more inode, under the number 1. -/
theorem Owned.resident (h : Owned s files owner) (hn : files n = none)
    (hused : ∀ σ ∈ Needs (sectors d), s.freeMap[slotSector s.disk d σ]? = some true)
    (hinj : ∀ σ ∈ Needs (sectors d), ∀ τ ∈ Needs (sectors d),
      slotSector s.disk d σ = slotSector s.disk d τ → σ = τ)
    (hfree : ∀ m e S, files m = some (e, S) → ∀ σ ∈ Needs (sectors d), ∀ τ ∈ S,
      slotSector s.disk d σ ≠ slotSector s.disk e τ) :
    Owned s (update files n (some (d, Needs (sectors d))))
      (withSlots owner s.disk d (Needs (sectors d)) n) := by
  refine h.put s.disk (fun p r hp => ?_) (closed_needs _) (withSlots_of_mem hinj)
    (fun m e S _ hm τ hτ => ?_) fun _ e S he => ?_
  · rcases withSlots_eq_some hp with ⟨σ, hσ, rfl⟩ | hold
    · exact hused σ hσ
    · exact h.used p r hold
  · rw [withSlots_of_not_mem fun σ hσ => hfree m e S hm σ hσ τ hτ]
    exact h.maps m e S hm τ hτ
  · rw [hn] at he
    cases he

/-- The ownership invariant with an inode of a mounted file system, under the
    number 1. -/
theorem Mounted.exists_owned (h : Mounted s i) (hr : Resident s i d) :
    ∃ files owner, Owned s files owner ∧ files 1 = some (d, Needs (sectors d)) := by
  refine ⟨_, _, h.owned.resident (n := 1) (if_neg (by decide)) hr.used hr.inj ?_,
    update_self _ _ _⟩
  intro m e S hm σ hσ τ hτ
  split at hm
  · cases hm
    exact hr.apart σ hσ τ hτ
  · cases hm

section

variable (h : Owned s files owner)

include h

/-- An inode is not live any more. -/
theorem Owned.drop (hn : n ≠ FREE_MAP_SECTOR) :
    Owned s (update files n none) owner := by
  have hold : ∀ m r, update files n none m = some r → files m = some r := by
    intro m r hm
    by_cases hmn : m = n
    · rw [hmn, update_self] at hm
      cases hm
    · rw [update_of_ne hmn] at hm
      exact hm
  exact {
    len := h.len
    small := h.small
    used := h.used
    closed := fun m e S hm => h.closed m e S (hold m _ hm)
    maps := fun m e S hm => h.maps m e S (hold m _ hm)
    file := h.file_congr rfl rfl rfl fun _ => update_of_ne (Ne.symm hn) .. }

/-- The fields of an inode other than its pointers change. -/
theorem Owned.setData {e : Memory} (hn : files n = some (d, S)) (he : SameRoots S e d) :
    Owned s (update files n (some (e, S))) owner := by
  refine h.put s.disk h.used (h.closed _ _ _ hn) (fun σ hσ => ?_)
    (fun m e' S' _ => h.maps m e' S') fun _ d' S' hd' => ?_
  · rw [he.slotSector (h.closed _ _ _ hn) s.disk σ hσ]
    exact h.maps _ _ _ hn σ hσ
  · cases hn.symm.trans hd'
    exact ⟨fun _ => id, fun σ hσ hroot => (he σ hσ hroot).symm⟩

/-- The sectors of the free map's file under the ownership invariant. -/
theorem Owned.freeMap_maps (hfile : s.freeMapFile = true) (hi : s.inode? FREE_MAP_SECTOR = some i) :
    sectors i.data ≤ capacity ∧ Maps s.disk i.data (Needs (sectors i.data)) owner FREE_MAP_SECTOR := by
  obtain ⟨j, cnt, e, S, hf⟩ := h.file hfile
  cases hf.inode.symm.trans hi
  have hlen : 0 ≤ length i.data := Int.le_trans (Int.natCast_nonneg _) hf.long
  have hshort := hf.short
  have hcapacity := hf.cap
  simp only [BLOCK_SECTOR_SIZE] at hshort
  have hsectors : sectors i.data ≤ cnt := by
    rw [capacity_eq] at hcapacity
    rw [sectors, bytesToSectors_eq hlen (by omega)]
    omega
  exact ⟨Nat.le_trans hsectors hcapacity, (hf.maps h).mono (needs_mono hsectors)⟩

/-- The ownership invariant says that the file system is mounted. -/
theorem Owned.mounted (hfile : s.freeMapFile = true) :
    ∃ i, Mounted s i := by
  obtain ⟨i, cnt, e, S, hf⟩ := h.file hfile
  obtain ⟨hcap, hmaps⟩ := h.freeMap_maps hfile hf.inode
  exact ⟨i, {
    file := hfile
    len := h.len
    small := h.small
    inode := hf.inode
    writable := hf.writable
    long := hf.long
    cap := hcap
    used := fun σ hσ => h.used _ _ (hmaps σ hσ)
    inj := fun σ hσ τ hτ heq => hmaps.injOn hσ hτ heq }⟩

/-- The live inodes are on the file system. -/
theorem Owned.isResident (hm : Mounted s i) (hlen : 0 ≤ length d)
    (hcap : sectors d ≤ capacity) (hn : files n = some (d, Needs (sectors d)))
    (hne : n ≠ FREE_MAP_SECTOR) : Resident s i d where
  nonneg := hlen
  cap := hcap
  used σ hσ := h.used _ _ (h.maps _ _ _ hn σ hσ)
  inj σ hσ τ hτ heq := (h.maps _ _ _ hn).injOn hσ hτ heq
  apart := by
    intro σ hσ τ hτ heq
    have hσo := h.maps _ _ _ hn σ hσ
    rw [heq, (h.freeMap_maps hm.file hm.inode).2 τ hτ] at hσo
    cases hσo
    exact hne rfl

end

end

end Pintos.Fs
