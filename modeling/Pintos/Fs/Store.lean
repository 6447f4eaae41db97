/-
  Pintos.Fs.Store

  The inode layer as a store of files.

  `Consistent` is the invariant of the file system between operations: the sectors
  of the live inodes are owned, an open inode's copy in memory is the current one,
  the device has the same length, type and pointers, and behind the end of a file
  its last sector is zero.  `view` is what the live inodes hold: the type and the
  bytes of each file, without the free map's.
-/

import Pintos.Fs.Deallocate
import Pintos.Fs.OpenInodes

namespace Pintos.Fs

open Pintos.Base Pintos.Lib Function

/-! ## The invariant -/

/-- The live inodes. -/
abbrev Store := Sector → Option Memory

/-- The live inodes with the slots that they need. -/
def filesOf (store : Store) : Files := fun n => (store n).map fun d => (d, Needs (sectors d))

/-- The device's copy `d'` of an inode agrees with the current one. -/
structure OnDisk (d' d : Memory) : Prop where
  length : length d' = length d
  isDir : isDir d' = isDir d
  roots : SameRoots (Needs (sectors d)) d' d

structure Consistent (s : State) (store : Store) (owner : Owner) : Prop where
  owned : Owned s (filesOf store) owner
  mounted : s.freeMapFile = true
  header : ∀ n d, store n = some d → owner n = some (n, none)
  nonneg : ∀ n d, store n = some d → 0 ≤ length d
  cap : ∀ n d, store n = some d → sectors d ≤ capacity
  memory : ∀ i ∈ s.openInodes, store i.sector = some i.data
  nodup : (s.openInodes.map Inode.sector).Nodup
  counted : ∀ i ∈ s.openInodes, 0 < i.openCnt
  onDisk : ∀ n d, store n = some d → OnDisk (s.disk n) d
  closed : ∀ n d, store n = some d → s.inode? n = none → s.disk n = d
  tail : ∀ n d, store n = some d → n ≠ FREE_MAP_SECTOR → ∀ k : Nat, length d ≤ k →
    k < BLOCK_SECTOR_SIZE * sectors d → byteOf s.disk d k = 0

/-! ## Files -/

/-- A file: whether it is a directory, and its bytes. -/
structure File where
  isDir : Bool
  bytes : List UInt8
  deriving DecidableEq, Repr

/-- The bytes of an inode. -/
def contents (disk : Sector → Memory) (d : Memory) : List UInt8 :=
  (List.range (length d).toNat).map (byteOf disk d)

/-- The files of the live inodes. -/
def view (s : State) (store : Store) (n : Sector) : Option File :=
  if n = FREE_MAP_SECTOR then none
  else (store n).map fun d => ⟨isDir d != 0, contents s.disk d⟩

/-- The counters and the flag of an open inode. -/
structure Info where
  openCnt : Nat
  removed : Bool
  denyWriteCnt : Nat
  deriving DecidableEq, Repr

/-- What is known of the open inodes apart from the files. -/
def State.info (s : State) (n : Sector) : Option Info :=
  (s.inode? n).map fun i => ⟨i.openCnt, i.removed, i.denyWriteCnt⟩

section

variable {s s' : State} {store : Store} {owner owner' : Owner} {n m : Sector} {d d' : Memory}
  {i : Inode} {disk disk' : Sector → Memory} {k : Nat}

@[simp] theorem contents_length : (contents disk d).length = (length d).toNat := by
  simp [contents]

theorem contents_getElem? (hk : k < (length d).toNat) : (contents disk d)[k]? = some (byteOf disk d k) := by
  simp [contents, hk]

theorem filesOf_update_some (store : Store) (n : Sector) (d : Memory) :
    filesOf (update store n (some d)) =
      update (filesOf store) n (some (d, Needs (sectors d))) := by
  funext m
  by_cases hm : m = n
  · subst hm
    rw [filesOf, update_self, update_self]
    rfl
  · rw [filesOf, update_of_ne hm, update_of_ne hm, filesOf]

theorem filesOf_update_none (store : Store) (n : Sector) :
    filesOf (update store n none) = update (filesOf store) n none := by
  funext m
  by_cases hm : m = n
  · subst hm
    rw [filesOf, update_self, update_self]
    rfl
  · rw [filesOf, update_of_ne hm, update_of_ne hm, filesOf]

theorem filesOf_eq_some (hn : store n = some d) : filesOf store n = some (d, Needs (sectors d)) := by
  rw [filesOf, hn]
  rfl

theorem filesOf_eq_none (hn : store n = none) : filesOf store n = none := by
  rw [filesOf, hn]
  rfl

theorem of_filesOf_eq_some {S : Set Slot} (h : filesOf store n = some (d, S)) :
    store n = some d ∧ S = Needs (sectors d) := by
  rw [filesOf, Option.map_eq_some_iff] at h
  obtain ⟨e, he, heq⟩ := h
  cases heq
  exact ⟨he, rfl⟩

/-! ## Bytes -/

/-- A byte inside the length is in one of the sectors. -/
theorem lt_sectors (hlen : 0 ≤ length d) (hcap : sectors d ≤ capacity) (hk : (k : Int) < length d) :
    k < BLOCK_SECTOR_SIZE * sectors d := by
  have := length_le_sectors hlen hcap
  omega

/-- Bytes depend on the sectors of the inode only. -/
theorem byteOf_congr {cnt : Nat} (hm : Maps disk d (Needs cnt) owner n)
    (hdisk : ∀ p σ, owner p = some (n, some σ) → disk' p = disk p)
    (hk : k < BLOCK_SECTOR_SIZE * cnt) : byteOf disk' d k = byteOf disk d k := by
  have hneeds : Slot.data (k / BLOCK_SECTOR_SIZE) ∈ Needs cnt := by
    rw [data_mem_needs]
    simp only [BLOCK_SECTOR_SIZE] at hk ⊢
    omega
  rw [byteOf, hm.slotSector_congr (closed_needs cnt) (fun p σ hp _ => hdisk p σ hp) _ hneeds,
    hdisk _ _ (hm _ hneeds), byteOf]

/-- Bytes depend on the pointers of the inode only. -/
theorem byteOf_congr_roots {cnt : Nat} (hroots : SameRoots (Needs cnt) d' d)
    (hk : k < BLOCK_SECTOR_SIZE * cnt) : byteOf disk d' k = byteOf disk d k := by
  have hneeds : Slot.data (k / BLOCK_SECTOR_SIZE) ∈ Needs cnt := by
    rw [data_mem_needs]
    simp only [BLOCK_SECTOR_SIZE] at hk ⊢
    omega
  rw [byteOf, hroots.slotSector (closed_needs cnt) disk _ hneeds, byteOf]

theorem contents_congr (hlen : 0 ≤ length d) (hcap : sectors d ≤ capacity)
    (hlength : length d' = length d)
    (h : ∀ k < BLOCK_SECTOR_SIZE * sectors d, byteOf disk' d' k = byteOf disk d k) :
    contents disk' d' = contents disk d := by
  rw [contents, contents, hlength]
  apply List.map_congr_left
  intro k hk
  rw [List.mem_range] at hk
  exact h k (lt_sectors hlen hcap (by omega))

/-- The sector of an inode is none of its slots. -/
theorem update_header (hheader : owner n = some (n, none)) {p : Sector} {σ : Slot}
    (hp : owner p = some (m, some σ)) : update disk n d p = disk p := by
  refine update_of_ne ?_ _ _
  rintro rfl
  rw [hheader] at hp
  cases hp

/-- The bytes of an inode that is written to its sector. -/
theorem byteOf_update_header {cnt : Nat} (hheader : owner n = some (n, none))
    (hm : Maps disk d (Needs cnt) owner n) (hroots : SameRoots (Needs cnt) d' d)
    (hk : k < BLOCK_SECTOR_SIZE * cnt) :
    byteOf (update disk n d') d' k = byteOf disk d k := by
  rw [byteOf_congr_roots hroots hk, byteOf_congr hm (fun _ _ hp => update_header hheader hp) hk]

/-! ## Live inodes -/

/-- What the invariant says of one live inode. -/
structure Live (s : State) (owner : Owner) (n : Sector) (d : Memory) : Prop where
  header : owner n = some (n, none)
  nonneg : 0 ≤ length d
  cap : sectors d ≤ capacity
  onDisk : OnDisk (s.disk n) d
  closed : s.inode? n = none → s.disk n = d
  tail : n ≠ FREE_MAP_SECTOR → ∀ k : Nat, length d ≤ k → k < BLOCK_SECTOR_SIZE * sectors d →
    byteOf s.disk d k = 0

/-- What it says of the list of open inodes. -/
structure Opened (l : List Inode) (store : Store) : Prop where
  memory : ∀ i ∈ l, store i.sector = some i.data
  nodup : (l.map Inode.sector).Nodup
  counted : ∀ i ∈ l, 0 < i.openCnt

theorem Opened.filter {l : List Inode} (h : Opened l store) (x : Option Memory) :
    Opened (l.filter fun i => i.sector ≠ n) (update store n x) where
  memory j hj := by
    obtain ⟨hj, hjn⟩ := List.mem_filter.mp hj
    rw [update_of_ne (of_decide_eq_true hjn)]
    exact h.memory j hj
  nodup := h.nodup.sublist (List.filter_sublist.map _)
  counted j hj := h.counted j (List.mem_filter.mp hj).1

theorem Opened.setData (h : Opened s.openInodes store) (n : Sector) (d : Memory) :
    Opened (s.setData n d).openInodes (update store n (some d)) where
  memory j hj := by
    obtain ⟨j₀, hj₀, rfl⟩ := State.mem_updateInode hj
    split
    · rename_i hjn
      simp only
      rw [hjn, update_self]
    · rename_i hjn
      rw [update_of_ne hjn]
      exact h.memory j₀ hj₀
  nodup := by
    rw [s.sectors_setData]
    exact h.nodup
  counted j hj := by
    obtain ⟨j₀, hj₀, rfl⟩ := State.mem_updateInode hj
    split <;> exact h.counted j₀ hj₀

theorem Opened.insert {l : List Inode} (h : Opened l store) (hn : store n = none) (x : Option Memory) :
    Opened l (update store n x) where
  memory j hj := by
    have hj' := h.memory j hj
    rw [update_of_ne]
    · exact hj'
    · intro heq
      rw [heq, hn] at hj'
      cases hj'
  nodup := h.nodup
  counted := h.counted

namespace Consistent

section

variable (h : Consistent s store owner)

include h

theorem live (hn : store n = some d) : Live s owner n d :=
  ⟨h.header n d hn, h.nonneg n d hn, h.cap n d hn, h.onDisk n d hn, h.closed n d hn, h.tail n d hn⟩

theorem opened : Opened s.openInodes store :=
  ⟨h.memory, h.nodup, h.counted⟩

theorem maps (hn : store n = some d) :
    Maps s.disk d (Needs (sectors d)) owner n := h.owned.maps _ _ _ (filesOf_eq_some hn)

/-- The copy in memory of an open inode is the current one. -/
theorem inode (hi : s.inode? n = some i) : store n = some i.data := by
  rw [← State.sector_of_inode? hi]
  exact h.memory i (List.mem_of_find?_eq_some hi)

theorem onDevice (hn : store n = some d) : n < s.size :=
  h.owned.onDevice _ _ (h.header n d hn)

theorem freeMap_inode :
    ∃ i, s.inode? FREE_MAP_SECTOR = some i := by
  obtain ⟨i, cnt, e, S, hf⟩ := h.owned.file h.mounted
  exact ⟨i, hf.inode⟩

end

end Consistent

/-! ## Writes to data -/

/-- Of the sectors that have an owner only data of the free map's file and of the
    inode `n` is written. -/
def DataWrites (owner : Owner) (n : Sector) (disk disk' : Sector → Memory) : Prop :=
  ∀ p r, owner p = some r → (∀ j, r ≠ (FREE_MAP_SECTOR, some (.data j))) →
    (∀ j, r ≠ (n, some (.data j))) → disk' p = disk p

theorem DataOnly.writes (h : DataOnly owner n disk disk') : DataWrites owner n disk disk' := by
  intro p r hp _ hn
  refine h p fun j hj => ?_
  rw [hp] at hj
  exact hn j (Option.some.inj hj)

/-- Of the sectors of other inodes than `n` only data of the free map's file is
    written. -/
def Spares (owner : Owner) (n : Sector) (disk disk' : Sector → Memory) : Prop :=
  ∀ p r, owner p = some r → r.1 ≠ n → (∀ j, r ≠ (FREE_MAP_SECTOR, some (.data j))) →
    disk' p = disk p

theorem DataWrites.spares (h : DataWrites owner n disk disk') : Spares owner n disk disk' := by
  intro p r hp hr hf
  refine h p r hp hf fun j hj => hr ?_
  rw [hj]

theorem Spares.header (h : Spares owner n disk disk') (hmn : m ≠ n) {p : Sector}
    (hp : owner p = some (m, none)) : disk' p = disk p :=
  h p _ hp hmn nofun

/-- The bytes of the other files are not touched. -/
theorem Spares.byteOf {cnt : Nat} (h : Spares owner n disk disk')
    (hm : Maps disk d (Needs cnt) owner m) (hmn : m ≠ n) (hf : m ≠ FREE_MAP_SECTOR)
    (hk : k < BLOCK_SECTOR_SIZE * cnt) : byteOf disk' d k = byteOf disk d k := by
  refine byteOf_congr hm (fun p σ hp => h p _ hp hmn ?_) hk
  intro j hj
  cases hj
  exact hf rfl

/-- The other files keep their bytes. -/
theorem Consistent.view_spares (h : Consistent s store owner) (hdisk : Spares owner n s.disk s'.disk)
    (hmn : m ≠ n) : view s' store m = view s store m := by
  rw [view, view]
  split
  · rfl
  · rename_i hne
    cases hm : store m with
    | none => rw [Option.map_none, Option.map_none]
    | some e =>
      have hbytes : ∀ k < BLOCK_SECTOR_SIZE * sectors e, byteOf s'.disk e k = byteOf s.disk e k := by
        intro k hk
        exact hdisk.byteOf (h.maps hm) hmn hne hk
      rw [Option.map_some, Option.map_some, contents_congr (h.nonneg m e hm) (h.cap m e hm) rfl hbytes]

/-- An inode is written to its sector. -/
theorem Spares.update (h : Spares owner n disk disk') (hn : ∀ r, owner n = some r → r.1 = n)
    (d : Memory) : Spares owner n disk (update disk' n d) := by
  intro p r hp hr hf
  refine (update_of_ne ?_ _ _).trans (h p r hp hr hf)
  rintro rfl
  exact hr (hn r hp)

/-- Sectors of inodes and index blocks are not touched. -/
theorem DataWrites.header (h : DataWrites owner n disk disk') {p : Sector}
    (hp : owner p = some (m, none)) : disk' p = disk p :=
  h p _ hp nofun nofun

namespace Consistent

/-- Nothing changes but what concerns the inode `n`: what has to be shown. -/
theorem step {store' : Store} (h : Consistent s store owner)
    (howned : Owned s' (filesOf store') owner') (hfile : s'.freeMapFile = s.freeMapFile)
    (hopened : Opened s'.openInodes store')
    (hopen : ∀ m, m ≠ n → s'.inode? m = none → s.inode? m = none)
    (hkeep : ∀ p m σ, m ≠ n → owner p = some (m, σ) → owner' p = some (m, σ))
    (hdisk : Spares owner n s.disk s'.disk) (hstore : ∀ m, m ≠ n → store' m = store m)
    (hlive : ∀ d, store' n = some d → Live s' owner' n d) : Consistent s' store' owner' := by
  have hall : ∀ m e, store' m = some e → Live s' owner' m e := by
    intro m e hm
    by_cases hmn : m = n
    · subst hmn
      exact hlive e hm
    · rw [hstore m hmn] at hm
      have hold := h.live hm
      have hsame := hdisk.header hmn hold.header
      exact {
        header := hkeep m m none hmn hold.header
        nonneg := hold.nonneg
        cap := hold.cap
        onDisk := by
          rw [hsame]
          exact hold.onDisk
        closed := fun hnone => hsame.trans (hold.closed (hopen m hmn hnone))
        tail := fun hm₀ k hk hkl =>
          (hdisk.byteOf (h.maps hm) hmn hm₀ hkl).trans (hold.tail hm₀ k hk hkl) }
  exact ⟨howned, hfile.trans h.mounted, fun m e hm => (hall m e hm).header,
    fun m e hm => (hall m e hm).nonneg, fun m e hm => (hall m e hm).cap, hopened.memory, hopened.nodup,
    hopened.counted, fun m e hm => (hall m e hm).onDisk, fun m e hm => (hall m e hm).closed,
    fun m e hm => (hall m e hm).tail⟩

/-- The invariant after writes to the data of the inode `n`. -/
theorem dataWrites (h : Consistent s store owner) (howned : Owned s' (filesOf store) owner')
    (hmono : ∀ p r, owner p = some r → owner' p = some r) (hopen : s'.openInodes = s.openInodes)
    (hfile : s'.freeMapFile = s.freeMapFile) (hdisk : DataWrites owner n s.disk s'.disk)
    (htail : ∀ d, store n = some d → n ≠ FREE_MAP_SECTOR → ∀ k : Nat, length d ≤ k →
      k < BLOCK_SECTOR_SIZE * sectors d → byteOf s'.disk d k = 0) : Consistent s' store owner' := by
  refine h.step (n := n) howned hfile (hopen ▸ h.opened) (fun m _ hm => ?_) (fun p m σ _ => hmono p _)
    hdisk.spares (fun _ _ => rfl) fun d hd => ?_
  · rw [State.inode?, hopen] at hm
    exact hm
  · have hold := h.live hd
    have hsame := hdisk.header hold.header
    refine ⟨hmono _ _ hold.header, hold.nonneg, hold.cap, ?_, fun hnone => ?_, htail d hd⟩
    · rw [hsame]
      exact hold.onDisk
    · rw [State.inode?, hopen] at hnone
      exact hsame.trans (hold.closed hnone)

end Consistent

end

end Pintos.Fs
