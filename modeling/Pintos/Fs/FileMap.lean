/-
  Pintos.Fs.FileMap

  The inode layer seen from above: the state represents a map from the sectors of
  the live inodes to files, and each operation changes that map and the counters of
  the open inodes in one way.

  The invariant of the inode layer (`Consistent`), with its store of inodes and its
  owners of sectors, stays inside `Represents`.
-/

import Pintos.Fs.Lifetime

namespace Pintos.Fs

open Pintos.Base Pintos.Lib Function

variable {offset : Nat}

/-- The counters of an inode after one of its openers closed it. -/
def Info.closed (k : Info) : Option Info :=
  if k.openCnt = 1 then none else some { k with openCnt := k.openCnt - 1 }

/-- The inode `n` can have the length `len` in a file of its size: that is inside the
    capacity of an inode, and the sectors that it needs can be allocated. -/
def HasRoom (s : State) (n : Sector) (len : Nat) : Prop :=
  len ≤ capacityBytes ∧ ∃ i, s.inode? n = some i ∧ CanAllocate s (slotsNeeded i.data len)

section

variable {s s' : State} {F : FileMap} {n m : Sector} {f : File} {k : Info} {l : List Bool}

/-! ## What is represented -/

theorem exists_inode_of_info (hk : s.info n = some k) : ∃ i, s.inode? n = some i ∧
    i.openCnt = k.openCnt ∧ i.removed = k.removed ∧ i.denyWriteCnt = k.denyWriteCnt := by
  rw [State.info, Option.map_eq_some_iff] at hk
  obtain ⟨i, hi, rfl⟩ := hk
  exact ⟨i, hi, rfl, rfl, rfl⟩

theorem HasRoom.mono {len len' : Nat} (h : HasRoom s n len) (hle : len' ≤ len) : HasRoom s n len' := by
  obtain ⟨hcap, i, hi, hcan⟩ := h
  refine ⟨le_trans (by exact_mod_cast hle) hcap, i, hi, hcan.mono ?_⟩
  exact slotsNeeded_mono (by omega) (by exact_mod_cast hle) hcap

namespace Represents

section

variable (h : Represents s F)

include h

theorem ne_freeMap (hF : F n = some f) : n ≠ FREE_MAP_SECTOR := by
  obtain ⟨store, owner, -, rfl⟩ := h
  rintro rfl
  rw [view, if_pos rfl] at hF
  cases hF

/-- An open inode holds the file of its sector. -/
theorem file (hF : F n = some f) {i : Inode} (hi : s.inode? n = some i) :
    f = ⟨isDir i.data != 0, contents s.disk i.data⟩ := by
  have hne := h.ne_freeMap hF
  obtain ⟨store, owner, hc, rfl⟩ := h
  rw [hc.view_inode hi hne] at hF
  exact (Option.some.inj hF).symm

theorem length_file (hF : F n = some f) {i : Inode}
    (hi : s.inode? n = some i) : length i.data = f.bytes.length := by
  have hf := h.file hF hi
  obtain ⟨store, owner, hc, -⟩ := h
  have hlen := hc.nonneg _ _ (hc.inode hi)
  rw [hf]
  rw [contents_length]
  exact (Int.toNat_of_nonneg hlen).symm

theorem length_le (hF : F n = some f) (hk : s.info n = some k) :
    (f.bytes.length : Int) ≤ capacityBytes := by
  obtain ⟨i, hi, -⟩ := exists_inode_of_info hk
  rw [← h.length_file hF hi]
  obtain ⟨store, owner, hc, -⟩ := h
  exact length_le_capacityBytes (hc.nonneg _ _ (hc.inode hi)) (hc.cap _ _ (hc.inode hi))

theorem openCnt_pos (hk : s.info n = some k) : 0 < k.openCnt := by
  obtain ⟨store, owner, hc, -⟩ := h
  obtain ⟨i, hi, hcnt, -⟩ := exists_inode_of_info hk
  rw [← hcnt]
  exact hc.counted i (List.mem_of_find?_eq_some hi)

theorem setMallocs (l : List Bool) : Represents (s.setMallocs l) F := by
  obtain ⟨store, owner, hc, hv⟩ := h
  exact ⟨store, owner, hc.setMallocs l, hv⟩

/-! ## Reading and writing -/

/-- A read returns the bytes that there are. -/
theorem read (hok : s.MallocsSucceed) (hF : F n = some f)
    (hk : s.info n = some k) (size offset : Nat) :
    ∃ l, inodeReadAt n size offset s = .ok ((f.bytes.drop offset).take size) (s.setMallocs l) ∧
      l <:+ s.mallocs := by
  obtain ⟨i, hi, -⟩ := exists_inode_of_info hk
  have hf := h.file hF hi
  obtain ⟨store, owner, hc, -⟩ := h
  obtain ⟨l, hrun, hl⟩ := inodeReadAt_eq hc hi size offset
  refine ⟨l, ?_, hl⟩
  rw [hrun, moved_of_mallocsSucceed hok, take_avail, hf]

/-- A write that finds room. -/
theorem write (hok : s.MallocsSucceed) (hF : F n = some f)
    (hk : s.info n = some k) (hdeny : k.denyWriteCnt = 0) (buffer : List UInt8)
    (hbound : offset + buffer.length < 2 ^ 31)
    (hroom : offset + buffer.length ≤ f.bytes.length ∨ HasRoom s n (offset + buffer.length)) :
    ∃ s', inodeWriteAt n buffer buffer.length offset s = .ok buffer.length s' ∧
      Represents s' (update F n (some ⟨f.isDir,
        overwrite (zeroExtend f.bytes (offset + buffer.length)) offset buffer⟩)) ∧
      Evolves s s' ∧ s'.info = s.info ∧
      ∀ len, offset + buffer.length ≤ len → HasRoom s n len → HasRoom s' n len := by
  obtain ⟨i, hi, -, -, hdenyi⟩ := exists_inode_of_info hk
  have hne := h.ne_freeMap hF
  have hf := h.file hF hi
  have hlen := h.length_file hF hi
  have hroom' : (offset + buffer.length : Int) ≤ length i.data ∨
      (offset + buffer.length : Int) ≤ capacityBytes ∧
        CanAllocate s (slotsNeeded i.data (offset + buffer.length)) := by
    rcases hroom with hin | ⟨hcap, i', hi', hcan⟩
    · left
      rw [hlen]
      exact_mod_cast hin
    · right
      rw [hi] at hi'
      cases hi'
      exact ⟨by exact_mod_cast hcap, by exact_mod_cast hcan⟩
  obtain ⟨store, owner, hc, rfl⟩ := h
  obtain ⟨w, s', store', owner', hrun, hc', hev, hinfo, ⟨l, hl, hw⟩, hv, hmore⟩ :=
    inodeWriteAt_ok hc hi hne (hdenyi.trans hdeny) hbound hroom'
  have hall : w = buffer.length := by
    rw [hw]
    exact moved_granted (State.MallocsSucceed.head (s := s.setMallocs l) (hok.of_suffix hl))
  subst hall
  refine ⟨s', hrun, ⟨store', owner', hc', ?_⟩, hev, hinfo, ?_⟩
  · rw [hv, List.take_length, hf]
  · rintro len hle ⟨hcap, i', hi', hcan⟩
    cases hi.symm.trans hi'
    exact ⟨hcap, hmore hok len (by exact_mod_cast hle) (by exact_mod_cast hcap) hcan⟩

/-- A write that would need sectors that cannot be allocated. -/
theorem write_full (hF : F n = some f) (hk : s.info n = some k)
    {buffer : List UInt8} (hbound : offset + buffer.length < 2 ^ 31)
    (hgrows : f.bytes.length < offset + buffer.length)
    (hcan : ∀ i, s.inode? n = some i →
      ¬ CanAllocate s (slotsNeeded i.data ((offset + buffer.length : Nat) : Int))) :
    ∃ s', inodeWriteAt n buffer buffer.length offset s = .ok 0 s' ∧ Becomes s s' F s.info := by
  obtain ⟨i, hi, -⟩ := exists_inode_of_info hk
  have hne := h.ne_freeMap hF
  have hlen := h.length_file hF hi
  have htoInt : toInt32 (offset + buffer.length) = (offset + buffer.length : Nat) := by
    rw [toInt32_of_lt (by omega) (by omega)]
    push_cast
    rfl
  by_cases hdeny : i.denyWriteCnt ≠ 0
  · exact ⟨s, inodeWriteAt_denied hi hdeny _ _ _, h, .refl s, rfl⟩
  · obtain ⟨store, owner, hc, rfl⟩ := h
    obtain ⟨d', s₁, hext, hb⟩ := hc.grow_fails hi hne (hcan i hi)
    refine ⟨s₁.setData n d', ?_, hb⟩
    rw [inodeWriteAt, bind_ok (getInode_eq hi), if_neg hdeny, htoInt, if_pos (by omega), bind_ok hext]
    rfl

/-- A write inside the capacity of the inode that finds no room. -/
theorem write_no_room (hF : F n = some f) (hk : s.info n = some k) (buffer : List UInt8)
    (hcap : ((offset + buffer.length : Nat) : Int) ≤ capacityBytes)
    (hbound : offset + buffer.length < 2 ^ 31)
    (hroom : ¬ (offset + buffer.length ≤ f.bytes.length ∨ HasRoom s n (offset + buffer.length))) :
    ∃ s', inodeWriteAt n buffer buffer.length offset s = .ok 0 s' ∧ Becomes s s' F s.info := by
  obtain ⟨hgrows, hnoroom⟩ := not_or.mp hroom
  exact h.write_full hF hk hbound (by omega) fun i hi hcan => hnoroom ⟨hcap, i, hi, hcan⟩

/-! ## Opening, closing and removing -/

theorem opens (hF : F n = some f) :
    ∃ r s', inodeOpen n s = .ok r s' ∧
      ((r = some n ∧ Becomes s s' F (update s.info n (some (.opened (s.info n))))) ∨
        r = none ∧ Becomes s s' F s.info ∧ ¬ s.MallocsSucceed) := by
  have hne := h.ne_freeMap hF
  obtain ⟨store, owner, hc, rfl⟩ := h
  rw [view, if_neg hne, Option.map_eq_some_iff] at hF
  obtain ⟨d, hd, -⟩ := hF
  have hget : (get : M State) s = .ok s s := rfl
  rw [inodeOpen, bind_ok hget]
  cases hi : s.inode? n with
  | some i =>
    obtain ⟨s', hrun, hbecomes⟩ := hc.modifies hi hne
      (f := fun i => { i with openCnt := i.openCnt + 1 }) (fun _ => ⟨rfl, rfl⟩) (Nat.succ_pos _)
    refine ⟨some n, s', ?_, .inl ⟨rfl, ?_⟩⟩
    · rw [if_pos (Option.isSome_some), inodeReopen, bind_ok (getInode_eq hi)]
      exact bind_ok hrun
    · rw [State.info, hi]
      exact hbecomes
  | none =>
    rw [if_neg (by decide), bind_ok (malloc_eq s)]
    have hm := hc.setMallocs s.mallocs.tail
    have hev : Evolves s (s.setMallocs s.mallocs.tail) := .setMallocs (List.tail_suffix _)
    have hread : blockRead n (s.setMallocs s.mallocs.tail) = .ok (s.disk n) _ :=
      blockRead_eq (hm.onDevice hd)
    by_cases hmalloc : s.mallocs.headD true = true
    · have hnew : ∀ j ∈ s.openInodes, j.sector ≠ n := by
        intro j hj hsector
        have hfound := State.inode?_of_mem hc.nodup hj
        rw [hsector, hi] at hfound
        cases hfound
      have hload := hm.setEntry hne (hm.opened.cons (i := ⟨n, 1, false, 0, s.disk n⟩)
        (hc.closed n d hd hi ▸ hd) hnew Nat.one_pos) (State.inode?_cons _ _)
      refine ⟨some n, _, ?_, .inl ⟨rfl, hload.represents, hev.trans hload.evolves, ?_⟩⟩
      · rw [if_pos hmalloc, bind_ok hread]
        rfl
      · rw [hload.info, State.info, hi]
        rfl
    · refine ⟨none, _, ?_, .inr ⟨rfl, ⟨⟨store, owner, hm, rfl⟩, hev, rfl⟩, fun hok => ?_⟩⟩
      · rw [if_neg hmalloc]
        rfl
      · exact hmalloc hok.head

end

/-- The files after an inode with the counters `k` was closed. -/
def afterClose (F : FileMap) (n : Sector) (k : Info) : FileMap :=
  if k.openCnt = 1 ∧ k.removed = true then update F n none else F

theorem closes (h : Represents s F) (hF : F n = some f) (hk : s.info n = some k) :
    ∃ s', inodeClose (some n) s = .ok () s' ∧
      Becomes s s' (afterClose F n k) (update s.info n k.closed) := by
  have hne := h.ne_freeMap hF
  have hpos := h.openCnt_pos hk
  obtain ⟨i, hi, hcnt, hrem, hden⟩ := exists_inode_of_info hk
  obtain ⟨store, owner, hc, rfl⟩ := h
  rw [afterClose, Info.closed]
  by_cases hone : k.openCnt = 1
  · rw [if_pos hone]
    cases hremoved : k.removed with
    | true =>
      rw [if_pos ⟨hone, rfl⟩]
      exact hc.close_removed hi hne (hcnt.trans hone) (hrem.trans hremoved)
    | false =>
      rw [if_neg (by simp)]
      exact hc.close_last hi hne (hcnt.trans hone) (hrem.trans hremoved)
  · rw [if_neg hone, if_neg (fun hb => hone hb.1), ← hcnt, ← hrem, ← hden]
    exact hc.close_shared hi hne (by omega)

theorem marks (h : Represents s F) (hF : F n = some f) (hk : s.info n = some k) :
    ∃ s', inodeRemove n s = .ok () s' ∧
      Becomes s s' F (update s.info n (some { k with removed := true })) := by
  have hne := h.ne_freeMap hF
  obtain ⟨i, hi, hcnt, -, hden⟩ := exists_inode_of_info hk
  obtain ⟨store, owner, hc, rfl⟩ := h
  rw [← hcnt, ← hden]
  exact hc.remove hi hne

/-- The count of the openers that deny writes is changed. -/
theorem setsDeny (h : Represents s F) (hF : F n = some f) (hk : s.info n = some k) (g : Nat → Nat) :
    ∃ s', modifyInode n (fun i => { i with denyWriteCnt := g i.denyWriteCnt }) s = .ok () s' ∧
      Becomes s s' F (update s.info n (some { k with denyWriteCnt := g k.denyWriteCnt })) := by
  have hne := h.ne_freeMap hF
  obtain ⟨i, hi, hcnt, hrem, hden⟩ := exists_inode_of_info hk
  obtain ⟨store, owner, hc, rfl⟩ := h
  rw [← hcnt, ← hrem, ← hden]
  exact hc.modifies hi hne (fun _ => ⟨rfl, rfl⟩) (hc.counted i (List.mem_of_find?_eq_some hi))

theorem denies (h : Represents s F) (hF : F n = some f) (hk : s.info n = some k)
    (hlt : k.denyWriteCnt < k.openCnt) :
    ∃ s', inodeDenyWrite n s = .ok () s' ∧
      Becomes s s' F (update s.info n (some { k with denyWriteCnt := k.denyWriteCnt + 1 })) := by
  obtain ⟨s', hrun, hb⟩ := h.setsDeny hF hk (· + 1)
  obtain ⟨i, hi, hcnt, -, hden⟩ := exists_inode_of_info hk
  refine ⟨s', ?_, hb⟩
  rw [inodeDenyWrite, bind_ok (getInode_eq hi), bind_ok hrun, hcnt, hden,
    if_pos (Nat.succ_le_of_lt hlt)]
  rfl

theorem allows (h : Represents s F) (hF : F n = some f) (hk : s.info n = some k)
    (hpos : 0 < k.denyWriteCnt) (hle : k.denyWriteCnt ≤ k.openCnt) :
    ∃ s', inodeAllowWrite n s = .ok () s' ∧
      Becomes s s' F (update s.info n (some { k with denyWriteCnt := k.denyWriteCnt - 1 })) := by
  obtain ⟨s', hrun, hb⟩ := h.setsDeny hF hk (· - 1)
  obtain ⟨i, hi, hcnt, -, hden⟩ := exists_inode_of_info hk
  refine ⟨s', ?_, hb⟩
  rw [inodeAllowWrite, bind_ok (getInode_eq hi), hcnt, hden, if_pos ⟨hpos, hle⟩]
  exact hrun

theorem setsDir (h : Represents s F) (hF : F n = some f) (hk : s.info n = some k) (b : Bool) :
    ∃ s', inodeSetDir n b s = .ok () s' ∧ Becomes s s' (update F n (some ⟨b, f.bytes⟩)) s.info := by
  obtain ⟨i, hi, -⟩ := exists_inode_of_info hk
  have hne := h.ne_freeMap hF
  have hfile : f.bytes = contents s.disk i.data := by rw [h.file hF hi]
  obtain ⟨store, owner, hc, rfl⟩ := h
  rw [hfile]
  have hn := hc.inode hi
  have hheader := hc.header n _ hn
  generalize hx : setIsDir i.data (if b then 1 else 0) = d'
  have hlength : length d' = length i.data := by
    rw [← hx, length, length, setIsDir, word_setWord_of_disjoint (by omega)]
  have hsectors : sectors d' = sectors i.data := by rw [sectors, hlength, sectors]
  have hroots : SameRoots (Needs (sectors i.data)) d' i.data := by
    rw [← hx]
    exact sameRoots_setIsDir _ _ _
  have hdir : (isDir d' != 0) = b := by
    rw [← hx, isDir, setIsDir]
    cases b <;> rw [word_setWord_self (by decide)] <;> rfl
  have howned : Owned s (filesOf (update store n (some d'))) owner := by
    rw [filesOf_update_some, hsectors]
    exact hc.owned.setData (filesOf_eq_some hn) hroots
  have hbytes : ∀ k < BLOCK_SECTOR_SIZE * sectors i.data,
      byteOf (update s.disk n d') d' k = byteOf s.disk i.data k :=
    fun k hk => byteOf_update_header hheader (hc.maps hn) hroots hk
  have hspares : Spares owner n s.disk (update s.disk n d') := by
    refine Spares.update (fun _ _ _ _ _ => rfl) (fun r hr => ?_) _
    rw [hheader] at hr
    cases hr
    rfl
  refine ⟨(s.setData n d').setDisk (update s.disk n d'), ?_, ⟨update store n (some d'), owner, ?_, ?_⟩,
    ⟨rfl, List.suffix_rfl, fun _ hs => ?_⟩, info_setData s n d'⟩
  · have hmodify : modifyInode n (fun i => { i with data := d' }) s = .ok () (s.setData n d') := rfl
    rw [inodeSetDir, bind_ok (getInode_eq hi)]
    simp only [hx]
    rw [bind_ok hmodify]
    exact blockWrite_eq (hc.onDevice hn)
  · refine hc.replace hi ((howned.assign hne d').setDisk fun _ _ _ hp _ => update_header hheader hp)
      (fun _ _ hp => hp) rfl rfl hspares (by rw [hlength]; exact hc.nonneg n _ hn)
      (by rw [hsectors]; exact hc.cap n _ hn) ?_ ?_
    · simp only [State.setDisk_disk, update_self]
      exact ⟨rfl, rfl, .refl _ _⟩
    · intro _ k hk hkl
      rw [hsectors] at hkl
      rw [hlength] at hk
      exact (hbytes k hkl).trans (hc.tail n _ hn hne k hk hkl)
  · have hcontents : contents (update s.disk n d') d' = contents s.disk i.data :=
      contents_congr (hc.nonneg n _ hn) (hc.cap n _ hn) hlength hbytes
    rw [hc.view_insert (d := d') hne hspares, State.setDisk_disk, hcontents, hdir]
  · exact Synced.congr (howned.assign hne d') (hs.assign hne d') hc.mounted
      fun _ _ hp => update_header hheader hp

end Represents

/-! ## Creating -/

namespace Reserved

variable {p : Sector}

theorem not_live (h : Reserved s F p) : F p = none := by
  obtain ⟨store, owner, hc, rfl, -, hfree⟩ := h
  have hnone := hc.store_eq_none hfree
  rw [view, if_neg (hc.ne_freeMap hnone), hnone]
  rfl

theorem not_open (h : Reserved s F p) : s.info p = none := by
  obtain ⟨store, owner, hc, -, -, hfree⟩ := h
  cases hi : s.inode? p with
  | none => rw [State.info, hi, Option.map_none]
  | some i =>
    have hsome := hc.inode hi
    rw [hc.store_eq_none hfree] at hsome
    cases hsome

theorem creates (h : Reserved s F p) {len : Nat} (hcap : len ≤ capacityBytes) :
    ∃ s', Evolves s s' ∧ s'.info = s.info ∧
      ((inodeCreate p len s = .ok true s' ∧
          Represents s' (update F p (some ⟨false, List.replicate len 0⟩))) ∨
        (inodeCreate p len s = .ok false s' ∧ Reserved s' F p)) := by
  obtain ⟨store, owner, hc, rfl, hused, hfree⟩ := h
  exact hc.create hused hfree (by omega) hcap

end Reserved

end

end Pintos.Fs
