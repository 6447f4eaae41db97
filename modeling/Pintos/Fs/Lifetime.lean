/-
  Pintos.Fs.Lifetime

  The life of an inode: its creation on a sector that was allocated for it, its
  handles, and its release with the last of them once it is removed.
-/

import Pintos.Fs.Operations

namespace Pintos.Fs

open Pintos.Base Pintos.Lib Function

variable {s s' : State} {store : Store} {owner owner' : Owner} {n m p : Sector} {d d' : Memory}
  {i : Inode} {files : Files} {l : List Inode}

/-- The files of the live inodes, without the free map's. -/
abbrev FileMap := Sector → Option File

/-- The counters and the flags of the open inodes. -/
abbrev Infos := Sector → Option Info

/-- The state is consistent, and its live inodes hold the files `F`. -/
def Represents (s : State) (F : FileMap) : Prop :=
  ∃ store owner, Consistent s store owner ∧ view s store = F

/-- What a call leads to. -/
structure Becomes (s s' : State) (F : FileMap) (I : Infos) : Prop where
  represents : Represents s' F
  evolves : Evolves s s'
  info : s'.info = I

/-- A sector that is allocated and that no inode has. -/
def Reserved (s : State) (F : FileMap) (p : Sector) : Prop :=
  ∃ store owner, Consistent s store owner ∧ view s store = F ∧ s.freeMap[p]? = some true ∧
    owner p = none

/-! ## Growth -/

theorem Consistent.view_insert (h : Consistent s store owner) (hne : n ≠ FREE_MAP_SECTOR)
    (hdisk : Spares owner n s.disk s'.disk) : view s' (update store n (some d)) =
      update (view s store) n (some ⟨isDir d != 0, contents s'.disk d⟩) := by
  funext m
  by_cases hm : m = n
  · subst hm
    rw [view_of_eq (update_self _ _ _) hne, update_self]
  · rw [update_of_ne hm, h.view_replace hdisk hm]

/-- Slots that are not needed are forgotten; their sectors stay used. -/
theorem Owned.narrow {S T : Set Slot} (h : Owned s files owner)
    (hn : files n = some (d, S)) (hT : Closed T) (hsub : T ⊆ S) (hne : n ≠ FREE_MAP_SECTOR) :
    Owned s (update files n (some (d, T))) owner :=
  h.put s.disk h.used hT ((h.maps _ _ _ hn).mono hsub) (fun m e U _ => h.maps m e U)
    fun hzero => absurd hzero hne

/-- Growth fails: the file is as before. -/
theorem Consistent.grow_fails (h : Consistent s store owner) {len : Int} (hi : s.inode? n = some i)
    (hne : n ≠ FREE_MAP_SECTOR) (hcan : ¬ CanAllocate s (slotsNeeded i.data len)) :
    ∃ d' s₁, inodeExtend i.data len s = .ok (d', false) s₁ ∧
      Becomes s (s₁.setData n d') (view s store) s.info := by
  have hn := h.inode hi
  obtain ⟨d', s₁, S', owner', hrun, hgrow, -⟩ :=
    inodeExtend_false h.owned (filesOf_eq_some hn) h.mounted (h.cap n _ hn) len hcan
  have hlength := hgrow.length_eq
  have hsectors : sectors d' = sectors i.data := by rw [sectors, hlength, sectors]
  have howned : Owned s₁ (filesOf (update store n (some d'))) owner' := by
    have := hgrow.owned.narrow hgrow.live (closed_needs (sectors i.data)) hgrow.sub hne
    rw [update_idem] at this
    rw [filesOf_update_some, hsectors]
    exact this
  have hopen : (s₁.setData n d').openInodes = (s.setData n d').openInodes := by
    rw [State.setData, State.updateInode, State.setOpenInodes, hgrow.openInodes]
    rfl
  have hroots := hgrow.sameRoots
  have hdiskn : s₁.disk n = s.disk n := hgrow.kept n _ (h.header n _ hn) trivial
  have hon := h.onDisk n _ hn
  refine ⟨d', s₁, hrun, ⟨update store n (some d'), owner', ?_, ?_⟩, ⟨hgrow.size, hgrow.mallocs, ?_⟩,
    (info_of_openInodes hopen).trans (info_setData s n d')⟩
  · refine h.replace hi (howned.assign hne d') hgrow.mono hopen hgrow.freeMapFile
      hgrow.spares (by rw [hlength]; exact h.nonneg n _ hn)
      (by rw [hsectors]; exact h.cap n _ hn) ?_ ?_
    · -- the device has the inode as it was
      rw [State.setData_disk, hdiskn]
      refine ⟨by rw [hlength]; exact hon.length, by rw [hgrow.isDir_eq]; exact hon.isDir, ?_⟩
      rw [hsectors]
      intro σ hσ hroot
      rw [hon.roots σ hσ hroot, hroots σ hσ hroot]
    · intro _ k hk hkl
      rw [hsectors] at hkl
      rw [hlength] at hk
      rw [State.setData_disk, hgrow.byteOf_eq hne (h.maps hn) hkl]
      exact h.tail n _ hn hne k hk hkl
  · have hcontents : contents s₁.disk d' = contents s.disk i.data :=
      contents_congr (h.nonneg n _ hn) (h.cap n _ hn) hlength
        fun k hk => hgrow.byteOf_eq hne (h.maps hn) hk
    have hview : view (s₁.setData n d') _ = _ := h.view_insert (d := d') hne hgrow.spares
    rw [hview, State.setData_disk, hcontents, hgrow.isDir_eq, ← h.view_inode hi hne, update_eq_self]
  · intro hok hsync
    exact (hgrow.synced hne h.mounted hok hsync).assign hne d'

/-! ## The list of open inodes -/

theorem Owned.setOpenInodes (h : Owned s files owner)
    (hzero : (s.setOpenInodes l).inode? FREE_MAP_SECTOR = s.inode? FREE_MAP_SECTOR) :
    Owned (s.setOpenInodes l) files owner :=
  ⟨h.len, h.small, h.used, h.closed, h.maps, h.file_congr rfl hzero rfl fun _ => rfl⟩

theorem Opened.cons (h : Opened l store) (hi : store i.sector = some i.data)
    (hnew : ∀ j ∈ l, j.sector ≠ i.sector) (hcnt : 0 < i.openCnt) : Opened (i :: l) store where
  memory := List.forall_mem_cons.mpr ⟨hi, h.memory⟩
  nodup := List.nodup_cons.mpr ⟨by simpa using hnew, h.nodup⟩
  counted := List.forall_mem_cons.mpr ⟨hcnt, h.counted⟩

theorem Opened.update (h : Opened s.openInodes store) {f : Inode → Inode}
    (hf : ∀ i, (f i).sector = i.sector ∧ (f i).data = i.data)
    (hcnt : ∀ i ∈ s.openInodes, i.sector = n → 0 < (f i).openCnt) :
    Opened (s.updateInode n f).openInodes store where
  memory j hj := by
    obtain ⟨j₀, hj₀, rfl⟩ := State.mem_updateInode hj
    split
    · rw [(hf j₀).1, (hf j₀).2]
      exact h.memory j₀ hj₀
    · exact h.memory j₀ hj₀
  nodup := by
    rw [State.sectors_updateInode fun i => (hf i).1]
    exact h.nodup
  counted j hj := by
    obtain ⟨j₀, hj₀, rfl⟩ := State.mem_updateInode hj
    split
    · rename_i hsector
      exact hcnt j₀ hj₀ hsector
    · exact h.counted j₀ hj₀

section

variable (h : Consistent s store owner)

include h

/-- The entry of an inode is set. -/
theorem Consistent.setEntry (hne : n ≠ FREE_MAP_SECTOR) (hl : Opened l store)
    (hentry : ∀ m, (s.setOpenInodes l).inode? m = if m = n then some i else s.inode? m) :
    Becomes s (s.setOpenInodes l) (view s store)
      (update s.info n (some ⟨i.openCnt, i.removed, i.denyWriteCnt⟩)) := by
  have hothers : ∀ m, m ≠ n → (s.setOpenInodes l).inode? m = s.inode? m := by
    intro m hm
    rw [hentry, if_neg hm]
  have hzero := hothers _ (Ne.symm hne)
  refine ⟨⟨store, owner, ?_, rfl⟩, ⟨rfl, List.suffix_rfl, fun _ hs j hj => hs j (hzero ▸ hj)⟩, ?_⟩
  · refine h.step (n := n) (h.owned.setOpenInodes hzero) rfl hl
      (fun m hm hnone => hothers m hm ▸ hnone) (fun _ _ _ _ hp => hp) (fun _ _ _ _ _ => rfl)
      (fun _ _ => rfl) fun d hd => ?_
    have hold := h.live hd
    refine ⟨hold.header, hold.nonneg, hold.cap, hold.onDisk, fun hnone => ?_, hold.tail⟩
    rw [hentry, if_pos rfl] at hnone
    cases hnone
  · funext m
    by_cases hm : m = n
    · rw [State.info, hentry, if_pos hm, hm, update_self]
      rfl
    · rw [State.info, hothers m hm, update_of_ne hm, State.info]

/-- An assignment to the counters or to the flag of an inode. -/
theorem Consistent.modifies (hi : s.inode? n = some i) (hne : n ≠ FREE_MAP_SECTOR)
    {f : Inode → Inode} (hf : ∀ i, (f i).sector = i.sector ∧ (f i).data = i.data)
    (hcnt : 0 < (f i).openCnt) :
    ∃ s', modifyInode n f s = .ok () s' ∧ Becomes s s' (view s store)
      (update s.info n (some ⟨(f i).openCnt, (f i).removed, (f i).denyWriteCnt⟩)) := by
  refine ⟨s.updateInode n f, rfl, h.setEntry hne (h.opened.update hf fun j hj hsector => ?_) fun m => ?_⟩
  · have hfound := State.inode?_of_mem h.nodup hj
    rw [hsector, hi] at hfound
    cases hfound
    exact hcnt
  · have hupdate := s.inode?_updateInode (n := n) m fun i => (hf i).1
    rw [State.updateInode] at hupdate
    rw [hupdate]
    by_cases hm : m = n
    · rw [if_pos hm, hm, hi]
      simp
    · simp [hm]

/-! ## Opening -/

end

/-- One more handle. -/
def Info.opened : Option Info → Info
  | none => ⟨1, false, 0⟩
  | some k => { k with openCnt := k.openCnt + 1 }

section

variable (h : Consistent s store owner)

include h

/-! ## The free map -/

/-- A change of the free map touches no other file. -/
theorem Consistent.freeMapStep (hstep : FreeMapStep owner s s')
    (howned : Owned s' (filesOf store) owner) (hsync : s.MallocsSucceed → Synced s → Synced s') :
    Consistent s' store owner ∧ view s' store = view s store ∧ Evolves s s' ∧ s'.info = s.info := by
  have hwrites : DataWrites owner FREE_MAP_SECTOR s.disk s'.disk := hstep.disk.writes
  refine ⟨?_, ?_, ⟨hstep.size, hstep.mallocs, hsync⟩, info_of_openInodes hstep.openInodes⟩
  · exact h.dataWrites howned (fun _ _ hp => hp) hstep.openInodes hstep.freeMapFile hwrites
      fun _ _ hne => absurd rfl hne
  · funext m
    by_cases hm : m = FREE_MAP_SECTOR
    · rw [view, view, if_pos hm, if_pos hm]
    · exact h.view_spares hwrites.spares hm

/-- `free_map_allocate` of a sector that is used from now on. -/
theorem Consistent.allocate (hcan : CanAllocate s 1) :
    ∃ p s', freeMapAllocate 1 s = .ok (some p) s' ∧ Reserved s' (view s store) p ∧ Evolves s s' ∧
      s'.info = s.info := by
  obtain ⟨p, s', hrun, hclear, hstep, hmap, hsync, -⟩ := freeMapAllocate_some h.owned hcan
  obtain ⟨hcons, hview, hev, hinfo⟩ :=
    h.freeMapStep hstep (h.owned.allocated hstep hmap) fun _ _ => hsync h.mounted
  refine ⟨p, s', hrun, ⟨store, owner, hcons, hview, ?_, h.owned.free_of_clear hclear⟩, hev, hinfo⟩
  rw [hmap, List.getElem?_set_self (List.getElem?_eq_some_iff.mp hclear).1]

/-- `free_map_allocate` without a free sector, or without memory. -/
theorem Consistent.allocate_none (hcan : ¬ CanAllocate s 1) :
    ∃ s', freeMapAllocate 1 s = .ok none s' ∧ Becomes s s' (view s store) s.info := by
  obtain ⟨s', hrun, hstep, hmap, hsame⟩ := freeMapAllocate_none h.owned hcan
  have howned : Owned s' (filesOf store) owner := by
    refine h.owned.freeMapStep hstep (by rw [hmap]) fun p r hp => ?_
    rw [hmap]
    exact h.owned.used p r hp
  obtain ⟨hcons, hview, hev, hinfo⟩ :=
    h.freeMapStep hstep howned fun hok hs => (hsame hok).symm ▸ hs
  exact ⟨s', hrun, ⟨store, owner, hcons, hview⟩, hev, hinfo⟩

/-- `free_map_release` of a sector that belongs to no inode. -/
theorem Consistent.release (hused : s.freeMap[p]? = some true) (hfree : owner p = none) :
    ∃ s', freeMapRelease p 1 s = .ok () s' ∧ FreeMapStep owner s s' ∧ Consistent s' store owner ∧
      view s' store = view s store ∧ Evolves s s' ∧ s'.info = s.info := by
  obtain ⟨s', hrun, hstep, hmap, hsync⟩ := freeMapRelease_eq h.owned h.mounted hused hfree
  have howned : Owned s' (filesOf store) owner := by
    refine h.owned.freeMapStep hstep (by rw [hmap, List.length_set]) fun q r hq => ?_
    rw [hmap, List.getElem?_set_ne (ne_of_owner_none hfree hq).symm]
    exact h.owned.used q r hq
  exact ⟨s', hrun, hstep, h.freeMapStep hstep howned fun hok _ => hsync hok.canWrite⟩

/-- The invariant after writes to sectors that are of no live inode. -/
theorem Consistent.keep (hnone : store n = none) (howned : Owned s' (filesOf store) owner')
    (hkeep : ∀ q m σ, m ≠ n → owner q = some (m, σ) → owner' q = some (m, σ))
    (hopen : s'.openInodes = s.openInodes) (hfile : s'.freeMapFile = s.freeMapFile)
    (hdisk : Spares owner n s.disk s'.disk) :
    Consistent s' store owner' ∧ view s' store = view s store := by
  refine ⟨h.step howned hfile (hopen ▸ h.opened) (fun m _ hm => ?_) hkeep hdisk (fun _ _ => rfl)
    fun d hd => ?_, ?_⟩
  · rw [State.inode?, hopen] at hm
    exact hm
  · rw [hnone] at hd
    cases hd
  · funext m
    by_cases hm : m = n
    · rw [view, view, hm, hnone, Option.map_none, Option.map_none]
    · exact h.view_spares hdisk hm

/-! ## Closing -/

/-- One handle less, not the last. -/
theorem Consistent.close_shared (hi : s.inode? n = some i) (hne : n ≠ FREE_MAP_SECTOR)
    (hcnt : 1 < i.openCnt) :
    ∃ s', inodeClose (some n) s = .ok () s' ∧ Becomes s s' (view s store)
      (update s.info n (some ⟨i.openCnt - 1, i.removed, i.denyWriteCnt⟩)) := by
  rw [inodeClose, bind_ok (getInode_eq hi), if_neg (by omega)]
  exact h.modifies hi hne (fun _ => ⟨rfl, rfl⟩) (Nat.sub_pos_of_lt hcnt)

/-- The device's copy of an inode takes the place of the one in memory. -/
theorem Consistent.unload (hi : s.inode? n = some i) (hne : n ≠ FREE_MAP_SECTOR) :
    Consistent (s.setOpenInodes (s.openInodes.filter fun i => i.sector ≠ n))
      (update store n (some (s.disk n))) owner := by
  have hn := h.inode hi
  have hon := h.onDisk n _ hn
  have hsectors : sectors (s.disk n) = sectors i.data := by rw [sectors, hon.length, sectors]
  have howned : Owned s (filesOf (update store n (some (s.disk n)))) owner := by
    rw [filesOf_update_some, hsectors]
    exact h.owned.setData (filesOf_eq_some hn) hon.roots
  refine h.step (n := n) (howned.setOpenInodes ?_) rfl (h.opened.filter _)
    (fun m hm hnone => ?_) (fun _ _ _ _ hp => hp) (fun _ _ _ _ _ => rfl)
    (fun m hm => update_of_ne hm _ _) fun e he => ?_
  · rw [s.inode?_filter, if_neg (Ne.symm hne)]
  · rw [s.inode?_filter, if_neg hm] at hnone
    exact hnone
  · cases (update_self n (some (s.disk n)) store).symm.trans he
    refine ⟨h.header _ _ hn, by rw [hon.length]; exact h.nonneg n _ hn,
      by rw [hsectors]; exact h.cap n _ hn, ⟨rfl, rfl, .refl _ _⟩, fun _ => rfl, fun _ k hk hkl => ?_⟩
    rw [hsectors] at hkl
    rw [hon.length] at hk
    exact (byteOf_congr_roots hon.roots hkl).trans (h.tail n _ hn hne k hk hkl)

/-- The device's copy of an inode has the same bytes. -/
theorem Consistent.contents_onDisk (hn : store n = some d) :
    contents s.disk (s.disk n) = contents s.disk d := by
  have hon := h.onDisk n d hn
  exact contents_congr (h.nonneg n d hn) (h.cap n d hn) hon.length
    fun k hk => byteOf_congr_roots hon.roots hk

/-- The file is the same on the device. -/
theorem Consistent.view_unload (hi : s.inode? n = some i) (hne : n ≠ FREE_MAP_SECTOR) :
    view s (update store n (some (s.disk n))) = view s store := by
  have hn := h.inode hi
  rw [h.view_insert hne fun _ _ _ _ _ => rfl, h.contents_onDisk hn, (h.onDisk n _ hn).isDir,
    ← h.view_inode hi hne, update_eq_self]

end

theorem info_filter (s : State) (n : Sector) :
    (s.setOpenInodes (s.openInodes.filter fun i => i.sector ≠ n)).info =
      update s.info n none := by
  funext m
  rw [State.info, s.inode?_filter]
  by_cases hm : m = n
  · rw [if_pos hm, hm, update_self]
    rfl
  · rw [if_neg hm, update_of_ne hm, State.info]

theorem evolves_filter (hne : n ≠ FREE_MAP_SECTOR) :
    Evolves s (s.setOpenInodes (s.openInodes.filter fun i => i.sector ≠ n)) := by
  refine ⟨rfl, List.suffix_rfl, fun _ hs j hj => hs j ?_⟩
  rw [s.inode?_filter, if_neg (Ne.symm hne)] at hj
  exact hj

theorem view_drop (s : State) (l : List Inode) (store : Store) (n : Sector) :
    view (s.setOpenInodes l) (update store n none) = update (view s store) n none := by
  funext m
  by_cases hm : m = n
  · rw [view, hm, update_self, update_self]
    split <;> rfl
  · rw [view, update_of_ne hm, update_of_ne hm, view]
    rfl

section

variable (h : Consistent s store owner)

include h

/-- The last handle on an inode that stays. -/
theorem Consistent.close_last (hi : s.inode? n = some i)
    (hne : n ≠ FREE_MAP_SECTOR) (hcnt : i.openCnt = 1) (hremoved : i.removed = false) :
    ∃ s', inodeClose (some n) s = .ok () s' ∧
      Becomes s s' (view s store) (update s.info n none) := by
  refine ⟨_, ?_, ⟨_, owner, h.unload hi hne, h.view_unload hi hne⟩, evolves_filter hne, info_filter s n⟩
  rw [inodeClose, bind_ok (getInode_eq hi), if_pos (by omega)]
  simp only [hremoved]
  rfl

/-! ## Release -/

/-- An inode that is not open any more is not live any more. -/
theorem Consistent.drop (hi : s.inode? n = some i) (hne : n ≠ FREE_MAP_SECTOR) :
    Consistent (s.setOpenInodes (s.openInodes.filter fun i => i.sector ≠ n)) (update store n none)
      (update owner n none) := by
  have hheader := h.header n _ (h.inode hi)
  have howned : Owned s (filesOf (update store n none)) owner := by
    rw [filesOf_update_none]
    exact h.owned.drop hne
  refine h.step (n := n) ((howned.forget (filesOf_eq_none (update_self _ _ _)) hheader).setOpenInodes ?_)
    rfl (h.opened.filter none) (fun m hm hnone => ?_) (fun p m σ hm hp => ?_) (fun _ _ _ _ _ => rfl)
    (fun m hm => update_of_ne hm _ _) fun e he => ?_
  · rw [s.inode?_filter, if_neg (Ne.symm hne)]
  · rw [s.inode?_filter, if_neg hm] at hnone
    exact hnone
  · refine (update_of_ne ?_ _ _).trans hp
    rintro rfl
    cases hheader.symm.trans hp
    exact hm rfl
  · rw [update_self] at he
    cases he

/-- The last handle on a removed inode: its sectors are released. -/
theorem Consistent.close_removed (hi : s.inode? n = some i)
    (hne : n ≠ FREE_MAP_SECTOR) (hcnt : i.openCnt = 1) (hremoved : i.removed = true) :
    ∃ s', inodeClose (some n) s = .ok () s' ∧
      Becomes s s' (update (view s store) n none) (update s.info n none) := by
  have hn := h.inode hi
  have hheader := h.header n _ hn
  have hdead : update store n none n = none := update_self _ _ _
  -- the sector of the inode first
  obtain ⟨s₂, hrun₂, hstep, h₂, hv₂, hev₂, hinfo₂⟩ := (h.drop hi hne).release
    (h.owned.used _ _ hheader) (update_self _ _ _)
  have hmaps : Maps s.disk i.data (Needs (sectors i.data)) (update owner n none) n := by
    intro σ hσ
    have hσo := h.maps hn σ hσ
    refine (update_of_ne (fun heq => ?_) _ _).trans hσo
    cases hheader.symm.trans ((congrArg owner heq.symm).trans hσo)
  have hmaps₂ := hmaps.congr (closed_needs _) fun _ _ hp => Maps.index_of_dataOnly hstep.disk hp
  -- then those of its slots
  obtain ⟨s₃, owner₃, hrun₃, -, hfree⟩ := Freeing.inodeDeallocate_eq h₂.owned h₂.mounted
    (filesOf_eq_none hdead) rfl (h.cap n _ hn) hmaps₂
  have hkeep : ∀ p m σ, m ≠ n → update owner n none p = some (m, σ) → owner₃ p = some (m, σ) := by
    intro p m σ hm hp
    refine hfree.keep p _ hp ?_
    rintro τ hτ rfl
    cases hp.symm.trans (hmaps₂ τ hτ)
    exact hm rfl
  obtain ⟨h₃, hv₃⟩ := h₂.keep hdead hfree.owned hkeep hfree.openInodes
    (hfree.freeMapFile.trans h₂.mounted.symm) fun p r hp _ hf => hfree.disk.writes p r hp hf hf
  refine ⟨s₃, ?_, ⟨_, owner₃, h₃, (hv₃.trans hv₂).trans (view_drop s _ _ _)⟩,
    (evolves_filter hne).trans (hev₂.trans ⟨hfree.size, hfree.mallocs, hfree.synced⟩),
    (info_of_openInodes hfree.openInodes).trans (hinfo₂.trans (info_filter s n))⟩
  have hmodify : (modify fun s : State => s.setOpenInodes
      (s.openInodes.filter fun i => i.sector ≠ n) : M PUnit) s = .ok ⟨⟩ _ := rfl
  rw [inodeClose, bind_ok (getInode_eq hi), if_pos (by omega), bind_ok hmodify, if_pos hremoved,
    State.sector_of_inode? hi, bind_ok hrun₂]
  exact hrun₃

/-- `inode_remove`. -/
theorem Consistent.remove (hi : s.inode? n = some i) (hne : n ≠ FREE_MAP_SECTOR) :
    ∃ s', inodeRemove n s = .ok () s' ∧ Becomes s s' (view s store)
      (update s.info n (some ⟨i.openCnt, true, i.denyWriteCnt⟩)) := by
  rw [inodeRemove, bind_ok (getInode_eq hi)]
  exact h.modifies hi hne (fun _ => ⟨rfl, rfl⟩) (h.counted i (List.mem_of_find?_eq_some hi))

/-! ## Creation -/

end

/-- A used sector without an owner gets one. -/
theorem Owned.own (h : Owned s files owner) (hused : s.freeMap[p]? = some true)
    (hfree : owner p = none) (r : Sector × Option Slot) :
    Owned s files (update owner p (some r)) where
  len := h.len
  small := h.small
  used q r' hq := by
    by_cases hqp : q = p
    · rw [hqp]
      exact hused
    · rw [update_of_ne hqp] at hq
      exact h.used q r' hq
  closed := h.closed
  maps m e S hm := (h.maps m e S hm).owner_mono fun q r' hq => by
    rw [update_of_ne (ne_of_owner_none hfree hq)]
    exact hq
  file := h.file

/-- An empty inode is live. -/
theorem Owned.addEmpty (h : Owned s files owner) (hn : files n = none)
    (hempty : sectors d = 0) : Owned s (update files n (some (d, Needs (sectors d)))) owner := by
  refine h.put s.disk h.used (closed_needs _) (fun σ hσ => ?_) (fun m e S _ => h.maps m e S)
    fun _ e S he => ?_
  · rw [hempty] at hσ
    cases σ <;> simp at hσ
  · rw [hn] at he
    cases he

section

variable (h : Consistent s store owner)

include h

/-- A sector without an owner is not that of a live inode. -/
theorem Consistent.store_eq_none (hfree : owner p = none) :
    store p = none := by
  cases hp : store p with
  | none => rfl
  | some e =>
    rw [h.header p e hp] at hfree
    cases hfree

/-- The sector is meant for an inode. -/
theorem Consistent.own (hused : s.freeMap[p]? = some true) (hfree : owner p = none) :
    Consistent s store (update owner p (some (p, none))) := by
  refine (h.keep (h.store_eq_none hfree) (h.owned.own hused hfree _) (fun q m σ _ hq => ?_) rfl rfl
    fun _ _ _ _ _ => rfl).1
  exact (update_of_ne (ne_of_owner_none hfree hq) _ _).trans hq

theorem Consistent.ne_freeMap (hnone : store p = none) : p ≠ FREE_MAP_SECTOR := by
  rintro rfl
  obtain ⟨i, hi⟩ := h.freeMap_inode
  cases hnone.symm.trans (h.inode hi)

end

theorem sectors_freshInode : sectors freshInode = 0 := by
  rw [sectors, length_freshInode]
  decide

theorem isDir_freshInode : isDir freshInode = 0 := by
  rw [freshInode, setMagic, isDir, word_setWord_of_disjoint (by decide), setLength,
    word_setWord_of_disjoint (by decide)]
  rfl

/-- The new inode is written to its sector. -/
theorem Consistent.bear (h : Consistent s store owner) (hnone : store p = none)
    (hheader : owner p = some (p, none)) {e : Memory} {len : Int} (hlen : 0 ≤ len)
    (hbound : len < 2 ^ 31) (hcap : bytesToSectors len ≤ capacity)
    (hgrow : Growing p (filesOf (update store p (some freshInode))) s freshInode
      (Needs (sectors freshInode)) owner s' e (Needs (bytesToSectors len)) owner' ∅) :
    ∃ s₂, blockWrite p (setLength e len) s' = .ok () s₂ ∧
      Becomes s s₂ (update (view s store) p (some ⟨false, List.replicate len.toNat 0⟩)) s.info := by
  have hne := h.ne_freeMap hnone
  have hheader' := hgrow.mono _ _ hheader
  have hlength : length (setLength e len) = len := length_setLength e (by omega) hbound
  have hsectors : sectors (setLength e len) = bytesToSectors len := by rw [sectors, hlength]
  have hroots := sameRoots_setLength (Needs (bytesToSectors len)) e len
  have howned : Owned s' (filesOf (update store p (some (setLength e len)))) owner' := by
    have := hgrow.owned.setData hgrow.live hroots
    rw [update_idem, filesOf_update_some, update_idem] at this
    rw [filesOf_update_some, hsectors]
    exact this
  have hzero : ∀ k < BLOCK_SECTOR_SIZE * bytesToSectors len,
      byteOf (update s'.disk p (setLength e len)) (setLength e len) k = 0 := by
    intro k hk
    rw [byteOf_update_header hheader' (hgrow.owned.maps _ _ _ hgrow.live) hroots hk, byteOf,
      hgrow.zero hne]
    · rfl
    · rw [data_mem_needs]
      simp only [BLOCK_SECTOR_SIZE] at hk ⊢
      omega
    · rw [sectors_freshInode, data_mem_needs]
      exact Nat.not_lt_zero _
  have hspares : Spares owner p s.disk (update s'.disk p (setLength e len)) := by
    refine hgrow.spares.update (fun r hr => ?_) _
    cases hheader.symm.trans hr
    rfl
  have hsize : p < s'.size := by
    rw [hgrow.size]
    exact h.owned.onDevice _ _ hheader
  refine ⟨_, blockWrite_eq hsize, ⟨update store p (some (setLength e len)), owner', ?_, ?_⟩,
    ⟨hgrow.size, hgrow.mallocs, fun hok hs => ?_⟩, info_of_openInodes hgrow.openInodes⟩
  · refine h.step (howned.setDisk fun _ _ _ hq _ => update_header hheader' hq) hgrow.freeMapFile
      (hgrow.openInodes ▸ h.opened.insert hnone _) (fun m _ hm => ?_) (fun q m σ _ => hgrow.mono q _)
      hspares (fun m hm => update_of_ne hm _ _) fun e' he => ?_
    · exact (congrArg (List.find? _) hgrow.openInodes).symm.trans hm
    · cases (update_self p (some (setLength e len)) store).symm.trans he
      refine ⟨hheader', by omega, by rw [hsectors]; exact hcap, ?_, fun _ => update_self _ _ _,
        fun _ k _ hkl => hzero k (hsectors ▸ hkl)⟩
      simp only [State.setDisk_disk, update_self]
      exact ⟨rfl, rfl, .refl _ _⟩
  · have hdir : isDir (setLength e len) = 0 := by
      rw [← isDir_freshInode, ← hgrow.isDir_eq]
      exact word_setWord_of_disjoint (by omega)
    have hcontents : contents (update s'.disk p (setLength e len)) (setLength e len) =
        List.replicate len.toNat 0 := by
      rw [contents, hlength, List.eq_replicate_iff]
      refine ⟨by simp, fun b hb => ?_⟩
      obtain ⟨k, hk, rfl⟩ := List.mem_map.mp hb
      rw [List.mem_range] at hk
      apply hzero
      rw [← hsectors]
      refine lt_sectors (by omega) (by rw [hsectors]; exact hcap) ?_
      rw [hlength]
      exact Int.lt_toNat.mp hk
    rw [h.view_insert hne hspares, State.setDisk_disk, hcontents, hdir]
    rfl
  · exact Synced.congr howned (hgrow.synced hne h.mounted hok hs) (hgrow.freeMapFile.trans h.mounted)
      fun _ _ hq => update_header hheader' hq

theorem capacityBytes_lt : capacityBytes < 2 ^ 31 := by decide

theorem setLength_freshInode : setLength freshInode 0 = freshInode := by
  funext x
  simp only [freshInode, setMagic, setLength, setWord]
  by_cases hlow : 0 ≤ x ∧ x < 0 + 4
  · rw [if_pos hlow, if_neg (by omega), if_pos hlow]
  · rw [if_neg hlow]

/-- The growth of the new inode fails. -/
theorem Consistent.stillborn (h : Consistent s store owner) (hnone : store p = none)
    (hheader : owner p = some (p, none)) {S : Set Slot}
    (hgrow : Growing p (filesOf (update store p (some freshInode))) s freshInode
      (Needs (sectors freshInode)) owner s' d S owner' ∅) :
    Reserved s' (view s store) p ∧ Evolves s s' ∧ s'.info = s.info := by
  have hne := h.ne_freeMap hnone
  have hheader' := hgrow.mono _ _ hheader
  have hfiles : filesOf store p = none := filesOf_eq_none hnone
  have howned : Owned s' (filesOf store) (update owner' p none) := by
    have hdrop := hgrow.owned.drop hne
    rw [update_idem, filesOf_update_some, update_idem, ← hfiles,
      update_eq_self] at hdrop
    exact hdrop.forget hfiles hheader'
  have hkeep : ∀ q m σ, m ≠ p → owner q = some (m, σ) → update owner' p none q = some (m, σ) := by
    intro q m σ hm hq
    refine (update_of_ne ?_ _ _).trans (hgrow.mono q _ hq)
    rintro rfl
    cases hheader.symm.trans hq
    exact hm rfl
  obtain ⟨hcons, hview⟩ :=
    h.keep hnone howned hkeep hgrow.openInodes hgrow.freeMapFile hgrow.spares
  exact ⟨⟨store, _, hcons, hview, hgrow.owned.used _ _ hheader', update_self _ _ _⟩,
    ⟨hgrow.size, hgrow.mallocs, hgrow.synced hne h.mounted⟩, info_of_openInodes hgrow.openInodes⟩

/-- `inode_create` on a sector that was allocated for it. -/
theorem Consistent.create (h : Consistent s store owner) (hused : s.freeMap[p]? = some true)
    (hfree : owner p = none) {len : Int} (hlen : 0 ≤ len) (hcap : len ≤ capacityBytes) :
    ∃ s', Evolves s s' ∧ s'.info = s.info ∧
      ((inodeCreate p len s = .ok true s' ∧
          Represents s' (update (view s store) p (some ⟨false, List.replicate len.toNat 0⟩))) ∨
        (inodeCreate p len s = .ok false s' ∧ Reserved s' (view s store) p)) := by
  have hbound := lt_of_le_of_lt hcap capacityBytes_lt
  have hev : Evolves s (s.setMallocs s.mallocs.tail) := .setMallocs (List.tail_suffix _)
  have hnone := h.store_eq_none hfree
  by_cases hmalloc : s.mallocs.headD true = true
  · have h₁ := (h.setMallocs s.mallocs.tail).own hused hfree
    have hheader : update owner p (some (p, none)) p = some (p, none) := update_self _ _ _
    have hborn := h₁.owned.addEmpty (filesOf_eq_none hnone) sectors_freshInode
    rw [← filesOf_update_some] at hborn
    have hlive := filesOf_eq_some (update_self p (some freshInode) store)
    rcases Int.lt_or_eq_of_le hlen with hpos | rfl
    · rw [inodeCreate_eq hpos hmalloc]
      by_cases hcan : CanAllocate (s.setMallocs s.mallocs.tail) (slotsNeeded freshInode len)
      · have hsectors := bytesToSectors_le_capacity hlen hbound hcap
        obtain ⟨e, s₁, owner', hext, hgrow, -⟩ := inodeExtend_true hborn hlive len
          (by rw [sectors_freshInode]; exact Nat.zero_le _) hsectors hcan
        obtain ⟨s₂, hwrite, hb⟩ := h₁.bear hnone hheader hlen hbound hsectors hgrow
        refine ⟨s₂, hev.trans hb.evolves, hb.info, .inl ⟨?_, hb.represents⟩⟩
        rw [bind_ok hext]
        exact bind_ok hwrite
      · obtain ⟨e, s₁, S, owner', hext, hgrow, -⟩ := inodeExtend_false hborn hlive h₁.mounted
          (by rw [sectors_freshInode]; exact Nat.zero_le _) len hcan
        obtain ⟨hres, hev', hinfo⟩ := h₁.stillborn hnone hheader hgrow
        refine ⟨s₁, hev.trans hev', hinfo, .inr ⟨?_, hres⟩⟩
        rw [bind_ok hext]
        rfl
    · have hzero : bytesToSectors 0 = sectors freshInode := by
        rw [sectors_freshInode]
        decide
      have hgrow := Growing.start hborn hlive
      obtain ⟨s₂, hwrite, hb⟩ :=
        h₁.bear (e := freshInode) hnone hheader (Int.le_refl 0) (by decide)
          (by rw [hzero, sectors_freshInode]; exact Nat.zero_le _) (by rw [hzero]; exact hgrow)
      refine ⟨s₂, hev.trans hb.evolves, hb.info, .inl ⟨?_, hb.represents⟩⟩
      have hmem : malloc s = .ok true (s.setMallocs s.mallocs.tail) := by rw [malloc_eq, hmalloc]
      rw [setLength_freshInode] at hwrite
      rw [inodeCreate, if_neg (Int.lt_irrefl 0), bind_ok hmem, if_pos rfl, if_neg (Int.lt_irrefl 0)]
      exact bind_ok hwrite
  · have hfalse : s.mallocs.headD true = false := Bool.eq_false_iff.mpr hmalloc
    exact ⟨s.setMallocs s.mallocs.tail, hev, rfl, .inr ⟨inodeCreate_no_memory hlen hfalse,
      ⟨store, owner, h.setMallocs _, rfl, hused, hfree⟩⟩⟩

/-! ## Directories -/

theorem sameRoots_setIsDir (S : Set Slot) (d : Memory) (x : Nat) : SameRoots S (setIsDir d x) d := by
  intro σ _ hroot
  have := Growing.pos_of_root hroot
  exact word_setWord_of_disjoint (by omega)

end Pintos.Fs
