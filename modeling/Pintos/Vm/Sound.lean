/-
  Pintos.Vm.Sound

  The code performs effects: every step of the system, other than a user
  store, is a sequence of effects that starts and ends without a held frame.

  The proofs follow the code.  They need the structural invariant where the
  code trusts a field, for instance that a victim whose entry is marked loaded
  is present.
-/

import Pintos.Vm.Shape

namespace Pintos.Vm

open Pintos.Base Pintos.Lib Function

variable {X : Set FileId} {img : Image} {s s' : State} {h : Option Frame} {pid : Pid}
  {page : PageNo} {k : Frame} {l : List FrameTableEntry} {e : SupPageTableEntry} {r : Option Frame}
  {f : FileId} {grow tmp : Bool} {a : Allocs} {m : MemoryMapping} {n : Nat}

/-! ## The page allocator -/

theorem pallocGetPage_eq (hk : pallocGetPage s = some (k, s')) : s.userPool[k]? = some false ∧
    s' = (s.setUserPool (s.userPool.set k true)).setMem k fun _ => 0 := by
  obtain ⟨⟨i, b⟩, hscan, heq⟩ := Option.map_eq_some_iff.mp hk
  obtain ⟨hfree, rfl⟩ := bitmapScanAndFlip_some hscan
  cases heq
  exact ⟨hfree, rfl⟩

theorem Effect.of_pallocGetPage (hk : pallocGetPage s = some (k, s')) :
    Effect X img (s, none) (s', some k) := by
  obtain ⟨hfree, rfl⟩ := pallocGetPage_eq hk
  exact .alloc hfree

theorem pallocFreePage_eq (hk : pallocFreePage s k = some s') :
    s' = (s.setUserPool (s.userPool.set k false)).setMem k fun _ => 0xcc := by
  simp only [pallocFreePage, bitmapSetMultiple_one] at hk
  split at hk
  · exact (Option.some.inj hk).symm
  · cases hk

theorem Effect.of_pallocFreePage (hk : pallocFreePage s k = some s') :
    Effect X img (s, some k) (s', none) := by
  rw [pallocFreePage_eq hk]
  exact .free

/-- Giving the held frame back and exiting, which is how a failed fault ends. -/
theorem Effects.of_free_exit (hlive : (s.procs pid).phase ≠ .dead)
    (hk : (pallocFreePage s k).map (Vm.exit · pid) = some s') :
    Effects X img (s, some k) (s', none) := by
  obtain ⟨s₁, h₁, rfl⟩ := Option.map_eq_some_iff.mp hk
  refine .tail (.single (.of_pallocFreePage h₁)) (.exit ?_)
  rw [pallocFreePage_eq h₁]
  exact hlive

/-! ## Eviction -/

/-- The same processes have entries for the same pages. -/
structure SamePages (s s' : State) : Prop where
  phase : ∀ q, (s'.procs q).phase = (s.procs q).phase
  spte : ∀ q r, s'.spte q r = none ↔ s.spte q r = none

theorem SamePages.refl (s : State) : SamePages s s := ⟨fun _ => rfl, fun _ _ => Iff.rfl⟩

theorem SamePages.unmapFrame {x : SupPageTableEntry}
    (he : s.spte pid page = some e) : SamePages s (s.unmapFrame l pid page (some x)) := by
  refine ⟨by simp [State.unmapFrame, State.setFrameTable], fun q r => ?_⟩
  rw [State.spte_unmapFrame]
  split
  · rename_i hqr
    obtain ⟨rfl, rfl⟩ := hqr
    simp [he]
  · rfl

theorem frameTablePop_eq {victim : Option Nat} {fte : FrameTableEntry}
    (hpop : frameTablePop s victim = some (fte, s')) :
    ∃ i, victim = some i ∧ s.frameTable[i]? = some fte ∧
      s' = s.setFrameTable (s.frameTable.eraseIdx i) ∧ evictable s fte = true := by
  simp only [frameTablePop, Option.bind_eq_some_iff, Option.map_eq_some_iff] at hpop
  obtain ⟨_, ⟨i, hi, ⟨x, hx, rfl⟩⟩, hif⟩ := hpop
  obtain ⟨hev, heq⟩ := Option.ite_none_right_eq_some.mp hif
  cases heq
  exact ⟨i, hi, hx, rfl, hev⟩

theorem perm_eraseIdx {fte : FrameTableEntry} {i : Nat} (hi : s.frameTable[i]? = some fte) :
    s.frameTable.Perm (fte :: s.frameTable.eraseIdx i) := by
  obtain ⟨hlt, rfl⟩ := List.getElem?_eq_some_iff.mp hi
  exact (List.getElem_cons_eraseIdx_perm hlt).symm

theorem frameTablePop_perm {victim : Option Nat} {fte : FrameTableEntry}
    (hpop : frameTablePop s victim = some (fte, s')) :
    ∃ l, s' = s.setFrameTable l ∧ s.frameTable.Perm (fte :: l) ∧ evictable s fte = true := by
  obtain ⟨i, -, hi, rfl, hev⟩ := frameTablePop_eq hpop
  exact ⟨_, rfl, perm_eraseIdx hi, hev⟩

/-- A page that stays in its file. -/
theorem evictToFile_eq (hp : (s.pte pid page).present = true) :
    evictToFile (s.setFrameTable l) ⟨k, pid, some page⟩ page e =
      some (s.unmapFrame l pid page
        (some { e with isLoaded := false, source := .fileBacked, swapSlotIndex := none }),
        some k) := by
  simp [evictToFile, pagedirClearPage, hp, State.unmapFrame, State.setPte_setSpte_comm]

/-- What a complete write to a file did. -/
theorem fileWriteAt_eq (s : State) (f : FileId) (data : List UInt8) (ofs : Nat) (grow : Bool) :
    fileWriteAt s f data ofs grow = (0, s) ∨
      (s.files f).denyWriteCnt = 0 ∧ fileWriteAt s f data ofs grow =
        (data.length, s.setFile f
          { s.files f with contents := overwrite 0 (s.files f).contents ofs data }) := by
  simp only [fileWriteAt]
  split
  · exact Or.inl rfl
  · rename_i hdeny
    split
    · exact Or.inr ⟨by simpa using hdeny, rfl⟩
    · exact Or.inl rfl

theorem PageData.bytes_length (d : PageData) (n : Nat) : (d.bytes n).length = n := by
  simp [PageData.bytes]

/-- How `swap_evict_frame` ends for a victim with the entry `e`: it goes back to
    the table, or the page stays in its file, after it was written there if it is
    a dirty page of a mapping, or it goes to a slot. -/
inductive Evicted (s : State) (fte : FrameTableEntry) (page : PageNo) (e : SupPageTableEntry)
    (x : State × Option Frame) : Prop
  | kept (h : x = (s.setFrameTable (s.frameTable ++ [fte]), none))
  | dropped (hsource : e.source = .fileBacked) (hkeep : e.mapping = none → e.writable = false)
      (hclean : e.mapping ≠ none → (s.pte fte.owner page).dirty = true → e.readBytes = 0)
      (h : evictToFile s fte page e = some x)
  | written (hsource : e.source = .fileBacked) (hmap : e.mapping ≠ none)
      (hdirty : (s.pte fte.owner page).dirty = true) (hdeny : (s.files e.file).denyWriteCnt = 0)
      (h : evictToFile (s.setFile e.file { s.files e.file with
        contents := overwrite 0 (s.files e.file).contents e.ofs
          ((s.mem fte.frame).bytes e.readBytes) }) fte page e = some x)
  | swapped {b i} (hmap : e.source = .fileBacked → e.mapping = none)
      (hslots : s.swapSlots = some b) (hfree : b[i]? = some false)
      (h : x = (pagedirClearPage ((writeToBlock (s.setSwapSlots (b.set i true)) i
        (s.mem fte.frame)).setSpte fte.owner page
          (some { e with swapSlotIndex := some i, isLoaded := false, source := .swap }))
        fte.owner page, some fte.frame))

theorem Evicted.of_evictToSwap {fte : FrameTableEntry}
    (hmap : e.source = .fileBacked → e.mapping = none)
    (hev : evictToSwap s fte page e = some (s', r)) : Evicted s fte page e (s', r) := by
  simp only [evictToSwap] at hev
  split at hev
  · cases hev
  · rename_i b hslots
    split at hev
    · -- swap is full
      cases hev
      exact .kept rfl
    · rename_i i b' hscan
      obtain ⟨hfree, rfl⟩ := bitmapScanAndFlip_some hscan
      cases hev
      exact .swapped hmap hslots hfree rfl

theorem Evicted.of_evictEntry {fte : FrameTableEntry}
    (hev : evictEntry s fte page e grow = some (s', r)) : Evicted s fte page e (s', r) := by
  simp only [evictEntry] at hev
  split at hev
  · rename_i hsource
    split at hev
    · rename_i hdirty
      simp only [Bool.and_eq_true, pagedirIsDirty] at hdirty
      have hm := Option.isSome_iff_ne_none.mp hdirty.1
      rcases fileWriteAt_eq s e.file ((s.mem fte.frame).bytes e.readBytes) e.ofs grow with
        hw | ⟨hdeny, hw⟩
      · -- nothing was written, so the eviction fails, unless there was nothing to write
        simp only [hw] at hev
        split at hev
        · cases hev
          exact .kept rfl
        · exact .dropped hsource (fun hnone => absurd hnone hm) (fun _ _ => by omega) hev
      · simp only [hw, PageData.bytes_length, ne_eq, not_true_eq_false, if_false] at hev
        exact .written hsource hm hdirty.2 hdeny hev
    · rename_i hclean
      split at hev
      · rename_i huse
        simp only [Bool.and_eq_true, Option.isNone_iff_eq_none] at huse
        exact .of_evictToSwap (fun _ => huse.1) hev
      · rename_i huse
        refine .dropped hsource (fun hm => ?_) (fun hm hd => ?_) hev
        · simpa [hm] using huse
        · simp [pagedirIsDirty, hd, Option.isSome_iff_ne_none.mpr hm] at hclean
  · rename_i hsource
    exact .of_evictToSwap (fun h => absurd h hsource) hev

/-- The victim of `swap_evict_frame` is an entry of the table whose page has a
    supplemental entry. -/
theorem swapEvictFrame_cases {victim : Option Nat}
    (hev : swapEvictFrame s victim grow = some (s', r)) : s' = s ∧ r = none ∨
      ∃ i k q page e, victim = some i ∧ s.frameTable[i]? = some ⟨k, q, some page⟩ ∧
        s.spte q page = some e ∧ evictEntry (s.setFrameTable (s.frameTable.eraseIdx i))
          ⟨k, q, some page⟩ page e grow = some (s', r) := by
  simp only [swapEvictFrame] at hev
  split at hev
  · cases hev
    exact Or.inl ⟨rfl, rfl⟩
  · rename_i fte s₁ hpop
    obtain ⟨i, hi, hget, rfl, hevictable⟩ := frameTablePop_eq hpop
    simp only [evictable, Bool.and_eq_true, Option.any_eq_true] at hevictable
    obtain ⟨-, e, he, -⟩ := hevictable
    obtain ⟨page, haux, hspte⟩ := Option.bind_eq_some_iff.mp he
    obtain ⟨k, q, aux⟩ := fte
    subst haux
    simp only [Option.bind_some, State.spte_setFrameTable, hspte, Option.map_some] at hev
    exact Or.inr ⟨i, k, q, page, e, hi, hget, hspte, hev⟩

theorem PageData.bytes_getElem? (d : PageData) (n i : Nat) :
    (d.bytes n)[i]? = if i < n then some (d i) else none := by
  simp only [PageData.bytes, List.getElem?_map]
  split
  · rename_i hi
    rw [List.getElem?_range hi]
    rfl
  · rename_i hi
    rw [List.getElem?_eq_none (by simpa using hi)]
    rfl

/-- After a page of a mapping was written back, the file has its bytes. -/
theorem filePage_writeBack (hf : e.file = f) (d : PageData) {off : Nat} (hoff : off < e.readBytes) :
    filePage (s.setFile f
      { s.files f with contents := overwrite 0 (s.files f).contents e.ofs (d.bytes e.readBytes) })
      e off = d off := by
  have hwin : ¬ e.ofs + off < e.ofs := by omega
  simp only [filePage, if_pos hoff, State.setFile, hf, update_self, overwrite_getElem?,
    PageData.bytes_length, if_neg hwin, if_pos (Nat.add_lt_add_left hoff e.ofs)]
  rw [Nat.add_sub_cancel_left, PageData.bytes_getElem?, if_pos hoff]
  rfl

theorem Effects.of_evictToFile (hl : s.frameTable.Perm (⟨k, pid, some page⟩ :: l))
    (hspte : s.spte pid page = some e) (hp : (s.pte pid page).present = true)
    (hsource : e.source = .fileBacked) (hkeep : e.mapping = none → e.writable = false)
    (hclean : e.mapping ≠ none → (s.pte pid page).dirty = true →
      ∀ off < e.readBytes, filePage s e off = s.mem k off)
    (hev : evictToFile (s.setFrameTable l) ⟨k, pid, some page⟩ page e = some (s', r)) :
    Effects X img (s, none) (s', r) ∧ SamePages s s' := by
  rw [evictToFile_eq hp] at hev
  cases hev
  exact ⟨.single (.evictFile hl hspte hsource hkeep hclean), .unmapFrame hspte⟩

theorem Effects.of_evicted (hs : Shape s none) (hl : s.frameTable.Perm (⟨k, pid, some page⟩ :: l))
    (hspte : s.spte pid page = some e)
    (hev : Evicted (s.setFrameTable l) ⟨k, pid, some page⟩ page e (s', r)) :
    Effects X img (s, none) (s', r) ∧ SamePages s s' := by
  obtain ⟨hp, rfl⟩ := hs.frames.of_mem (hl.symm.subset (List.mem_cons_self ..))
  have hentry := hs.entries.entry _ _ _ hspte
  cases hev with
  | kept h =>
    cases h
    exact ⟨.single (.permute ((List.perm_append_singleton _ _).trans hl.symm)),
      fun _ => rfl, fun _ _ => Iff.rfl⟩
  | dropped hsource hkeep hclean h =>
    refine Effects.of_evictToFile hl hspte hp hsource hkeep (fun hm hd off hoff => ?_) h
    have := hclean hm hd
    omega
  | written hsource hmap hdirty hdeny h =>
    obtain ⟨m, hm⟩ := Option.ne_none_iff_exists'.mp hmap
    have hfile := (hentry.mapping m hm).2.1
    have hbytes : e.readBytes ≤ PGSIZE := by
      have := hentry.bytes hsource
      omega
    rw [hfile] at hdeny h
    have hwrite : Effect X img (s, none) _ := .writeBack hspte hm hp hdirty hbytes hdeny
    have hdrop : Effects X img _ (s', r) ∧ SamePages _ s' :=
      Effects.of_evictToFile
        (s := s.setFile m.file { s.files m.file with
          contents := overwrite 0 (s.files m.file).contents e.ofs
            ((s.mem (s.pte pid page).frame).bytes e.readBytes) })
        hl hspte hp hsource (by simp [hm]) (fun _ _ off hoff => filePage_writeBack hfile _ hoff) h
    exact ⟨.head hwrite hdrop.1, hdrop.2.phase, hdrop.2.spte⟩
  | @swapped b i hmap hslots hfree h =>
    cases h
    have hnone : e.mapping = none := by
      by_contra hne
      obtain ⟨m, hm⟩ := Option.ne_none_iff_exists'.mp hne
      exact hne (hmap (hentry.mapping m hm).1)
    have hsame : SamePages s (s.unmapFrame l pid page
        (some { e with swapSlotIndex := some i, isLoaded := false, source := .swap })) :=
      .unmapFrame hspte
    rw [pagedirClearPage, State.pte_setSpte, if_pos (by exact hp)]
    exact ⟨.single (.evictSwap hl hspte hnone hslots hfree), hsame.phase, hsame.spte⟩

theorem Effects.of_swapEvictFrame {victim : Option Nat}
    (hs : Shape s none) (hev : swapEvictFrame s victim grow = some (s', r)) :
    Effects X img (s, none) (s', r) ∧ SamePages s s' := by
  rcases swapEvictFrame_cases hev with ⟨rfl, rfl⟩ | ⟨i, k, q, page, e, -, hi, hspte, hev⟩
  · exact ⟨.refl, .refl _⟩
  · exact Effects.of_evicted hs (perm_eraseIdx hi) hspte (.of_evictEntry hev)

/-! ## Page faults -/

theorem frameTableRemove_append (pid : Pid) (aux : Option PageNo)
    (hk : k ∉ s.frameTable.map (·.frame)) :
    frameTableRemove (s.setFrameTable (s.frameTable ++ [⟨k, pid, aux⟩])) k = s := by
  have hne : ∀ fte ∈ s.frameTable, ¬ fte.frame = k := by
    intro fte hm heq
    exact hk (heq ▸ List.mem_map_of_mem hm)
  simp only [frameTableRemove, State.setFrameTable]
  rw [List.eraseP_append_right _ (by simpa using hne)]
  simp

theorem frameTableSetAux_append (pid : Pid) (page : PageNo) (hk : k ∉ s.frameTable.map (·.frame)) :
    frameTableSetAux (s.setFrameTable (s.frameTable ++ [⟨k, pid, none⟩])) k page =
      s.setFrameTable (s.frameTable ++ [⟨k, pid, some page⟩]) := by
  have hne : ∀ fte ∈ s.frameTable, ¬ fte.frame = k := by
    intro fte hm heq
    exact hk (heq ▸ List.mem_map_of_mem hm)
  simp only [frameTableSetAux, State.setFrameTable, List.map_append, List.map_cons, List.map_nil,
    if_true]
  rw [List.map_congr_left fun fte hm => if_neg (hne fte hm), List.map_id']

theorem installPage_cases (s : State) (pid : Pid) (page : PageNo) (k : Frame)
    (writable pageTable : Bool) :
    installPage s pid page k writable pageTable = none ∨
      installPage s pid page k writable pageTable = some (false, s) ∨
      (s.pte pid page).present = false ∧ installPage s pid page k writable pageTable =
        some (true, s.setPte pid page ⟨true, k, writable, false⟩) := by
  simp only [installPage]
  split
  · split
    · rename_i hfree
      simp only [Bool.and_eq_true, pagedirGetPage] at hfree
      refine Or.inr (Or.inr ⟨?_, rfl⟩)
      by_contra hp
      simp [hp] at hfree
    · exact Or.inr (Or.inl rfl)
  · exact Or.inl rfl

theorem frameTable_swapFreeSlot (s : State) (i : Option Nat) :
    (swapFreeSlot s i).frameTable = s.frameTable := by
  simp only [swapFreeSlot]
  split
  · split <;> rfl
  · rfl

theorem swapFreeSlot_setPte (l : List FrameTableEntry) (t : Pte) (i : Option Nat) :
    swapFreeSlot ((s.setFrameTable l).setPte pid page t) i =
      ((swapFreeSlot s i).setFrameTable l).setPte pid page t := by
  have hslots : ((s.setFrameTable l).setPte pid page t).swapSlots = s.swapSlots := rfl
  simp only [swapFreeSlot, hslots]
  cases s.swapSlots with
  | none => rfl
  | some b =>
    cases i with
    | none => rfl
    | some i =>
      simp only
      split <;> rfl

/-- How `page_fault` ends once the frame has its contents: the page could not
    be installed and the frame is given back, or it is mapped. -/
theorem faultInstall_cases {existing pageTable : Bool} (hk : k ∉ s.frameTable.map (·.frame))
    (hi : faultInstall (s.setFrameTable (s.frameTable ++ [⟨k, pid, none⟩])) pid page k e existing
      pageTable = some s') :
    (pallocFreePage (if existing then s else s.setSpte pid page none) k).map (Vm.exit · pid) =
        some s' ∨
      (s.pte pid page).present = false ∧
        s' = if (existing && !e.isLoaded && e.source = .swap) = true then
            (swapFreeSlot s e.swapSlotIndex).mapFrame pid page k
              { e with
                swapSlotIndex := none, isLoaded := true
                source := if e.mapping.isSome then .fileBacked else e.source }
          else s.mapFrame pid page k { e with isLoaded := true } := by
  have hremove := frameTableRemove_append pid (some page) hk
  simp only [faultInstall, frameTableSetAux_append _ _ hk] at hi
  rcases installPage_cases (s.setFrameTable (s.frameTable ++ [⟨k, pid, some page⟩])) pid page k
    e.writable pageTable with hin | hin | ⟨hp, hin⟩
  · rw [hin] at hi
    cases hi
  · rw [hin] at hi
    simp only [hremove] at hi
    exact Or.inl hi
  · refine Or.inr ⟨hp, ?_⟩
    rw [hin] at hi
    simp only at hi
    split at hi
    · rename_i hre
      rw [if_pos hre]
      cases hi
      rw [swapFreeSlot_setPte, State.setPte_setSpte_comm, State.mapFrame,
        frameTable_swapFreeSlot]
    · rename_i hre
      rw [if_neg hre]
      cases hi
      rw [State.setPte_setSpte_comm]
      rfl

theorem mapFrame_setSpte (x : Option SupPageTableEntry) (e : SupPageTableEntry) :
    (s.setSpte pid page x).mapFrame pid page k e = s.mapFrame pid page k e := by
  have hcomm : (s.setSpte pid page x).setFrameTable
      ((s.setSpte pid page x).frameTable ++ [⟨k, pid, some page⟩]) =
      (s.setFrameTable (s.frameTable ++ [⟨k, pid, some page⟩])).setSpte pid page x := rfl
  rw [State.mapFrame, hcomm, State.setSpte_setSpte, State.mapFrame]

/-- A page read from its file has the contents the file has. -/
theorem copyIn_clear_eq_filePage {d : PageData} (hbytes : e.readBytes + e.zeroBytes = PGSIZE)
    (hlen : (fileReadAt s e.file e.readBytes e.ofs).length = e.readBytes) {off : Nat}
    (hoff : off < PGSIZE) :
    ((d.copyIn (fileReadAt s e.file e.readBytes e.ofs)).clear e.readBytes e.zeroBytes) off =
      filePage s e off := by
  simp only [PageData.clear, PageData.copyIn, filePage]
  by_cases hr : off < e.readBytes
  · have hget : (fileReadAt s e.file e.readBytes e.ofs)[off]? =
        (s.files e.file).contents[e.ofs + off]? := by
      rw [fileReadAt, slice_getElem?, if_pos hr]
    obtain ⟨v, hv⟩ : ∃ v, (fileReadAt s e.file e.readBytes e.ofs)[off]? = some v :=
      ⟨_, List.getElem?_eq_getElem (by rw [hlen]; exact hr)⟩
    rw [if_neg (by omega), if_pos hr, ← hget, hv]
    rfl
  · rw [if_pos (by omega), if_neg hr]

/-- `faultRead` fills the held frame with the contents of an unloaded page. -/
theorem faultRead_cases (hbytes : e.source = .fileBacked → e.readBytes + e.zeroBytes = PGSIZE)
    (hf : faultRead s e k = some s') :
    (e.isLoaded = true ∨ e.source = .zero) ∧ s' = s ∨
      ∃ d, s' = s.setMem k d ∧ e.isLoaded = false ∧
        (e.source = .fileBacked ∧ (∀ off < PGSIZE, d off = filePage s e off) ∨
          e.source = .swap ∧ ∃ i b, e.swapSlotIndex = some i ∧ s.swapSlots = some b ∧
            i < b.length ∧ ∀ off < PGSIZE, d off = slotData s i off) := by
  cases hload : e.isLoaded with
  | true =>
    simp only [faultRead, hload, Bool.not_true, Bool.false_and, Bool.false_eq_true, if_false] at hf
    cases hf
    exact Or.inl ⟨Or.inl rfl, rfl⟩
  | false =>
    cases hsource : e.source with
    | zero =>
      simp only [faultRead, hload, hsource, reduceCtorEq, decide_false, Bool.and_false,
        Bool.false_eq_true, if_false] at hf
      cases hf
      exact Or.inl ⟨Or.inr rfl, rfl⟩
    | fileBacked =>
      simp only [faultRead, hload, hsource, Bool.not_false, decide_true, Bool.and_self,
        if_true] at hf
      split at hf
      · cases hf
      · rename_i hlen
        cases hf
        refine Or.inr ⟨_, rfl, rfl, Or.inl ⟨rfl, fun off hoff => ?_⟩⟩
        exact copyIn_clear_eq_filePage (hbytes hsource) (not_not.mp hlen) hoff
    | swap =>
      simp only [faultRead, swapReclaimPage, hload, hsource] at hf
      obtain ⟨d, hd, rfl⟩ := Option.map_eq_some_iff.mp (by simpa using hf)
      simp only [swapReadSlot] at hd
      split at hd
      · rename_i b i hslots hslot
        split at hd
        · rename_i hlt
          cases hd
          exact Or.inr ⟨_, rfl, rfl, Or.inr ⟨rfl, i, b, hslot, hslots, hlt,
            fun off hoff => readFromBlock_apply s i _ hoff⟩⟩
        · cases hd
      · cases hd

/-- `page_fault` on a page that has an entry, once it has a frame. -/
theorem Effects.of_faultExisting {pageTable : Bool} {s₁ : State}
    (hs : Shape s (some k)) (hphase : (s.procs pid).phase = .running)
    (hspte : s.spte pid page = some e)
    (hread : faultRead (s.setFrameTable (s.frameTable ++ [⟨k, pid, none⟩])) e k = some s₁)
    (hi : faultInstall s₁ pid page k e true pageTable = some s') :
    Effects X img (s, some k) (s', none) := by
  have hk := hs.frames.held_not_mem
  have hlive : (s.procs pid).phase ≠ .dead := by simp [hphase]
  have hentry := hs.entries.entry _ _ _ hspte
  rcases faultRead_cases hentry.bytes hread with ⟨hload, rfl⟩ | ⟨d, rfl, hload, hdata⟩
  · -- the page is present already, so it cannot be installed again
    have hpres := hs.frames.present hspte (hload.elim id hentry.zero)
    rcases faultInstall_cases hk hi with hfail | ⟨hp, -⟩
    · exact .of_free_exit hlive hfail
    · simp [hpres] at hp
  · refine .head (.fill d) ?_
    have hmem : (s.setMem k d).mem k = d := by simp [State.setMem]
    rcases faultInstall_cases (s := s.setMem k d) hk hi with hfail | ⟨hp, rfl⟩
    · exact Effects.of_free_exit (s := s.setMem k d) hlive hfail
    · rcases hdata with ⟨hsource, hdata⟩ | ⟨hsource, i, b, hslot, hslots, hlt, hdata⟩
      · rw [if_neg (by simp [hsource])]
        exact .single (.installFile hphase hspte hload hsource (by rw [hmem]; exact hdata))
      · have hmap : e.mapping = none := by
          cases hm : e.mapping with
          | none => rfl
          | some m => simp [(hentry.mapping m hm).1] at hsource
        have hsrc : (if e.mapping.isSome then .fileBacked else e.source) = e.source := by
          simp [hmap]
        have hfree : swapFreeSlot (s.setMem k d) e.swapSlotIndex =
            (s.setMem k d).setSwapSlots (b.set i false) := by
          have hslots : (s.setMem k d).swapSlots = some b := hslots
          simp only [swapFreeSlot, hslots, hslot, if_pos hlt]
        rw [if_pos (by simp [hload, hsource]), hsrc, hfree]
        exact .single (.installSwap (s := s.setMem k d) hphase hspte hload hsource hslot hslots
          (by rw [hmem]; exact hdata))

/-- How `page_fault` goes on once it has a frame: it gives the frame back, or
    maps it as a new stack page, or fills it for the page's entry. -/
theorem faultFill_cases (hk : k ∉ s.frameTable.map (·.frame))
    (hf : faultFill s pid page k a = some s') :
    (pallocFreePage s k).map (Vm.exit · pid) = some s' ∨
      s.spte pid page = none ∧ s' = s.mapFrame pid page k { SupPageTableEntry.fresh with
        isLoaded := true } ∨
      ∃ e s₁, s.spte pid page = some e ∧
        faultRead (s.setFrameTable (s.frameTable ++ [⟨k, pid, none⟩])) e k = some s₁ ∧
        faultInstall s₁ pid page k e true a.pageTable = some s' := by
  simp only [faultFill, frameTableAdd] at hf
  split at hf
  · exact Or.inl hf
  · rename_i s₁ hadd
    obtain ⟨-, hadd⟩ := Option.ite_none_right_eq_some.mp hadd
    cases hadd
    simp only [State.spte_setFrameTable] at hf
    split at hf
    · rename_i hspte
      simp only [supPageTableAdd, State.spte_setFrameTable, hspte] at hf
      split at hf
      · rw [frameTableRemove_append _ _ hk] at hf
        exact Or.inl hf
      · rename_i e s₂ hadd
        obtain ⟨-, hadd⟩ := Option.ite_none_right_eq_some.mp hadd
        cases hadd
        rcases faultInstall_cases (s := s.setSpte pid page (some .fresh)) hk hf with
          hfail | ⟨-, rfl⟩
        · simp only [Bool.false_eq_true, if_false, State.setSpte_setSpte,
            State.setSpte_eq_self _ _ _ hspte] at hfail
          exact Or.inl hfail
        · rw [if_neg (by simp), mapFrame_setSpte]
          exact Or.inr (Or.inl ⟨hspte, rfl⟩)
    · rename_i e hspte
      split at hf
      · rw [frameTableRemove_append _ _ hk] at hf
        exact Or.inl hf
      · rename_i s₂ hread
        exact Or.inr (Or.inr ⟨e, s₂, hspte, hread, hf⟩)

theorem Effects.of_faultFill (hs : Shape s (some k)) (hphase : (s.procs pid).phase = .running)
    (himg : s.spte pid page = none → img pid page = none)
    (hf : faultFill s pid page k a = some s') : Effects X img (s, some k) (s', none) := by
  rcases faultFill_cases hs.frames.held_not_mem hf with
    hfail | ⟨hspte, rfl⟩ | ⟨e, s₁, hspte, hread, hi⟩
  · exact .of_free_exit (by simp [hphase]) hfail
  · exact .single (.installNew hphase hspte (himg hspte))
  · exact .of_faultExisting hs hphase hspte hread hi

theorem faultFrame_cases (hf : faultFrame s a = some (s', r)) :
    (∃ k, pallocGetPage s = some (k, s') ∧ r = some k) ∨
      pallocGetPage s = none ∧ swapEvictFrame s a.victim a.grow = some (s', r) := by
  simp only [faultFrame] at hf
  split at hf
  · rename_i k s₁ hk
    cases hf
    exact Or.inl ⟨k, hk, rfl⟩
  · rename_i hnone
    exact Or.inr ⟨hnone, hf⟩

theorem Effects.of_faultFrame (hs : Shape s none) (hf : faultFrame s a = some (s', r)) :
    Effects X img (s, none) (s', r) ∧ SamePages s s' := by
  rcases faultFrame_cases hf with ⟨k, hk, rfl⟩ | ⟨-, hev⟩
  · refine ⟨.single (.of_pallocGetPage hk), ?_⟩
    rw [(pallocGetPage_eq hk).2]
    exact ⟨fun _ => rfl, fun _ _ => Iff.rfl⟩
  · exact Effects.of_swapEvictFrame hs hev

/-- How `page_fault` ends: the process is killed, there is no frame, or the page
    is filled. -/
theorem pageFault_cases {f : PageFault} (hf : pageFault s pid f a = some s') :
    s' = Vm.exit s pid ∨
      (∃ s₁, faultFrame s a = some (s₁, none) ∧ s' = Vm.exit s₁ pid) ∨
      ∃ s₁ k, faultFrame s a = some (s₁, some k) ∧
        faultFill s₁ pid (f.faultAddr / PGSIZE) k a = some s' := by
  simp only [pageFault] at hf
  split at hf
  case isFalse => cases hf
  split at hf
  · exact Or.inl (Option.some.inj hf).symm
  split at hf
  · exact Or.inl (Option.some.inj hf).symm
  split at hf
  · cases hf
  · rename_i s₁ hframe
    exact Or.inr (Or.inl ⟨s₁, hframe, (Option.some.inj hf).symm⟩)
  · rename_i s₁ k hframe
    exact Or.inr (Or.inr ⟨s₁, k, hframe, hf⟩)

/-- What the image knows about processes that have not started and pages that
    do not exist. -/
structure ImageOk (s : State) (img : Image) : Prop where
  absent : ∀ pid page, s.spte pid page = none → img pid page = none
  loading : ∀ pid, (s.procs pid).phase = .loading → ∀ page, img pid page = none

theorem Effects.of_pageFault {f : PageFault} (hs : Shape s none)
    (himg : ImageOk s img) (hphase : (s.procs pid).phase = .running)
    (hf : pageFault s pid f a = some s') : Effects X img (s, none) (s', none) := by
  rcases pageFault_cases hf with rfl | ⟨s₁, hframe, rfl⟩ | ⟨s₁, k, hframe, hf⟩
  · exact .single (.exit (by simp [hphase]))
  · have hof : Effects X img (s, none) (s₁, _) ∧ _ := Effects.of_faultFrame hs hframe
    obtain ⟨heff, hsame⟩ := hof
    exact heff.tail (.exit (by simp [hsame.phase, hphase]))
  · have hof : Effects X img (s, none) (s₁, _) ∧ _ := Effects.of_faultFrame hs hframe
    obtain ⟨heff, hsame⟩ := hof
    exact heff.trans (Effects.of_faultFill (hs.effects heff) (by simp [hsame.phase, hphase])
      (fun hn => himg.absent _ _ ((hsame.spte _ _).mp hn)) hf)

/-! ## Loading -/

theorem Effects.of_loadSegmentPages (writable : Bool) (malloc : PageNo → Bool)
    (n ofs : Nat) (page : PageNo) (readBytes zeroBytes : Nat) (hphase : (s.procs pid).phase = .loading)
    (hexe : (s.procs pid).exe = some f) (himg : ∀ page, img pid page = none) :
    Effects X img (s, none)
        ((loadSegmentPages pid f writable malloc n ofs page readBytes zeroBytes s).2, none) ∧
      ((loadSegmentPages pid f writable malloc n ofs page readBytes zeroBytes s).2.procs pid).phase =
        .loading := by
  induction n generalizing s ofs page readBytes zeroBytes with
  | zero => exact ⟨.refl, hphase⟩
  | succ n ih =>
    simp only [loadSegmentPages]
    split
    · exact ⟨.refl, hphase⟩
    · rename_i s₁ hadd
      simp only [supPageTableAddFile] at hadd
      split at hadd
      · cases hadd
        exact ih _ _ _ _ hphase hexe
      · rename_i hspte
        split at hadd
        · cases hadd
          obtain ⟨heff, hph⟩ := ih _ _ _ _ (s := s.setSpte pid page _) (by simpa using hphase)
            (by simpa using hexe)
          refine ⟨.head (.addExe hphase hexe hspte (himg page) ?_) heff, hph⟩
          split <;> omega
        · cases hadd

theorem Effects.of_loadSegment {ofs readBytes zeroBytes : Nat} {writable : Bool}
    {malloc : PageNo → Bool} (himg : ImageOk s img) (hphase : (s.procs pid).phase = .loading)
    (hexe : (s.procs pid).exe = some f)
    (hl : loadSegment s pid f ofs page readBytes zeroBytes writable malloc = some s') :
    Effects X img (s, none) (s', none) := by
  simp only [loadSegment] at hl
  split at hl
  · cases hl
    obtain ⟨heff, hph⟩ := Effects.of_loadSegmentPages (X := X) writable malloc
      ((readBytes + zeroBytes) / PGSIZE) ofs page readBytes zeroBytes hphase hexe
      (himg.loading pid hphase)
    split
    · exact heff
    · exact heff.tail (.exit (by simp [hph]))
  · cases hl

/-- A page table entry that was written and cleared again. -/
theorem Effects.of_clear_free_exit {t : Pte} (hp : (s.pte pid page).present = false)
    (hlive : (s.procs pid).phase ≠ .dead) (ht : t.present = true)
    (hf : (pallocFreePage (pagedirClearPage (s.setPte pid page t) pid page) k).map
      (Vm.exit · pid) = some s') : Effects X img (s, some k) (s', none) := by
  have hclear : pagedirClearPage (s.setPte pid page t) pid page =
      s.setPte pid page { t with present := false } := by
    simp [pagedirClearPage, ht, State.setPte_setPte]
  rw [hclear] at hf
  exact .head (.stalePte hp rfl) (Effects.of_free_exit (by simpa using hlive) hf)

/-- `setup_stack` once the page is installed and has the entry `e`, which is
    new or comes from a segment that covers the page. -/
theorem Effects.of_setupStackTable {x : Option SupPageTableEntry}
    {malloc : Bool} (hs : Shape s (some k)) (hphase : (s.procs pid).phase = .loading)
    (himg : img pid stackPage = none)
    (hspte : s.spte pid stackPage = some e ∨ s.spte pid stackPage = none ∧ e = .fresh)
    (hp : (s.pte pid stackPage).present = false)
    (hf : setupStackTable ((s.setPte pid stackPage ⟨true, k, true, false⟩).setSpte pid stackPage x)
      pid k e malloc = some s') : Effects X img (s, some k) (s', none) := by
  have hk := hs.frames.held_not_mem
  simp only [setupStackTable, frameTableAdd] at hf
  split at hf
  · rw [State.setSpte_setSpte, State.setPte_setSpte_comm] at hf
    have hlive : ((s.setSpte pid stackPage none).procs pid).phase ≠ .dead := by simp [hphase]
    have hfree : Effects X img (s.setSpte pid stackPage none, some k) (s', none) :=
      Effects.of_clear_free_exit (by simpa using hp) hlive rfl hf
    rcases hspte with hspte | ⟨hspte, -⟩
    · obtain ⟨hload, hsource, -⟩ := (hs.entries.entry _ _ _ hspte).loading hphase
      exact .head (.remove hspte hload hsource) hfree
    · rwa [State.setSpte_eq_self _ _ _ hspte] at hfree
  · rename_i s₁ hadd
    split at hadd
    · cases hadd
      have haux : frameTableSetAux _ k stackPage = State.setFrameTable _ _ :=
        frameTableSetAux_append (s := ((s.setPte pid stackPage ⟨true, k, true, false⟩).setSpte
          pid stackPage x).setSpte pid stackPage
            (some { e with writable := true, isLoaded := true })) pid stackPage hk
      have hs' : s' = (s.mapFrame pid stackPage k
          { e with writable := true, isLoaded := true }).setPhase pid .running := by
        refine (Option.some.inj hf).symm.trans
          (congrArg (State.setPhase · pid .running) (haux.trans ?_))
        rw [State.setSpte_setSpte, State.setPte_setSpte_comm]
        rfl
      rw [hs']
      exact .single (.installStack hphase hspte himg)
    · cases hadd

theorem Effects.of_setupStack (hs : Shape s none) (himg : ImageOk s img)
    (hphase : (s.procs pid).phase = .loading) (hf : setupStack s pid a = some s') :
    Effects X img (s, none) (s', none) := by
  simp only [setupStack] at hf
  split at hf
  · cases hf
    exact .single (.exit (by simp [hphase]))
  · rename_i k s₁ hk
    have halloc : Effect X img (s, none) (s₁, some k) := .of_pallocGetPage hk
    have hs₁ : Shape s₁ (some k) := hs.effect halloc
    have hphase₁ : (s₁.procs pid).phase = .loading := by
      rw [(pallocGetPage_eq hk).2]
      exact hphase
    have hlive₁ : (s₁.procs pid).phase ≠ .dead := by simp [hphase₁]
    refine .head halloc ?_
    rcases installPage_cases s₁ pid stackPage k true a.pageTable with hin | hin | ⟨hp, hin⟩
    · rw [hin] at hf
      cases hf
    · rw [hin] at hf
      exact Effects.of_free_exit hlive₁ hf
    · rw [hin] at hf
      simp only [supPageTableAdd, State.spte_setPte] at hf
      cases hspte : s₁.spte pid stackPage with
      | some e =>
        simp only [hspte] at hf
        rw [← State.setSpte_eq_self (s₁.setPte _ _ _) pid stackPage rfl] at hf
        exact Effects.of_setupStackTable hs₁ hphase₁ (himg.loading pid hphase _) (Or.inl hspte)
          hp hf
      | none =>
        simp only [hspte] at hf
        split at hf
        · exact Effects.of_clear_free_exit hp hlive₁ rfl hf
        · rename_i e s₂ hadd
          obtain ⟨-, hadd⟩ := Option.ite_none_right_eq_some.mp hadd
          cases hadd
          exact Effects.of_setupStackTable hs₁ hphase₁ (himg.loading pid hphase _)
            (Or.inr ⟨hspte, rfl⟩) hp hf

/-! ## Mappings -/

/-- Adding an entry for an absent page dirties no mapping. -/
theorem DirtyMapping.of_setSpte (hp : (s.pte pid page).present = false)
    (hd : DirtyMapping (s.setSpte pid page (some e)) f) : DirtyMapping s f := by
  obtain ⟨q, r, e', m, hspte, hm, hf, hpres, hdirty⟩ := hd
  rw [State.pte_setSpte] at hpres hdirty
  rw [State.spte_setSpte] at hspte
  split at hspte
  · rename_i hqr
    obtain ⟨rfl, rfl⟩ := hqr
    simp [hp] at hpres
  · exact ⟨q, r, e', m, hspte, hm, hf, hpres, hdirty⟩

/-- The loop of `mmap_file` adds pages of the mapping, none of them loaded. -/
theorem Effects.of_mmapPages (malloc : PageNo → Bool) (n ofs : Nat)
    (page : PageNo) (hs : Shape s none) (hphase : (s.procs pid).phase = .running)
    (hid : m.mapid < (s.procs pid).nextMapid)
    (hclean : m.file ∈ X → ¬ DirtyMapping s m.file)
    (himg : ∀ page, s.spte pid page = none → img pid page = none)
    (hfresh : ∀ r e, s.spte pid r = some e → e.mapping = some m → e.ofs < ofs)
    (hofs : n ≠ 0 → ofs % PGSIZE = 0) (hn : n ≤ mappingPages (m.length - ofs)) :
    Effects X img (s, none) ((mmapPages pid m malloc n ofs page s).2, none) := by
  induction n generalizing s ofs page with
  | zero => exact .refl
  | succ n ih =>
    simp only [mmapPages]
    split
    · exact .refl
    split
    · exact .refl
    · rename_i hnone _
      have hspte : s.spte pid page = none := by simpa using hnone
      have hofs := hofs (by omega)
      have hlt : ofs < ofs + pageReadBytes m.length ofs := by
        simp only [mappingPages, PGSIZE] at hn
        simp only [pageReadBytes, PGSIZE]
        split <;> omega
      have hadd : Effect X img (s, none) (s.setSpte pid page (some (mappingEntry m ofs)), none) :=
        .addMapping hphase hspte (himg page hspte) hid hofs
          (fun r e he hm heq => by have := hfresh r e he hm; omega) hclean
      have hp := hs.frames.not_present (by simp [hspte] : ∀ e, s.spte pid page = some e → _)
      have himg' : ∀ r, (s.setSpte pid page (some (mappingEntry m ofs))).spte pid r = none →
          img pid r = none := by
        intro r hr
        rw [State.spte_setSpte] at hr
        split at hr
        · cases hr
        · exact himg r hr
      have hfresh' : ∀ r e, (s.setSpte pid page (some (mappingEntry m ofs))).spte pid r = some e →
          e.mapping = some m → e.ofs < ofs + pageReadBytes m.length ofs := by
        intro r e he hm
        rw [State.spte_setSpte] at he
        split at he
        · cases he
          exact hlt
        · exact Nat.lt_trans (hfresh r e he hm) hlt
      have hofs' : n ≠ 0 → (ofs + pageReadBytes m.length ofs) % PGSIZE = 0 := by
        intro hne
        simp only [mappingPages, PGSIZE] at hn
        simp only [pageReadBytes, PGSIZE] at hofs ⊢
        split <;> omega
      have hn' : n ≤ mappingPages (m.length - (ofs + pageReadBytes m.length ofs)) := by
        simp only [mappingPages, pageReadBytes, PGSIZE] at hn ⊢
        split <;> omega
      exact .head hadd (ih _ (nextPage page) (hs.effect hadd) (by simpa using hphase)
        (by simpa using hid) (fun hX hd => hclean hX (hd.of_setSpte hp)) himg' hfresh' hofs' hn')

theorem Effects.of_mmapFile {reopen create : Bool} {malloc : PageNo → Bool}
    (hs : Shape s none) (himg : ImageOk s img) (hphase : (s.procs pid).phase = .running)
    (hclean : f ∈ X → ¬ DirtyMapping s f) :
    Effects X img (s, none) ((mmapFile s pid f page reopen create malloc).2, none) := by
  rcases hrun : mmapFile s pid f page reopen create malloc with ⟨_ | id, s'⟩
  · rcases mmapFile_none hs.entries.not_new hrun with rfl | ⟨n, hn, rfl⟩
    · exact .refl
    · exact .single (.mappings hn)
  · obtain ⟨spt, hloop, rfl, rfl, -, -⟩ := mmapFile_some hrun
    let m : MemoryMapping := ⟨f, page, (s.files f).contents.length, (s.procs pid).nextMapid⟩
    let s₁ := s.setProc pid { s.procs pid with nextMapid := (s.procs pid).nextMapid + 1 }
    have hbump : Effect X img (s, none) (s₁, none) := .mappings (Nat.le_succ _)
    have hspte : ∀ q r, s₁.spte q r = s.spte q r := State.spte_setTables _ _
    have hpte : ∀ q r, s₁.pte q r = s.pte q r := State.pte_setTables _ _
    have hpages : Effects X img (s₁, none) _ :=
      Effects.of_mmapPages (m := m) malloc (mappingPages m.length) 0 page (hs.effect hbump)
        (by simpa [s₁] using hphase) (by simp [s₁, m])
        (fun hX hd => hclean hX (by simpa only [DirtyMapping, hspte, hpte] using hd))
        (fun r hr => himg.absent pid r (hspte pid r ▸ hr))
        (fun r e he hm => absurd rfl (hs.entries.not_new r e m (hspte pid r ▸ he) hm))
        (fun _ => rfl) (Nat.le_refl _)
    rw [hloop] at hpages
    have hlast : Effect X img (s₁.setSpt pid spt, none)
        ((s₁.setSpt pid spt).setProc pid { (s₁.setSpt pid spt).procs pid with
          mmapTable := (s.procs pid).mmapTable ++ [m]
          nextMapid := (s.procs pid).nextMapid + 1 }, none) :=
      .mappings (by simp [s₁, State.setSpt])
    refine .head hbump (hpages.tail ?_)
    simpa [s₁, State.setSpt, State.setProc] using hlast

theorem pageReadBytes_le (length ofs : Nat) : pageReadBytes length ofs ≤ PGSIZE := by
  simp only [pageReadBytes]
  split <;> omega

/-- `frame_table_remove_by_kpage` finds the entry of a present page. -/
theorem frameTableRemoveByKpage_eq (hs : FramesOk s h) (hp : (s.pte pid page).present = true) :
    (frameTableRemoveByKpage s (s.pte pid page).frame pid).1 = true ∧
      ∃ l, (frameTableRemoveByKpage s (s.pte pid page).frame pid).2 = s.setFrameTable l ∧
        s.frameTable.Perm (⟨(s.pte pid page).frame, pid, some page⟩ :: l) := by
  have hmem := (hs.frame pid page hp).2.1
  refine ⟨List.any_eq_true.mpr ⟨_, hmem, by simp⟩, _, rfl, ?_⟩
  obtain ⟨x, l₁, l₂, -, hx, hl, herase⟩ := List.exists_of_eraseP (p := fun fte =>
    decide (fte.frame = (s.pte pid page).frame ∧ fte.owner = pid)) hmem (by simp)
  have hx' : x = ⟨(s.pte pid page).frame, pid, some page⟩ :=
    hs.entry_unique (by rw [hl]; simp) hmem (by simpa using (of_decide_eq_true hx).1)
  rw [herase, hl, hx']
  exact List.perm_middle

/-- No entry is new or changed. -/
def FewerPages (s s' : State) : Prop :=
  ∀ q r e, s'.spte q r = some e → s.spte q r = some e

theorem FewerPages.setSpte (h : ∀ q r, s'.spte q r = s.spte q r) :
    FewerPages s (s'.setSpte pid page none) := by
  intro q r e he
  rw [State.spte_setSpte] at he
  split at he
  · cases he
  · rwa [← h]

theorem Effects.of_unmapWriteBack
    (grow : Bool) (hspte : s.spte pid page = some e) (hm : e.mapping = some m)
    (hp : (s.pte pid page).present = true) (hn : n ≤ PGSIZE) :
    Effects X img (s, none) (unmapWriteBack s pid m page (s.pte pid page).frame e n grow, none) ∧
      (unmapWriteBack s pid m page (s.pte pid page).frame e n grow).procs = s.procs := by
  simp only [unmapWriteBack]
  split
  · rename_i hdirty
    rcases fileWriteAt_eq s m.file ((s.mem (s.pte pid page).frame).bytes n) e.ofs grow with
      hw | ⟨hdeny, hw⟩
    · rw [hw]
      exact ⟨.refl, rfl⟩
    · rw [hw]
      exact ⟨.single (.writeBack hspte hm hp hdirty hn hdeny), rfl⟩
  · exact ⟨.refl, rfl⟩

/-- Unmapping a loaded page: it may be written back, then its frame is given
    back. -/
theorem Effects.of_unmapLoaded
    {s₁ : State} (hs : Shape s none) (hspte : s.spte pid page = some e) (hm : e.mapping = some m)
    (hload : e.isLoaded = true) (hn : n ≤ PGSIZE)
    (hu : unmapLoaded s pid m page e n grow = some s₁) :
    Effects X img (s, none) (s₁.setSpte pid page none, none) ∧
      FewerPages s (s₁.setSpte pid page none) := by
  have hp := hs.frames.present hspte hload
  have hget : pagedirGetPage s pid page = some (s.pte pid page).frame := by
    simp [pagedirGetPage, hp]
  simp only [unmapLoaded, hget] at hu
  have hwrite : Effects X img (s, none) _ ∧ _ :=
    Effects.of_unmapWriteBack grow hspte hm hp hn
  generalize unmapWriteBack s pid m page (s.pte pid page).frame e n grow = t at hu hwrite
  obtain ⟨heff, hprocs⟩ := hwrite
  have hpte : ∀ q r, t.pte q r = s.pte q r := fun q r => by rw [State.pte, hprocs, State.pte]
  have hspt : ∀ q r, t.spte q r = s.spte q r := fun q r => by rw [State.spte, hprocs, State.spte]
  have hpt : (t.pte pid page).present = true := by rw [hpte]; exact hp
  obtain ⟨hfound, l, hremove, hl⟩ := frameTableRemoveByKpage_eq (hs.effects heff).frames hpt
  rw [← hpte] at hu
  simp only [hfound, hremove, if_true] at hu
  obtain ⟨s₂, hfree, rfl⟩ := Option.map_eq_some_iff.mp hu
  rw [pallocFreePage_eq hfree]
  have hclear : ∀ {b : List Bool} {k : Frame} {d : PageData},
      (pagedirClearPage (((t.setFrameTable l).setUserPool b).setMem k d) pid page).setSpte pid page
        none = ((t.unmapFrame l pid page none).setUserPool b).setMem k d := by
    intro b k d
    have hpt' : ((((t.setFrameTable l).setUserPool b).setMem k d).pte pid page).present = true := hpt
    rw [pagedirClearPage, if_pos hpt', State.setPte_setSpte_comm]
    rfl
  rw [hclear]
  refine ⟨heff.trans (.head (.detach hl) (.single .free)), ?_⟩
  rw [← hclear]
  refine FewerPages.setSpte fun q r => ?_
  rw [pagedirClearPage]
  split <;> simp [hspt]

theorem Effects.of_unmapPage (hs : Shape s none)
    (hn : n ≤ PGSIZE) (hu : unmapPage s pid m page n grow tmp = some s') :
    Effects X img (s, none) (s', none) ∧ FewerPages s s' := by
  simp only [unmapPage] at hu
  split at hu
  · cases hu
    exact ⟨.refl, fun _ _ _ => id⟩
  · rename_i e hspte
    split at hu
    · rename_i hm
      have hsource := ((hs.entries.entry _ _ _ hspte).mapping m hm).1
      obtain ⟨s₁, hpage, rfl⟩ := Option.map_eq_some_iff.mp hu
      rw [if_neg (by simp [hsource])]
      split at hpage
      · rename_i hload
        exact Effects.of_unmapLoaded hs hspte hm hload hn hpage
      · rename_i hload
        cases hpage
        simp only [unmapSwapped, hsource, reduceCtorEq, false_and, if_false]
        exact ⟨.single (.remove hspte (by simpa using hload) hsource),
          .setSpte fun _ _ => rfl⟩
    · cases hu
      exact ⟨.refl, fun _ _ _ => id⟩

theorem Effects.of_unmapPages {ofs : Nat}
    (hs : Shape s none) (hu : unmapPages pid m grow tmp n ofs page s = some s') :
    Effects X img (s, none) (s', none) ∧ FewerPages s s' := by
  induction n generalizing s ofs page with
  | zero =>
    cases hu
    exact ⟨.refl, fun _ _ _ => id⟩
  | succ n ih =>
    obtain ⟨s₁, h₁, hu⟩ := Option.bind_eq_some_iff.mp hu
    have hstep : Effects X img (s, none) (s₁, none) ∧ FewerPages s s₁ :=
      Effects.of_unmapPage hs (pageReadBytes_le _ _) h₁
    obtain ⟨hrest, hfewer⟩ := ih (hs.effects hstep.1) hu
    exact ⟨hstep.1.trans hrest, fun q r e he => hstep.2 q r e (hfewer q r e he)⟩

theorem Effects.of_munmapFile {mapid : Nat} (hs : Shape s none)
    (hu : munmapFile s pid mapid grow tmp = some s') : Effects X img (s, none) (s', none) := by
  simp only [munmapFile] at hu
  split at hu
  · cases hu
    exact .refl
  · rename_i m _
    have htable : Effect X img (s, none) (s.setProc pid
        { s.procs pid with mmapTable := (s.procs pid).mmapTable.erase m }, none) :=
      .mappings (Nat.le_refl _)
    exact .head htable (Effects.of_unmapPages (hs.effect htable) hu).1

/-! ## The end of a process -/

theorem Effects.of_unmapAll {l : List MemoryMapping} (hs : Shape s none)
    (hu : memoryMappingTableUnmapAll pid grow tmp l s = some s') :
    Effects X img (s, none) (s', none) ∧ FewerPages s s' := by
  induction l generalizing s with
  | nil =>
    cases hu
    exact ⟨.refl, fun _ _ _ => id⟩
  | cons m rest ih =>
    obtain ⟨s₁, h₁, hu⟩ := Option.bind_eq_some_iff.mp hu
    have hstep : Effects X img (s, none) (s₁, none) ∧ FewerPages s s₁ :=
      Effects.of_unmapPages hs h₁
    obtain ⟨hrest, hfewer⟩ := ih (hs.effects hstep.1) hu
    exact ⟨hstep.1.trans hrest, fun q r e he => hstep.2 q r e (hfewer q r e he)⟩

/-- `pagedir_destroy` frees the frames of the present pages and nothing
    else. -/
theorem pagedirDestroy_eq {l : List Pte} (hd : pagedirDestroy l s = some s') :
    (∃ b d, s' = { s with userPool := b, mem := d }) ∧
      ∀ k, (∀ t ∈ l, t.present = true → t.frame ≠ k) →
        s'.userPool[k]? = s.userPool[k]? ∧ s'.mem k = s.mem k := by
  induction l generalizing s with
  | nil =>
    cases hd
    exact ⟨⟨_, _, rfl⟩, fun _ _ => ⟨rfl, rfl⟩⟩
  | cons t rest ih =>
    obtain ⟨s₁, h₁, hd⟩ := Option.bind_eq_some_iff.mp hd
    obtain ⟨⟨b, d, hs'⟩, hk⟩ := ih hd
    split at h₁
    · rename_i hp
      rw [pallocFreePage_eq h₁] at hs' hk
      refine ⟨⟨b, d, hs'⟩, fun k hne => ?_⟩
      obtain ⟨hpool, hmem⟩ := hk k fun t ht => hne t (List.mem_cons_of_mem _ ht)
      have hkne := hne t (List.mem_cons_self ..) hp
      refine ⟨hpool.trans ?_, hmem.trans ?_⟩
      · exact List.getElem?_set_ne hkne
      · simp only [State.setMem, State.setUserPool, update_apply]
        rw [if_neg (Ne.symm hkne)]
    · cases h₁
      exact ⟨⟨b, d, hs'⟩, fun k hne => hk k fun t ht => hne t (List.mem_cons_of_mem _ ht)⟩

/-- A page table entry of the directory is the entry of its page. -/
theorem exists_pte_of_mem {t : Pte} (ht : t ∈ (s.procs pid).pagedir.entries.map (·.2)) :
    ∃ page, s.pte pid page = t := by
  obtain ⟨⟨page, t'⟩, hmem, rfl⟩ := List.mem_map.mp ht
  refine ⟨page, ?_⟩
  have hlookup : (s.procs pid).pagedir.lookup page = some t' := AList.mem_lookup_iff.mpr hmem
  simp [State.pte, PageDir.pte, hlookup]

theorem allowWriteExe_eq (ha : allowWriteExe s pid = some s') :
    (∃ fs, s' = { s with files := fs }) ∧
      (∀ f, (s'.files f).contents = (s.files f).contents) ∧
      ∀ f, (s'.files f).denyWriteCnt =
        (s.files f).denyWriteCnt - if (s.procs pid).exe = some f then 1 else 0 := by
  simp only [allowWriteExe] at ha
  split at ha
  · rename_i hexe
    cases ha
    exact ⟨⟨_, rfl⟩, fun _ => rfl, fun f => by simp [hexe]⟩
  · rename_i f hexe
    split at ha
    · cases ha
    · cases ha
      refine ⟨⟨_, rfl⟩, fun g => ?_, fun g => ?_⟩
      · by_cases hg : g = f
        · subst hg; simp [State.setFile]
        · simp [State.setFile, hg]
      · by_cases hg : g = f
        · subst hg; simp [State.setFile, hexe]
        · simp [State.setFile, hg, hexe, Ne.symm hg]

/-- What `process_exit` does after it has unmapped the files. -/
theorem Reaped.of_exit (he : ((allowWriteExe s pid).bind fun s =>
      (pagedirDestroy (((frameTableRemoveOwnerFrames s pid).procs pid).pagedir.entries.map (·.2))
        (frameTableRemoveOwnerFrames s pid)).map fun s => s.setProc pid {}) = some s') :
    Reaped s s' pid := by
  obtain ⟨s₂, hallow, he⟩ := Option.bind_eq_some_iff.mp he
  obtain ⟨s₃, hdestroy, rfl⟩ := Option.map_eq_some_iff.mp he
  obtain ⟨⟨fs, rfl⟩, hcontents, hdeny⟩ := allowWriteExe_eq hallow
  obtain ⟨⟨b, d, rfl⟩, hframes⟩ := pagedirDestroy_eq hdestroy
  exact {
    procs := rfl
    frameTable := rfl
    frames := fun k hk => hframes k fun t ht hp => by
      obtain ⟨page, hpage⟩ := exists_pte_of_mem (s := s) ht
      rw [← hpage]
      exact hk page (hpage ▸ hp)
    swapSlots := rfl
    swapBlock := rfl
    contents := hcontents
    denyWriteCnt := hdeny }

theorem Effects.of_processExit (hs : Shape s none) (he : processExit s pid grow tmp = some s') :
    ∃ s₁, Effects X img (s, none) (s₁, none) ∧ FewerPages s s₁ ∧ Reaped s₁ s' pid := by
  obtain ⟨s₁, hunmap, he⟩ := Option.bind_eq_some_iff.mp he
  have hall : Effects X img (s, none) (s₁, none) ∧ FewerPages s s₁ := Effects.of_unmapAll hs hunmap
  exact ⟨s₁, hall.1, hall.2, .of_exit he⟩

/-! ## Steps -/

/-- A condition on steps: nothing but its own mapping writes a file of `X`. -/
def SoleWriter (X : Set FileId) (s : State) : Step → Prop
  | .mmap _ f _ _ _ _ => f ∈ X → ¬ DirtyMapping s f
  | .fileWrite f _ _ _ => f ∈ X → ¬ Mapped s f
  | .store pid addr _ => ∀ e m, s.spte pid (addr / PGSIZE) = some e → e.mapping = some m →
      m.file ∈ X → ∀ q r e' m', s.spte q r = some e' → e'.mapping = some m' → m'.file = m.file →
        q = pid ∧ m' = m
  | _ => True

/-- Every step but a store is a sequence of effects; a `process_exit` unmaps the
    files of the process and then reaps it. -/
theorem Effects.of_next {a : Step} (hs : Shape s none) (himg : ImageOk s img)
    (hok : SoleWriter X s a) (hstore : ∀ pid addr v, a ≠ .store pid addr v)
    (hn : next s a = some s') :
    Effects X img (s, none) (s', none) ∨
      ∃ pid s₁, (∃ grow tmp, a = .processExit pid grow tmp) ∧
        Effects X img (s, none) (s₁, none) ∧ FewerPages s s₁ ∧ Reaped s₁ s' pid := by
  cases a with
  | spawn pid f =>
    simp only [next] at hn
    split at hn
    · rename_i hdead
      cases hn
      exact Or.inl (.single (.spawn hdead fun page =>
        himg.absent pid page (hs.spte_dead hdead page)))
    · cases hn
  | loadSegment pid ofs page readBytes zeroBytes writable malloc =>
    simp only [next] at hn
    split at hn
    · rename_i hphase
      obtain ⟨f, hexe, hl⟩ := Option.bind_eq_some_iff.mp hn
      exact Or.inl (.of_loadSegment himg hphase hexe hl)
    · cases hn
  | setupStack pid a =>
    simp only [next] at hn
    split at hn
    · rename_i hphase
      exact Or.inl (.of_setupStack hs himg hphase hn)
    · cases hn
  | store pid addr v => exact absurd rfl (hstore pid addr v)
  | fault pid f write a =>
    simp only [next] at hn
    split at hn
    · rename_i hphase
      simp only [Bool.and_eq_true, decide_eq_true_eq] at hphase
      exact Or.inl (.of_pageFault hs himg hphase.1 hn)
    · cases hn
  | mmap pid f page reopen create malloc =>
    simp only [next] at hn
    split at hn
    · rename_i hphase
      cases hn
      exact Or.inl (.of_mmapFile hs himg hphase hok)
    · cases hn
  | munmap pid mapid grow tmp =>
    simp only [next] at hn
    split at hn
    · exact Or.inl (.of_munmapFile hs hn)
    · cases hn
  | fileWrite f data ofs grow =>
    cases hn
    rcases fileWriteAt_eq s f data ofs grow with hw | ⟨hdeny, hw⟩
    · rw [hw]
      exact Or.inl .refl
    · rw [hw]
      exact Or.inl (.single (.fileWrite hdeny hok))
  | exit pid =>
    simp only [next] at hn
    split at hn
    · cases hn
    · rename_i hlive
      cases hn
      exact Or.inl (.single (.exit hlive))
  | processExit pid grow tmp =>
    simp only [next] at hn
    split at hn
    · obtain ⟨s₁, heff, hfewer, hr⟩ := Effects.of_processExit (X := X) hs hn
      exact Or.inr ⟨pid, s₁, ⟨grow, tmp, rfl⟩, heff, hfewer, hr⟩
    · cases hn

/-- A user store writes a present page through a writable page table entry and
    marks it dirty. -/
theorem store_eq {addr : Nat} {v : UInt8} (hn : next s (.store pid addr v) = some s') :
    (s.procs pid).phase = .running ∧ (s.pte pid (addr / PGSIZE)).present = true ∧
      (s.pte pid (addr / PGSIZE)).writable = true ∧
      s' = (s.setMem (s.pte pid (addr / PGSIZE)).frame
        (update (s.mem (s.pte pid (addr / PGSIZE)).frame) (addr % PGSIZE) v)).setPte pid
          (addr / PGSIZE) { s.pte pid (addr / PGSIZE) with dirty := true } := by
  simp only [next] at hn
  split at hn
  · rename_i hphase
    simp only [userStore] at hn
    split at hn
    · rename_i hw
      simp only [Bool.and_eq_true] at hw
      exact ⟨hphase, hw.1.2, hw.2, (Option.some.inj hn).symm⟩
    · cases hn
  · cases hn

/-- A store keeps the structural invariant. -/
theorem Shape.store {addr : Nat} {v : UInt8} (hs : Shape s none)
    (hn : next s (.store pid addr v) = some s') : Shape s' none := by
  obtain ⟨-, -, -, rfl⟩ := store_eq hn
  exact (hs.setMem _ _).setPte rfl fun _ => ⟨rfl, rfl⟩

end Pintos.Vm
