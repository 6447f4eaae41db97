/-
  Pintos.Vm.MappedFile

  The life of a mapping, from `mmap` to `munmap` or the exit of its owner, as a
  run of the system with the bytes of the mapping beside the state.

  Other processes, other mappings of the same process and other mappings of
  the same file may do what they like, as long as nobody else writes the file
  and nobody runs it, which would deny writes.
-/

import Pintos.Vm.WriteBack

namespace Pintos.Vm

open Pintos.Base Pintos.Lib Function

variable {X : Set FileId} {img : Image} {pid q : Pid} {m m' : MemoryMapping} {w : List UInt8}
  {d j : Nat} {s s' : State} {page : PageNo} {k : Frame} {grow tmp : Bool} {r : Option Frame}

/-! ## Dirty pages -/

/-- What keeps the other mappings of the file clean: a dirty page of a mapping
    was one before. -/
theorem OthersClean.of_dirty (h : OthersClean pid m s)
    (hd : ∀ q r e m', s'.spte q r = some e → e.mapping = some m' →
      (s'.pte q r).present = true → (s'.pte q r).dirty = true →
      ∃ e₀, s.spte q r = some e₀ ∧ e₀.mapping = some m' ∧ (s.pte q r).present = true ∧
        (s.pte q r).dirty = true) : OthersClean pid m s' := by
  intro q r e m' he hm hf hp hdirty
  obtain ⟨e₀, he₀, hm₀, hp₀, hdirty₀⟩ := hd q r e m' he hm hp hdirty
  exact h q r e₀ m' he₀ hm₀ hf hp₀ hdirty₀

theorem OthersClean.congr (h : OthersClean pid m s) (hspte : ∀ q r, s'.spte q r = s.spte q r)
    (hpte : ∀ q r, s'.pte q r = s.pte q r) : OthersClean pid m s' :=
  h.of_dirty fun q r e _ he hm hp hd =>
    ⟨e, hspte q r ▸ he, hm, hpte q r ▸ hp, hpte q r ▸ hd⟩

/-- One page changes, and is not dirty afterwards. -/
theorem OthersClean.change (h : OthersClean pid m s) (page : PageNo) {p : Pid}
    {x : Option SupPageTableEntry} {t : Pte}
    (hspte : ∀ q r, s'.spte q r = if q = p ∧ r = page then x else s.spte q r)
    (hpte : ∀ q r, s'.pte q r = if q = p ∧ r = page then t else s.pte q r)
    (ht : t.present = true → t.dirty = false) : OthersClean pid m s' := by
  refine h.of_dirty fun q r e m' he hm hp hd => ?_
  rw [hpte] at hp hd
  rw [hspte] at he
  split at hp
  · rename_i hqr
    rw [if_pos hqr, ht hp] at hd
    cases hd
  · rename_i hqr
    rw [if_neg hqr] at he hd
    exact ⟨e, he, hm, hp, hd⟩

/-- No effect makes a page dirty. -/
theorem OthersClean.effect {x y : Held} (hs : Shape x.1 x.2) (h : OthersClean pid m x.1)
    (he : Effect X img x y) : OthersClean pid m y.1 := by
  cases he with
  | alloc | free | fill | permute | writeBack | fileWrite =>
    exact h.congr (fun _ _ => rfl) fun _ _ => rfl
  | installNew | installFile | installSwap =>
    exact h.change _ (fun q r => State.spte_mapFrame _ _ q _ r _ _)
      (fun q r => State.pte_mapFrame _ _ q _ r _ _) fun _ => rfl
  | @installStack s k p r₀ e =>
    refine h.change r₀ (p := p) (t := ⟨true, k, true, false⟩)
      (x := some { e with writable := true, isLoaded := true }) (fun q r => ?_) (fun q r => ?_)
      fun _ => rfl
    · rw [State.spte_setPhase]
      exact State.spte_mapFrame _ _ q _ r _ _
    · rw [State.pte_setPhase]
      exact State.pte_mapFrame _ _ q _ r _ _
  | evictFile | detach | evictSwap =>
    refine h.change _ (fun q r => State.spte_unmapFrame _ _ q _ r _ _)
      (fun q r => State.pte_unmapFrame _ _ q _ r _ _) fun hp => ?_
    cases hp
  | @remove s h₀ p r₀ e hspte hload =>
    refine h.change r₀ (p := p) (x := none) (t := s.pte p r₀)
      (fun q r => State.spte_setSpte _ _ q _ r _) (fun q r => ?_) fun hp => ?_
    · rw [State.pte_setSpte]
      split
      · rename_i hqr
        rw [hqr.1, hqr.2]
      · rfl
    · rw [hs.frames.isLoaded hspte hp] at hload
      cases hload
  | @addExe s h₀ p r₀ f ofs rb zb w hphase hexe hspte =>
    refine h.of_dirty fun q r e m' he hm hp hd => ?_
    rw [State.spte_setSpte] at he
    rw [State.pte_setSpte] at hp hd
    split at he
    · cases he
      cases hm
    · exact ⟨e, he, hm, hp, hd⟩
  | @addMapping s h₀ p r₀ m₀ ofs hphase hspte =>
    refine h.of_dirty fun q r e m' he hm hp hd => ?_
    rw [State.spte_setSpte] at he
    rw [State.pte_setSpte] at hp hd
    split at he
    · rename_i hqr
      -- a page without an entry is not present
      obtain ⟨rfl, rfl⟩ := hqr
      have habs := hs.frames.not_present
        (by simp [hspte] : ∀ e, s.spte q r = some e → e.isLoaded = false)
      rw [habs] at hp
      cases hp
    · exact ⟨e, he, hm, hp, hd⟩
  | exit =>
    exact h.congr (fun q r => State.spte_setPhase _ _ q r _) fun q r => State.pte_setPhase _ _ q r _
  | @mappings s h₀ p l n hn =>
    refine h.congr (fun q r => ?_) fun q r => ?_
    · rw [State.spte_setProc]
      split
      · rename_i hq; rw [hq]; rfl
      · rfl
    · rw [State.pte_setProc]
      split
      · rename_i hq; rw [hq]; rfl
      · rfl
  | @stalePte s h₀ p r₀ t hold hnew =>
    refine h.of_dirty fun q r e m' he hm hp hd => ?_
    rw [State.spte_setPte] at he
    rw [State.pte_setPte] at hp hd
    split at hp
    · rw [hnew] at hp
      cases hp
    · rename_i hqr
      rw [if_neg hqr] at hd
      exact ⟨e, he, hm, hp, hd⟩
  | @spawn s h₀ p f hdead =>
    refine h.of_dirty fun q r e m' he hm hp hd => ?_
    rw [State.spte_setProc] at he
    rw [State.pte_setProc] at hp hd
    split at he
    · cases he
    · rename_i hq
      rw [if_neg hq] at hp hd
      exact ⟨e, he, hm, hp, hd⟩

theorem OthersClean.effects {x y : Held} (hs : Shape x.1 x.2) (h : OthersClean pid m x.1)
    (he : Effects X img x y) : OthersClean pid m y.1 := by
  induction he with
  | refl => exact h
  | tail hpre he ih => exact ih.effect (hs.effects hpre) he

theorem OthersClean.reap (h : OthersClean pid m s) (hr : Reaped s s' q) : OthersClean pid m s' := by
  refine h.of_dirty fun p r e m' he hm hp hd => ?_
  by_cases hq : p = q
  · simp [State.spte, hr.procs, hq] at he
  · simp only [State.spte, State.pte, hr.procs, update_apply, if_neg hq] at he hp hd
    exact ⟨e, he, hm, hp, hd⟩

/-! ## Faults -/

/-- Whose the file of an evicted dirty page is. -/
theorem Backed.file_ne (h : Backed pid m w 0 s) (hs : Shape s none) (hc : OthersClean pid m s)
    {e : SupPageTableEntry} (hspte : s.spte q page = some e) (hown : ¬ Own pid m q page)
    (hp : (s.pte q page).present = true) (hmap : e.mapping ≠ none)
    (hdirty : (s.pte q page).dirty = true) : e.file ∉ ({m.file} : Set FileId) := by
  intro hfile
  obtain ⟨m', hm'⟩ := Option.ne_none_iff_exists'.mp hmap
  have hf := ((hs.entries.entry _ _ _ hspte).mapping m' hm').2.1
  obtain ⟨rfl, rfl⟩ := hc q page e m' hspte hm' (hf ▸ hfile) hp hdirty
  obtain ⟨j, -, hj, rfl⟩ := h.sole page e hspte hm'
  exact hown ⟨rfl, j, hj, rfl⟩

/-- Evicting a page of the mapping: if it is dirty it is written back first. -/
theorem Backed.of_evictOwn {l : List FrameTableEntry}
    (h : Backed pid m w 0 s) (hjn : j < mappingPages m.length)
    (hp : (s.pte pid (mappingPage m j)).present = true)
    (hev : evictEntry (s.setFrameTable l)
      ⟨(s.pte pid (mappingPage m j)).frame, pid, some (mappingPage m j)⟩ (mappingPage m j)
      { mappingEntry m (j * PGSIZE) with isLoaded := true } grow = some (s', r)) :
    Backed pid m w 0 s' := by
  cases hdirty : (s.pte pid (mappingPage m j)).dirty with
  | true =>
    have hl : Backed pid m w 0 (s.setFrameTable l) := h.quiet (.setFrameTable l)
    obtain ⟨b, hwrite, hlen, hget⟩ := hl.writeBack (Nat.zero_le _) hjn hp grow
    have hevict : evictEntry (s.setFrameTable l)
        ⟨(s.pte pid (mappingPage m j)).frame, pid, some (mappingPage m j)⟩ (mappingPage m j)
        { mappingEntry m (j * PGSIZE) with isLoaded := true } grow =
        evictToFile ((s.setFile m.file { s.files m.file with contents := b }).setFrameTable l)
          ⟨(s.pte pid (mappingPage m j)).frame, pid, some (mappingPage m j)⟩ (mappingPage m j)
          { mappingEntry m (j * PGSIZE) with isLoaded := true } := by
      have hwrite' : fileWriteAt (s.setFrameTable l) m.file
          (((s.setFrameTable l).mem (s.pte pid (mappingPage m j)).frame).bytes
            (pageReadBytes m.length (j * PGSIZE))) (j * PGSIZE) grow = _ := hwrite
      simp only [evictEntry, mappingEntry, SupPageTableEntry.ofFile, pagedirIsDirty,
        State.pte_setFrameTable, hdirty, Option.isSome_some, Bool.and_self, if_true, hwrite',
        ne_eq, not_true_eq_false, if_false]
      rfl
    rw [hevict, evictToFile_eq (s := s.setFile m.file _) hp] at hev
    cases hev
    have hset : Backed pid m w 0 (s.setFile m.file { s.files m.file with contents := b }) := by
      refine h.setContents hlen fun i hi => ?_
      rw [hget i hi]
      split
      · exact Or.inl rfl
      · exact Or.inr rfl
    refine hset.unload hjn (fun i hi hij => ?_) l
    have hb : ((s.setFile m.file { s.files m.file with contents := b }).files m.file).contents =
        b := by simp [State.setFile]
    rw [hb, hget i hi, if_pos hij]
  | false =>
    have hevict : evictEntry (s.setFrameTable l)
        ⟨(s.pte pid (mappingPage m j)).frame, pid, some (mappingPage m j)⟩ (mappingPage m j)
        { mappingEntry m (j * PGSIZE) with isLoaded := true } grow =
        evictToFile (s.setFrameTable l)
          ⟨(s.pte pid (mappingPage m j)).frame, pid, some (mappingPage m j)⟩ (mappingPage m j)
          { mappingEntry m (j * PGSIZE) with isLoaded := true } := by
      simp [evictEntry, mappingEntry, SupPageTableEntry.ofFile, pagedirIsDirty, hdirty]
    rw [hevict, evictToFile_eq hp] at hev
    cases hev
    refine h.unload hjn (fun i hi hij => h.file i hi fun _ _ => ?_) l
    rw [mappedPte, hij]
    exact hdirty

theorem Backed.of_swapEvictFrame {victim : Option Nat}
    (h : Backed pid m w 0 s) (hs : Shape s none) (hc : OthersClean pid m s)
    (hev : swapEvictFrame s victim grow = some (s', r)) : Backed pid m w 0 s' := by
  rcases swapEvictFrame_cases hev with ⟨rfl, -⟩ | ⟨i, k, q, page, e, -, hi, hspte, hev⟩
  · exact h
  obtain ⟨hp, rfl⟩ := hs.frames.of_mem (List.mem_of_getElem? hi)
  by_cases hown : Own pid m q page
  · obtain ⟨rfl, j, hjn, rfl⟩ := hown
    rw [h.entry j (Nat.zero_le _) hjn, hp] at hspte
    cases hspte
    exact h.of_evictOwn hjn hp hev
  · exact h.quiet (.of_evicted hown hspte (h.file_ne hs hc hspte hown hp) (.of_evictEntry hev))

theorem Backed.of_faultFrame {a : Allocs} (h : Backed pid m w 0 s)
    (hs : Shape s none) (hc : OthersClean pid m s) (hf : faultFrame s a = some (s', r)) :
    Backed pid m w 0 s' := by
  rcases faultFrame_cases hf with ⟨k, hk, -⟩ | ⟨-, hev⟩
  · exact h.quiet (.of_pallocGetPage hs hk)
  · exact h.of_swapEvictFrame hs hc hev

/-- What the file has for byte `i` of the mapping. -/
theorem filePage_mappingEntry (s : State) {b : Bool} {i : Nat} (hi : i < m.length)
    (hij : i / PGSIZE = j) :
    filePage s { mappingEntry m (j * PGSIZE) with isLoaded := b } (i % PGSIZE) =
      ((s.files m.file).contents[i]?).getD 0 := by
  have hi' : j * PGSIZE + i % PGSIZE = i := by
    rw [← hij, Nat.div_add_mod']
  have hrb : i % PGSIZE < pageReadBytes m.length (j * PGSIZE) := by
    rw [lt_pageReadBytes_iff, hi']
    exact ⟨Nat.mod_lt _ (by decide), hi⟩
  simp only [filePage, mappingEntry, SupPageTableEntry.ofFile, if_pos hrb, hi']

/-- A fault on a page of the mapping reads it from the file. -/
theorem Backed.of_faultFill {a : Allocs} (h : Backed pid m w 0 s) (hs : Shape s (some k))
    (hf : faultFill s q page k a = some s') : Backed pid m w 0 s' := by
  by_cases hown : Own pid m q page
  case neg => exact h.quiet (.of_faultFill hs hown hf)
  obtain ⟨rfl, j, hjn, rfl⟩ := hown
  have hk := hs.frames.held_not_mem
  have hspared : Spared (Own q m) s k := hs.spared
  have hspte := h.entry j (Nat.zero_le _) hjn
  have hentry := hs.entries.entry _ _ _ hspte
  rcases faultFill_cases hk hf with hfail | ⟨hnone, -⟩ | ⟨e, s₂, he, hread, hf⟩
  · exact h.quiet (.free_exit hspared hfail)
  · cases hspte.symm.trans hnone
  cases hspte.symm.trans he
  rcases faultRead_cases hentry.bytes hread with ⟨hload, rfl⟩ | ⟨data, rfl, hload, hdata⟩
  · -- the page is present already, so it cannot be installed again
    have hpres := hs.frames.present hspte (hload.elim id hentry.zero)
    rcases faultInstall_cases hk hf with hfail | ⟨hp, -⟩
    · exact h.quiet (.free_exit hspared hfail)
    · rw [hpres] at hp
      cases hp
  · have hfill : Backed q m w 0 (s.setMem k data) := h.quiet (.setMem hspared data)
    rcases faultInstall_cases (s := s.setMem k data) hk hf with hfail | ⟨hp, rfl⟩
    · exact hfill.quiet (.free_exit hspared hfail)
    · rw [if_neg (by simp [mappingEntry, SupPageTableEntry.ofFile])]
      refine hfill.load hjn hp fun i hi hij => ?_
      obtain ⟨-, hdata⟩ | ⟨hsource, -⟩ := hdata
      · have hmem : (s.setMem k data).mem k = data := update_self ..
        have hlt : i < (s.files m.file).contents.length := by
          rw [h.length]
          exact hi
        show (s.files m.file).contents[i]? = _
        rw [hmem, hdata _ (Nat.mod_lt _ (by decide)), filePage_mappingEntry _ hi hij,
          List.getElem?_eq_getElem hlt]
        show some _ = some (((s.files m.file).contents[i]?).getD 0)
        rw [List.getElem?_eq_getElem hlt]
        rfl
      · cases hsource

theorem Backed.of_pageFault {f : PageFault} {a : Allocs} (h : Backed pid m w 0 s)
    (hs : Shape s none) (hc : OthersClean pid m s) (hf : pageFault s q f a = some s') :
    Backed pid m w 0 s' := by
  rcases pageFault_cases hf with rfl | ⟨s₁, hframe, rfl⟩ | ⟨s₁, k, hframe, hf⟩
  · exact h.quiet (.exit q)
  · exact (h.of_faultFrame hs hc hframe).quiet (.exit q)
  · have heff : Effects ∅ (fun _ _ => none) (s, none) (s₁, some k) :=
      (Effects.of_faultFrame hs hframe).1
    exact (h.of_faultFrame hs hc hframe).of_faultFill (hs.effects heff) hf

/-! ## Other mappings -/

theorem Backed.setTables (h : Backed pid m w d s) (l : List MemoryMapping) (n : Nat) :
    Backed pid m w d (s.setProc q { s.procs q with mmapTable := l, nextMapid := n }) := by
  refine h.apart (.setTables l n) fun r e he hm => ⟨e, ?_, hm⟩
  rwa [State.spte_setTables] at he

/-- Making a mapping does not touch the pages of another one. -/
theorem Backed.of_mmapFile {f : FileId} {reopen create : Bool} {malloc : PageNo → Bool}
    (h : Backed pid m w 0 s) (hs : Shape s none) (hid : m.mapid < (s.procs pid).nextMapid) :
    Backed pid m w 0 (mmapFile s q f page reopen create malloc).2 := by
  rcases hrun : mmapFile s q f page reopen create malloc with ⟨_ | id, s'⟩
  · rcases mmapFile_none hs.entries.not_new hrun with rfl | ⟨n, -, rfl⟩
    · exact h
    · exact h.setTables _ n
  obtain ⟨spt, -, rfl, rfl, -, hspt⟩ := mmapFile_some hrun
  refine h.apart (.setSpt _ _ ?_) fun r e he hm => ?_
  · rintro r ⟨rfl, j, hjn, rfl⟩
    refine (hspt _).resolve_right fun hnone => ?_
    rw [h.entry j (Nat.zero_le _) hjn] at hnone
    cases hnone.1
  · rw [State.spte_setProc] at he
    split at he
    · rename_i hq
      subst hq
      rcases hspt r with hold | ⟨-, x, hx, hnew⟩
      · exact ⟨e, hold.symm.trans he, hm⟩
      · obtain rfl : x = e := Option.some.inj (hx.symm.trans he)
        rw [hm] at hnew
        have hmapid := congrArg MemoryMapping.mapid (Option.some.inj hnew)
        exact absurd hmapid (Nat.ne_of_lt hid)
    · exact ⟨e, he, hm⟩

/-- Ending another mapping, or this one again, does not touch its pages. -/
theorem Backed.of_unmapOther {n ofs : Nat} (h : Backed pid m w d s)
    (hs : Shape s none) (hc : OthersClean pid m s)
    (hother : q = pid → m' = m → d = mappingPages m.length)
    (hu : unmapPages q m' grow tmp n ofs page s = some s') :
    Backed pid m w d s' ∧ OthersClean pid m s' ∧ Shape s' none := by
  induction n generalizing s ofs page with
  | zero =>
    cases hu
    exact ⟨h, hc, hs⟩
  | succ n ih =>
    obtain ⟨s₁, h₁, hu⟩ := Option.bind_eq_some_iff.mp hu
    have heff : Effects ∅ (fun _ _ => none) (s, none) (s₁, none) :=
      (Effects.of_unmapPage hs (pageReadBytes_le _ _) h₁).1
    -- an entry of this mapping would have to be one that is gone
    have hnone : q = pid → ∀ e, s.spte q page = some e → e.mapping = some m' → m' ≠ m := by
      rintro rfl e he hm rfl
      obtain ⟨j, hj, hjn, -⟩ := h.sole page e he hm
      have := hother rfl rfl
      omega
    refine ih (h.quiet (.of_unmapPage hs (pageReadBytes_le _ _) ?_ ?_ h₁)) (hs.effects heff)
      (hc.effects hs heff) hu
    · rintro e ⟨rfl, j, hjn, rfl⟩ he hm
      refine hnone rfl e he hm ?_
      by_cases hjd : j < d
      · rw [h.gone j hjd] at he
        cases he
      · rw [h.entry j (by omega) hjn] at he
        cases he
        exact (Option.some.inj hm).symm
    · intro e he hm hp hd hfile
      obtain ⟨hq, hmm⟩ := hc q page e m' he hm hfile hp hd
      exact hnone hq e he hm hmm

/-! ## The end of the mapping -/

/-- Unmapping the next page. -/
theorem Backed.of_unmapPage (h : Backed pid m w d s) (hs : Shape s none)
    (hd : d < mappingPages m.length)
    (hu : unmapPage s pid m (mappingPage m d) (pageReadBytes m.length (d * PGSIZE)) grow tmp =
      some s') : Backed pid m w (d + 1) s' := by
  have hspte := h.entry d (Nat.le_refl d) hd
  rcases unmapPage_cases (m := m) pid (mappingPage m d)
    (pageReadBytes m.length (d * PGSIZE)) grow tmp hs (pageReadBytes_le _ _) with
    ⟨e, he, hm, hload, l, heq⟩ | ⟨e, he, hm, hload, heq⟩ | ⟨hno, -⟩
  · rw [hspte] at he
    cases he
    have hp : (s.pte pid (mappingPage m d)).present = true := hload
    rw [heq] at hu
    cases hu
    -- the file has the page after it was written back, if it was dirty
    have hwritten : ∃ t, unmapWriteBack s pid m (mappingPage m d)
        (s.pte pid (mappingPage m d)).frame { mappingEntry m (d * PGSIZE) with
          isLoaded := (s.pte pid (mappingPage m d)).present }
        (pageReadBytes m.length (d * PGSIZE)) grow = t ∧ t.procs = s.procs ∧ t.mem = s.mem ∧
        Backed pid m w d t ∧
          ∀ i < m.length, i / PGSIZE = d → (t.files m.file).contents[i]? = w[i]? := by
      cases hdirty : (s.pte pid (mappingPage m d)).dirty with
      | true =>
        obtain ⟨b, hwrite, hlen, hget⟩ := h.writeBack (Nat.le_refl d) hd hp grow
        have hb : ((s.setFile m.file { s.files m.file with contents := b }).files
            m.file).contents = b := by simp [State.setFile]
        refine ⟨s.setFile m.file { s.files m.file with contents := b }, ?_, rfl, rfl, ?_, ?_⟩
        · simp only [unmapWriteBack, pagedirIsDirty, hdirty, if_true, mappingEntry,
            SupPageTableEntry.ofFile, hwrite]
        · refine h.setContents hlen fun i hi => ?_
          rw [hget i hi]
          split
          · exact Or.inl rfl
          · exact Or.inr rfl
        · intro i hi hid
          rw [hb, hget i hi, if_pos hid]
      | false =>
        refine ⟨s, ?_, rfl, rfl, h, fun i hi hid => h.file i hi fun _ _ => ?_⟩
        · simp only [unmapWriteBack, pagedirIsDirty, hdirty, Bool.false_eq_true, if_false]
        · rw [mappedPte, hid]
          exact hdirty
    obtain ⟨t, ht, hprocs, hmem, hback, hfile⟩ := hwritten
    rw [ht]
    have hpte : ∀ q r, t.pte q r = s.pte q r := fun q r => by rw [State.pte, hprocs, State.pte]
    have hdrop : Backed pid m w (d + 1) (t.unmapFrame l pid (mappingPage m d) none) := by
      refine hback.drop hd hfile (fun r => ?_) (fun r hr => ?_) rfl rfl
      · rw [State.spte_unmapFrame]
        simp only [true_and]
      · rw [State.pte_unmapFrame, if_neg fun hc => hr hc.2]
    refine hdrop.quiet (.of_procs ((Apart.setUserPool _).trans (.setMem ?_ _)) rfl)
    -- no other page of the mapping is in the frame that was given back
    rintro q r - hpres hframe
    have hpres' : ((t.unmapFrame l pid (mappingPage m d) none).pte q r).present = true := hpres
    have hframe' : ((t.unmapFrame l pid (mappingPage m d) none).pte q r).frame = _ := hframe
    rw [State.pte_unmapFrame] at hpres' hframe'
    split at hpres'
    · cases hpres'
    · rename_i hne
      rw [if_neg hne, hpte] at hframe'
      rw [hpte] at hpres'
      exact hne (hs.frames.frame_inj hpres' hp hframe')
  · rw [hspte] at he
    cases he
    have hp : (s.pte pid (mappingPage m d)).present = false := hload
    rw [heq] at hu
    cases hu
    refine h.drop hd (fun i hi hid => h.file i hi fun _ hpres => ?_) (fun r => ?_)
      (fun r _ => State.pte_setSpte ..) rfl rfl
    · rw [mappedPte, hid, hp] at hpres
      cases hpres
    · rw [State.spte_setSpte]
      simp only [true_and]
  · exact absurd rfl (hno _ hspte)

/-- Unmapping the rest of the mapping, by induction on the pages that are
    left. -/
theorem Backed.of_unmapPages {n ofs : Nat} (h : Backed pid m w d s)
    (hs : Shape s none) (hn : d + n = mappingPages m.length) (hofs : n ≠ 0 → ofs = d * PGSIZE)
    (hpage : n ≠ 0 → page = mappingPage m d)
    (hu : unmapPages pid m grow tmp n ofs page s = some s') :
    Backed pid m w (mappingPages m.length) s' := by
  induction n generalizing s d ofs page with
  | zero =>
    cases hu
    rw [← hn]
    exact h
  | succ n ih =>
    obtain rfl := hofs (Nat.succ_ne_zero n)
    obtain rfl := hpage (Nat.succ_ne_zero n)
    obtain ⟨s₁, h₁, hu⟩ := Option.bind_eq_some_iff.mp hu
    have heff : Effects ∅ (fun _ _ => none) (s, none) (s₁, none) :=
      (Effects.of_unmapPage hs (pageReadBytes_le _ _) h₁).1
    refine ih (h.of_unmapPage hs (by omega) h₁) (hs.effects heff) (by omega) ?_ ?_ hu
    · intro hne
      exact add_pageReadBytes (by omega)
    · intro _
      exact nextPage_mappingPage m d

/-- `memory_mapping_unmap` of the mapping. -/
theorem Backed.of_memoryMappingUnmap (h : Backed pid m w 0 s) (hs : Shape s none)
    (hv : m.userVaddr < 2 ^ 20) (hu : memoryMappingUnmap s pid m grow tmp = some s') :
    Backed pid m w (mappingPages m.length) s' := by
  refine h.of_unmapPages hs (Nat.zero_add _) (fun _ => (Nat.zero_mul _).symm) (fun _ => ?_) hu
  rw [mappingPage, Nat.add_zero, Nat.mod_eq_of_lt hv]

/-- Unmapping all mappings of the owner: those before and after this one leave
    it alone. -/
theorem Backed.of_unmapAll {l : List MemoryMapping} (h : Backed pid m w d s)
    (hs : Shape s none) (hc : OthersClean pid m s) (hv : m.userVaddr < 2 ^ 20)
    (hd : d = 0 ∧ m ∈ l ∨ d = mappingPages m.length)
    (hu : memoryMappingTableUnmapAll pid grow tmp l s = some s') :
    Backed pid m w (mappingPages m.length) s' := by
  induction l generalizing s d with
  | nil =>
    cases hu
    rcases hd with ⟨-, hmem⟩ | rfl
    · cases hmem
    · exact h
  | cons m' rest ih =>
    obtain ⟨s₁, h₁, hu⟩ := Option.bind_eq_some_iff.mp hu
    by_cases hthis : m' = m ∧ d = 0
    · obtain ⟨rfl, rfl⟩ := hthis
      have heff : Effects ∅ (fun _ _ => none) (s, none) (s₁, none) :=
        (Effects.of_unmapPages hs h₁).1
      exact ih (h.of_memoryMappingUnmap hs hv h₁) (hs.effects heff) (hc.effects hs heff)
        (Or.inr rfl) hu
    · have hother : pid = pid → m' = m → d = mappingPages m.length := by
        intro _ hm
        rcases hd with ⟨hd, -⟩ | hd
        · exact absurd ⟨hm, hd⟩ hthis
        · exact hd
      obtain ⟨hb, hc₁, hs₁⟩ := h.of_unmapOther hs hc hother h₁
      refine ih hb hs₁ hc₁ ?_ hu
      rcases hd with ⟨hd, hmem⟩ | hd
      · refine Or.inl ⟨hd, (List.mem_cons.mp hmem).resolve_left fun hm => ?_⟩
        exact hthis ⟨hm.symm, hd⟩
      · exact Or.inr hd

/-- Another process unmaps all its mappings. -/
theorem Backed.of_unmapAllOther {l : List MemoryMapping}
    (h : Backed pid m w d s) (hs : Shape s none) (hc : OthersClean pid m s) (hq : q ≠ pid)
    (hu : memoryMappingTableUnmapAll q grow tmp l s = some s') :
    Backed pid m w d s' ∧ Shape s' none := by
  induction l generalizing s with
  | nil =>
    cases hu
    exact ⟨h, hs⟩
  | cons m' rest ih =>
    obtain ⟨s₁, h₁, hu⟩ := Option.bind_eq_some_iff.mp hu
    obtain ⟨hb, hc₁, hs₁⟩ := h.of_unmapOther hs hc (fun heq => absurd heq hq) h₁
    exact ih hb hs₁ hc₁ hu

/-- Another process goes away. -/
theorem Backed.reap (h : Backed pid m w d s) (hs : Shape s none) (hr : Reaped s s' q)
    (hq : q ≠ pid) : Backed pid m w d s' := by
  have hprocs : s'.procs pid = s.procs pid := by
    rw [hr.procs, update_of_ne (Ne.symm hq)]
  refine h.apart ⟨?_, ?_, ?_, ?_⟩ fun r e he hm => ⟨e, by rwa [State.spte, ← hprocs], hm⟩
  · rintro _ r ⟨rfl, -⟩
    rw [State.spte, hprocs, State.spte]
  · rintro _ r ⟨rfl, -⟩
    rw [State.pte, hprocs, State.pte]
  · rintro _ r ⟨rfl, -⟩ hp
    refine (hr.frames _ fun r' hp' heq => ?_).2
    exact hq (hs.frames.frame_inj hp' hp heq).1
  · rintro _ rfl
    have hcontents := hr.contents m.file
    have hdeny := hr.denyWriteCnt m.file
    rw [h.deny, Nat.zero_sub, ← h.deny] at hdeny
    cases hx : s'.files m.file
    cases hy : s.files m.file
    rw [hx, hy] at hcontents hdeny
    simp only at hcontents hdeny
    rw [hcontents, hdeny]

end Pintos.Vm
