/-
  Pintos.Vm.Apart

  What a step of virtual memory leaves alone.  `Apart K F s s'` says that going
  from `s` to `s'` did not touch the pages of `K`, that is their entries in
  both page tables and the frames they are in, nor the files of `F`.  `Quiet`
  says besides that no mapping was made or ended.

  A fault, and the loading of a program, is quiet for all pages but the one it
  is about and the victim of its eviction.
-/

import Pintos.Vm.Sound

namespace Pintos.Vm

open Pintos.Base Pintos.Lib Function

variable {f : FileId} {e : SupPageTableEntry} {l : List FrameTableEntry} {r : Option Frame}

/-- A set of pages. -/
abbrev Pages := Pid → PageNo → Prop

/-- The pages of `K` and the files of `F` are as before. -/
structure Apart (K : Pages) (F : Set FileId) (s s' : State) : Prop where
  spte : ∀ q r, K q r → s'.spte q r = s.spte q r
  pte : ∀ q r, K q r → s'.pte q r = s.pte q r
  mem : ∀ q r, K q r → (s.pte q r).present = true →
    s'.mem (s.pte q r).frame = s.mem (s.pte q r).frame
  files : ∀ f ∈ F, s'.files f = s.files f

/-- Moreover the mapping tables are as before, and no page has joined a
    mapping. -/
structure Quiet (K : Pages) (F : Set FileId) (s s' : State) : Prop extends Apart K F s s' where
  mmapTable : ∀ q, (s'.procs q).mmapTable = (s.procs q).mmapTable
  nextMapid : ∀ q, (s'.procs q).nextMapid = (s.procs q).nextMapid
  mapped : ∀ q r e m, s'.spte q r = some e → e.mapping = some m →
    ∃ e₀, s.spte q r = some e₀ ∧ e₀.mapping = some m

/-- No page of `K` is in the frame. -/
def Spared (K : Pages) (s : State) (k : Frame) : Prop :=
  ∀ q r, K q r → (s.pte q r).present = true → (s.pte q r).frame ≠ k

variable {K : Pages} {F : Set FileId} {s s₁ s' : State} {pid : Pid} {page : PageNo} {k : Frame}

namespace Apart

theorem refl (s : State) : Apart K F s s :=
  ⟨fun _ _ _ => rfl, fun _ _ _ => rfl, fun _ _ _ _ => rfl, fun _ _ => rfl⟩

theorem trans (h : Apart K F s s₁) (h' : Apart K F s₁ s') : Apart K F s s' where
  spte q r hK := (h'.spte q r hK).trans (h.spte q r hK)
  pte q r hK := (h'.pte q r hK).trans (h.pte q r hK)
  mem q r hK hp := by
    have hpte := h.pte q r hK
    rw [← hpte] at hp ⊢
    rw [h'.mem q r hK hp, hpte]
    exact h.mem q r hK (hpte ▸ hp)
  files f hf := (h'.files f hf).trans (h.files f hf)

/-- A frame that held no page of `K` still holds none. -/
theorem spared (h : Apart K F s s') (hk : Spared K s k) : Spared K s' k := by
  intro q r hK hp
  rw [h.pte q r hK] at hp ⊢
  exact hk q r hK hp

theorem setSpte (hK : ¬ K pid page) (x : Option SupPageTableEntry) :
    Apart K F s (s.setSpte pid page x) where
  spte q r hq := by
    rw [State.spte_setSpte, if_neg]
    rintro ⟨rfl, rfl⟩
    exact hK hq
  pte q r _ := State.pte_setSpte ..
  mem _ _ _ _ := rfl
  files _ _ := rfl

theorem setPte (hK : ¬ K pid page) (t : Pte) : Apart K F s (s.setPte pid page t) where
  spte q r _ := State.spte_setPte ..
  pte q r hq := by
    rw [State.pte_setPte, if_neg]
    rintro ⟨rfl, rfl⟩
    exact hK hq
  mem _ _ _ _ := rfl
  files _ _ := rfl

theorem setMem (hk : Spared K s k) (d : PageData) : Apart K F s (s.setMem k d) where
  spte _ _ _ := rfl
  pte _ _ _ := rfl
  mem q r hK hp := update_of_ne (hk q r hK hp) _ _
  files _ _ := rfl

theorem setFile (hF : f ∉ F) (x : File) : Apart K F s (s.setFile f x) where
  spte _ _ _ := rfl
  pte _ _ _ := rfl
  mem _ _ _ _ := rfl
  files g hg := by
    have hne : g ≠ f := fun h => hF (h ▸ hg)
    exact update_of_ne hne _ _

theorem setUserPool (b : List Bool) : Apart K F s (s.setUserPool b) :=
  ⟨fun _ _ _ => rfl, fun _ _ _ => rfl, fun _ _ _ _ => rfl, fun _ _ => rfl⟩

theorem setFrameTable (l : List FrameTableEntry) : Apart K F s (s.setFrameTable l) :=
  ⟨fun _ _ _ => rfl, fun _ _ _ => rfl, fun _ _ _ _ => rfl, fun _ _ => rfl⟩

theorem pallocFreePage (hk : Spared K s k) (h : pallocFreePage s k = some s') :
    Apart K F s s' := by
  rw [pallocFreePage_eq h]
  exact (setUserPool _).trans (setMem (s := s.setUserPool (s.userPool.set k false)) hk _)

end Apart

/-! ## Quiet updates -/

namespace Quiet

theorem refl (s : State) : Quiet K F s s :=
  ⟨.refl s, fun _ => rfl, fun _ => rfl, fun _ _ e _ h hm => ⟨e, h, hm⟩⟩

theorem trans (h : Quiet K F s s₁) (h' : Quiet K F s₁ s') : Quiet K F s s' where
  toApart := h.toApart.trans h'.toApart
  mmapTable q := (h'.mmapTable q).trans (h.mmapTable q)
  nextMapid q := (h'.nextMapid q).trans (h.nextMapid q)
  mapped q r e m he hm := by
    obtain ⟨e₁, he₁, hm₁⟩ := h'.mapped q r e m he hm
    exact h.mapped q r e₁ m he₁ hm₁

/-- An update that leaves the processes alone. -/
theorem of_procs (h : Apart K F s s') (hprocs : s'.procs = s.procs) : Quiet K F s s' where
  toApart := h
  mmapTable q := by rw [hprocs]
  nextMapid q := by rw [hprocs]
  mapped q r e m he hm := ⟨e, by rwa [State.spte, ← hprocs], hm⟩

theorem setMem (hk : Spared K s k) (d : PageData) : Quiet K F s (s.setMem k d) :=
  of_procs (.setMem hk d) rfl

theorem setFrameTable (l : List FrameTableEntry) : Quiet K F s (s.setFrameTable l) :=
  of_procs (.setFrameTable l) rfl

theorem setFile (hF : f ∉ F) (x : File) : Quiet K F s (s.setFile f x) :=
  of_procs (.setFile hF x) rfl

/-- An entry changes and stays with its mapping, or loses it. -/
theorem setSpte (hK : ¬ K pid page) {x : Option SupPageTableEntry}
    (hx : ∀ e m, x = some e → e.mapping = some m →
      ∃ e₀, s.spte pid page = some e₀ ∧ e₀.mapping = some m) :
    Quiet K F s (s.setSpte pid page x) where
  toApart := .setSpte hK x
  mmapTable q := by rw [State.procs_setSpte]
  nextMapid q := by rw [State.procs_setSpte]
  mapped q r e m he hm := by
    rw [State.spte_setSpte] at he
    split at he
    · rename_i hqr
      obtain ⟨rfl, rfl⟩ := hqr
      exact hx e m he hm
    · exact ⟨e, he, hm⟩

theorem setPte (hK : ¬ K pid page) (t : Pte) : Quiet K F s (s.setPte pid page t) where
  toApart := .setPte hK t
  mmapTable q := by rw [State.procs_setPte]
  nextMapid q := by rw [State.procs_setPte]
  mapped q r e m he hm := ⟨e, by rwa [State.spte_setPte] at he, hm⟩

theorem setPhase (pid : Pid) (ph : Phase) : Quiet K F s (s.setPhase pid ph) where
  toApart := ⟨fun q r _ => State.spte_setPhase .., fun q r _ => State.pte_setPhase ..,
    fun _ _ _ _ => rfl, fun _ _ => rfl⟩
  mmapTable q := by rw [State.procs_setPhase]
  nextMapid q := by rw [State.procs_setPhase]
  mapped q r e m he hm := ⟨e, by rwa [State.spte_setPhase] at he, hm⟩

theorem exit (pid : Pid) : Quiet K F s (Vm.exit s pid) := setPhase pid _

theorem swapFreeSlot (i : Option Nat) : Quiet K F s (swapFreeSlot s i) := by
  unfold Vm.swapFreeSlot
  split
  · split
    · exact of_procs ⟨fun _ _ _ => rfl, fun _ _ _ => rfl, fun _ _ _ _ => rfl, fun _ _ => rfl⟩ rfl
    · exact refl s
  · exact refl s

theorem pagedirClearPage (hK : ¬ K pid page) : Quiet K F s (pagedirClearPage s pid page) := by
  rw [Vm.pagedirClearPage]
  split
  · exact setPte hK _
  · exact refl s

theorem pallocFreePage (hk : Spared K s k) (h : pallocFreePage s k = some s') : Quiet K F s s' :=
  of_procs (.pallocFreePage hk h) (by rw [pallocFreePage_eq h]; rfl)

/-- Giving a frame back and exiting. -/
theorem free_exit (hk : Spared K s k)
    (h : (Vm.pallocFreePage s k).map (Vm.exit · pid) = some s') : Quiet K F s s' := by
  obtain ⟨s₁, h₁, rfl⟩ := Option.map_eq_some_iff.mp h
  exact (pallocFreePage hk h₁).trans (exit pid)

theorem mapFrame (hK : ¬ K pid page)
    (he : ∀ m, e.mapping = some m → ∃ e₀, s.spte pid page = some e₀ ∧ e₀.mapping = some m) :
    Quiet K F s (s.mapFrame pid page k e) := by
  rw [State.mapFrame]
  refine (setFrameTable _).trans ((setSpte hK ?_).trans (setPte hK _))
  rintro _ m ⟨⟩ hm
  exact he m hm

theorem unmapFrame (hK : ¬ K pid page) {x : Option SupPageTableEntry}
    (hx : ∀ e m, x = some e → e.mapping = some m →
      ∃ e₀, s.spte pid page = some e₀ ∧ e₀.mapping = some m) :
    Quiet K F s (s.unmapFrame l pid page x) :=
  (setFrameTable l).trans ((setSpte (s := s.setFrameTable l) hK hx).trans (setPte hK _))

end Quiet

/-! ## Obtaining a frame -/

/-- The frame a step holds is no page's. -/
theorem Shape.spared (hs : Shape s (some k)) : Spared K s k :=
  fun q r _ hp heq => (hs.frames.frame q r hp).2.2 (by rw [heq])

theorem Quiet.of_pallocGetPage (hs : Shape s none) (h : pallocGetPage s = some (k, s')) :
    Quiet K F s s' := by
  obtain ⟨hfree, rfl⟩ := pallocGetPage_eq h
  have hspared : Spared K s k := by
    intro q r _ hp heq
    have hused := (hs.frames.frame q r hp).1
    rw [heq, hfree] at hused
    cases hused
  exact .of_procs
    ((Apart.setUserPool _).trans (.setMem (s := s.setUserPool (s.userPool.set k true)) hspared _))
    rfl

/-- A page that stays in its file. -/
theorem Quiet.of_evictToFile (hK : ¬ K pid page) (hspte : s.spte pid page = some e)
    (h : evictToFile (s.setFrameTable l) ⟨k, pid, some page⟩ page e = some (s', r)) :
    Quiet K F s s' := by
  cases h
  refine (Quiet.setFrameTable l).trans ((Quiet.pagedirClearPage hK).trans (.setSpte hK ?_))
  rintro _ m ⟨⟩ hm
  refine ⟨e, ?_, hm⟩
  unfold Vm.pagedirClearPage
  split
  · rw [State.spte_setPte]
    exact hspte
  · exact hspte

theorem Quiet.of_fileWriteAt {data : List UInt8} {ofs : Nat} {grow : Bool}
    (hF : f ∉ F) : Quiet K F s (fileWriteAt s f data ofs grow).2 := by
  rcases fileWriteAt_eq s f data ofs grow with hw | ⟨-, hw⟩
  · rw [hw]
    exact .refl s
  · rw [hw]
    exact .setFile hF _

/-- The eviction of a page touches that page and, if it is a dirty page of a
    mapping, its file. -/
theorem Quiet.of_evicted (hK : ¬ K pid page) (hspte : s.spte pid page = some e)
    (hF : e.mapping ≠ none → (s.pte pid page).dirty = true → e.file ∉ F)
    (h : Evicted (s.setFrameTable l) ⟨k, pid, some page⟩ page e (s', r)) : Quiet K F s s' := by
  cases h with
  | kept h =>
    cases h
    exact .setFrameTable _
  | dropped _ _ _ h => exact .of_evictToFile hK hspte h
  | written _ hmap hdirty _ h =>
    exact (Quiet.setFile (hF hmap hdirty) _).trans
      (.of_evictToFile (s := s.setFile e.file _) hK hspte h)
  | @swapped b i _ _ _ h =>
    cases h
    -- the slot's sectors and its bit are no page's entry
    have hslot : Quiet K F s
        (writeToBlock ((s.setFrameTable l).setSwapSlots (b.set i true)) i (s.mem k)) :=
      .of_procs ⟨fun _ _ _ => rfl, fun _ _ _ => rfl, fun _ _ _ _ => rfl, fun _ _ => rfl⟩ rfl
    refine hslot.trans ((Quiet.setSpte hK ?_).trans (.pagedirClearPage hK))
    rintro _ m ⟨⟩ hm
    exact ⟨e, hspte, hm⟩

/-! ## Filling and installing the page -/

/-- `page_fault` of a page outside `K`, once it has a frame. -/
theorem Quiet.of_faultFill {a : Allocs} (hs : Shape s (some k)) (hK : ¬ K pid page)
    (h : faultFill s pid page k a = some s') : Quiet K F s s' := by
  have hk := hs.frames.held_not_mem
  have hspared : Spared K s k := hs.spared
  rcases faultFill_cases hk h with hfail | ⟨-, rfl⟩ | ⟨e, s₂, hspte, hread, h⟩
  · exact .free_exit hspared hfail
  · -- a new stack page, which belongs to no mapping
    refine .mapFrame hK ?_
    rintro m ⟨⟩
  · have hentry := hs.entries.entry _ _ _ hspte
    obtain ⟨d, rfl⟩ : ∃ d, s₂ = (s.setMem k d).setFrameTable
        (s.frameTable ++ [⟨k, pid, none⟩]) := by
      rcases faultRead_cases hentry.bytes hread with ⟨-, rfl⟩ | ⟨d, rfl, -, -⟩
      · exact ⟨s.mem k, by simp [State.setMem, State.setFrameTable]⟩
      · exact ⟨d, rfl⟩
    refine (Quiet.setMem hspared d).trans ?_
    have hspared' : Spared K (s.setMem k d) k := hspared
    rcases faultInstall_cases (s := s.setMem k d) hk h with hfail | ⟨-, rfl⟩
    · exact .free_exit hspared' hfail
    · split
      · refine (Quiet.swapFreeSlot e.swapSlotIndex).trans (.mapFrame hK fun m hm => ⟨e, ?_, hm⟩)
        unfold Vm.swapFreeSlot
        split
        · split <;> exact hspte
        · exact hspte
      · exact .mapFrame hK fun m hm => ⟨e, hspte, hm⟩

/-! ## Loading a program -/

theorem Quiet.of_loadSegmentPages (writable : Bool) (malloc : PageNo → Bool)
    (n ofs : Nat) (page : PageNo) (readBytes zeroBytes : Nat) (hK : ∀ r, ¬ K pid r) :
    Quiet K F s (loadSegmentPages pid f writable malloc n ofs page readBytes zeroBytes s).2 := by
  induction n generalizing s ofs page readBytes zeroBytes with
  | zero => exact .refl s
  | succ n ih =>
    simp only [loadSegmentPages]
    split
    · exact .refl s
    · rename_i s₁ hadd
      refine Quiet.trans ?_ (ih ..)
      simp only [supPageTableAddFile] at hadd
      split at hadd
      · cases hadd
        exact .refl s
      · split at hadd
        · cases hadd
          refine .setSpte (hK page) ?_
          rintro _ m ⟨⟩ hm
          cases hm
        · cases hadd

theorem Quiet.of_loadSegment {ofs readBytes zeroBytes : Nat} {writable : Bool}
    {malloc : PageNo → Bool} (hK : ∀ r, ¬ K pid r)
    (h : loadSegment s pid f ofs page readBytes zeroBytes writable malloc = some s') :
    Quiet K F s s' := by
  simp only [loadSegment] at h
  split at h
  · cases h
    have hpages : Quiet K F s _ := Quiet.of_loadSegmentPages (f := f) writable malloc
      ((readBytes + zeroBytes) / PGSIZE) ofs page readBytes zeroBytes hK
    split
    · exact hpages
    · exact hpages.trans (.exit pid)
  · cases h

theorem Quiet.of_setupStackTable {malloc : Bool} (hK : ∀ r, ¬ K pid r)
    (hk : Spared K s k) (hspte : s.spte pid stackPage = some e)
    (h : setupStackTable s pid k e malloc = some s') : Quiet K F s s' := by
  simp only [setupStackTable, frameTableAdd] at h
  split at h
  · have hremove : Quiet K F s (Vm.pagedirClearPage (s.setSpte pid stackPage none) pid stackPage) :=
      (Quiet.setSpte (hK _) (by simp)).trans (.pagedirClearPage (hK _))
    exact hremove.trans (.free_exit (hremove.toApart.spared hk) h)
  · rename_i s₁ hadd
    split at hadd
    · cases hadd
      cases h
      refine (Quiet.setFrameTable _).trans ((Quiet.setSpte (hK stackPage) ?_).trans
        ((Quiet.setFrameTable _).trans (.setPhase pid _)))
      rintro _ m ⟨⟩ hm
      exact ⟨e, hspte, hm⟩
    · cases hadd

theorem Quiet.of_setupStack {a : Allocs} (hs : Shape s none) (hK : ∀ r, ¬ K pid r)
    (h : setupStack s pid a = some s') : Quiet K F s s' := by
  simp only [setupStack] at h
  split at h
  · cases h
    exact .exit pid
  rename_i k s₁ hget
  have hspared : Spared K s₁ k :=
    (hs.effect (show Effect ∅ (fun _ _ => none) _ _ from .of_pallocGetPage hget)).spared
  refine (Quiet.of_pallocGetPage hs hget).trans ?_
  rcases installPage_cases s₁ pid stackPage k true a.pageTable with hin | hin | ⟨-, hin⟩
  · rw [hin] at h
    cases h
  · rw [hin] at h
    exact .free_exit hspared h
  · rw [hin] at h
    refine (Quiet.setPte (hK stackPage) ⟨true, k, true, false⟩).trans ?_
    have hspared' : Spared K (s₁.setPte pid stackPage ⟨true, k, true, false⟩) k :=
      (Apart.setPte (F := F) (hK stackPage) _).spared hspared
    simp only [supPageTableAdd] at h
    cases hspte : (s₁.setPte pid stackPage ⟨true, k, true, false⟩).spte pid stackPage with
    | some e =>
      simp only [hspte] at h
      exact .of_setupStackTable hK hspared' hspte h
    | none =>
      simp only [hspte] at h
      split at h
      · have hclear : Quiet K F (s₁.setPte pid stackPage ⟨true, k, true, false⟩) _ :=
          Quiet.pagedirClearPage (hK stackPage)
        exact hclear.trans (.free_exit (hclear.toApart.spared hspared') h)
      · rename_i e s₂ hadd
        obtain ⟨-, hadd⟩ := Option.ite_none_right_eq_some.mp hadd
        cases hadd
        have hfresh : Quiet K F _ ((s₁.setPte pid stackPage ⟨true, k, true, false⟩).setSpte pid
            stackPage (some .fresh)) := .setSpte (hK stackPage) (by
          rintro _ m ⟨⟩ hm
          cases hm)
        exact hfresh.trans (.of_setupStackTable hK (hfresh.toApart.spared hspared') (by simp) h)

end Pintos.Vm
