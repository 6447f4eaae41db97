/-
  Pintos.Vm.Unmap

  Making and ending mappings, seen from the pages they do not concern, and the
  mapping tables of the processes.

  Unmapping never fails an assertion: every frame it gives back is in use, and
  so does the rest of `process_exit`.
-/

import Pintos.Vm.Apart
import Pintos.Vm.SwapSlots

namespace Pintos.Vm

open Pintos.Base Pintos.Lib

variable {K : Pages} {F : Set FileId} {s s' : State} {pid : Pid} {page : PageNo} {k : Frame}
  {m : MemoryMapping}

/-! ## Making a mapping -/

/-- A process gets another supplemental page table, in which the pages of `K`
    have the same entries, and other mapping tables. -/
theorem Apart.setSpt {spt : PageNo → Option SupPageTableEntry} (l : List MemoryMapping) (n : Nat)
    (h : ∀ r, K pid r → spt r = s.spte pid r) :
    Apart K F s (s.setProc pid { s.procs pid with
      supPageTable := spt, mmapTable := l, nextMapid := n }) where
  spte p r hK := by
    rw [State.spte_setProc]
    split
    · rename_i hp
      subst hp
      exact h r hK
    · rfl
  pte p r _ := by
    rw [State.pte_setProc]
    split
    · rename_i hp
      rw [hp]
      rfl
    · rfl
  mem _ _ _ _ := rfl
  files _ _ := rfl

theorem Apart.setTables (l : List MemoryMapping) (n : Nat) :
    Apart K F s (s.setProc pid { s.procs pid with mmapTable := l, nextMapid := n }) :=
  .setSpt l n fun _ _ => rfl

/-! ## Ending a mapping -/

/-- A frame in use can be given back. -/
theorem pallocFreePage_of_used (hk : s.userPool[k]? = some true) :
    pallocFreePage s k =
      some ((s.setUserPool (s.userPool.set k false)).setMem k fun _ => 0xcc) := by
  rw [pallocFreePage, bitmapAll_one, bitmapSetMultiple_one, hk]
  rfl

theorem procs_unmapWriteBack (e : SupPageTableEntry) (n : Nat) (grow : Bool) :
    (unmapWriteBack s pid m page k e n grow).procs = s.procs := by
  simp only [unmapWriteBack]
  split
  · rcases fileWriteAt_eq s m.file ((s.mem k).bytes n) e.ofs grow with hw | ⟨-, hw⟩
    · simp only [hw]
    · simp only [hw, State.setFile]
  · rfl

/-- Unmapping a loaded page: it is written back if it is dirty, and its frame is
    given back. -/
theorem unmapLoaded_eq {e : SupPageTableEntry} (n : Nat) (grow : Bool) (hs : Shape s none)
    (hspte : s.spte pid page = some e) (hm : e.mapping = some m) (hload : e.isLoaded = true)
    (hn : n ≤ PGSIZE) :
    ∃ l s₁, unmapLoaded s pid m page e n grow = some s₁ ∧
      s₁.setSpte pid page none =
        (((unmapWriteBack s pid m page (s.pte pid page).frame e n grow).unmapFrame l pid page
          none).setUserPool ((unmapWriteBack s pid m page (s.pte pid page).frame e n
            grow).userPool.set (s.pte pid page).frame false)).setMem (s.pte pid page).frame
              fun _ => 0xcc := by
  have hp := hs.frames.present hspte hload
  have hget : pagedirGetPage s pid page = some (s.pte pid page).frame := by
    simp [pagedirGetPage, hp]
  have hwrite : Effects ∅ (fun _ _ => none) (s, none) _ ∧ _ :=
    Effects.of_unmapWriteBack grow hspte hm hp hn
  have hprocs : (unmapWriteBack s pid m page (s.pte pid page).frame e n grow).procs = s.procs :=
    procs_unmapWriteBack e n grow
  simp only [unmapLoaded, hget]
  generalize unmapWriteBack s pid m page (s.pte pid page).frame e n grow = t at hwrite hprocs ⊢
  have hpte : t.pte pid page = s.pte pid page := by rw [State.pte, hprocs, State.pte]
  rw [← hpte]
  rw [← hpte] at hp
  have hframes : FramesOk t none := (hs.effects hwrite.1).frames
  obtain ⟨hfound, l, hremove, -⟩ := frameTableRemoveByKpage_eq hframes hp
  have hused : (t.setFrameTable l).userPool[(t.pte pid page).frame]? = some true :=
    (hframes.frame pid page hp).1
  simp only [hfound, hremove, if_true, pallocFreePage_of_used hused, Option.map_some]
  refine ⟨l, _, rfl, ?_⟩
  have hp' : ((((t.setFrameTable l).setUserPool ((t.setFrameTable l).userPool.set
      (t.pte pid page).frame false)).setMem (t.pte pid page).frame fun _ => 0xcc).pte pid
        page).present = true := hp
  rw [pagedirClearPage, if_pos hp', State.setPte_setSpte_comm]
  rfl

/-- What one iteration of `memory_mapping_unmap` does. -/
theorem unmapPage_cases (pid : Pid) (page : PageNo) (n : Nat) (grow tmp : Bool) (hs : Shape s none)
    (hn : n ≤ PGSIZE) :
    (∃ e, s.spte pid page = some e ∧ e.mapping = some m ∧ e.isLoaded = true ∧
      ∃ l, unmapPage s pid m page n grow tmp = some
        ((((unmapWriteBack s pid m page (s.pte pid page).frame e n grow).unmapFrame l pid page
          none).setUserPool ((unmapWriteBack s pid m page (s.pte pid page).frame e n
            grow).userPool.set (s.pte pid page).frame false)).setMem (s.pte pid page).frame
              fun _ => 0xcc)) ∨
    (∃ e, s.spte pid page = some e ∧ e.mapping = some m ∧ e.isLoaded = false ∧
      unmapPage s pid m page n grow tmp = some (s.setSpte pid page none)) ∨
    (∀ e, s.spte pid page = some e → e.mapping ≠ some m) ∧
      unmapPage s pid m page n grow tmp = some s := by
  cases hspte : s.spte pid page with
  | none => exact Or.inr (Or.inr ⟨by simp, by simp [unmapPage, hspte]⟩)
  | some e =>
    by_cases hm : e.mapping = some m
    · have hsource := ((hs.entries.entry _ _ _ hspte).mapping m hm).1
      cases hload : e.isLoaded with
      | true =>
        obtain ⟨l, s₁, hpage, heq⟩ := unmapLoaded_eq n grow hs hspte hm hload hn
        refine Or.inl ⟨e, rfl, hm, hload, l, ?_⟩
        rw [← heq]
        simp [unmapPage, hspte, hm, hload, hpage, hsource]
      | false =>
        refine Or.inr (Or.inl ⟨e, rfl, hm, hload, ?_⟩)
        simp [unmapPage, hspte, hm, hload, unmapSwapped, hsource]
    · refine Or.inr (Or.inr ⟨?_, ?_⟩)
      · rintro _ ⟨⟩
        exact hm
      · simp [unmapPage, hspte, hm]

theorem Quiet.of_unmapWriteBack {e : SupPageTableEntry} {n : Nat} {grow : Bool}
    (hF : (s.pte pid page).dirty = true → m.file ∉ F) :
    Quiet K F s (unmapWriteBack s pid m page k e n grow) := by
  simp only [unmapWriteBack]
  split
  · rename_i hdirty
    exact .of_fileWriteAt (hF hdirty)
  · exact .refl s

/-- Unmapping a page touches no page outside the mapping, and writes to the
    file only if the page is dirty. -/
theorem Quiet.of_unmapPage {n : Nat} {grow tmp : Bool} (hs : Shape s none) (hn : n ≤ PGSIZE)
    (hK : ∀ e, K pid page → s.spte pid page = some e → e.mapping ≠ some m)
    (hF : ∀ e, s.spte pid page = some e → e.mapping = some m → (s.pte pid page).present = true →
      (s.pte pid page).dirty = true → m.file ∉ F)
    (h : unmapPage s pid m page n grow tmp = some s') : Quiet K F s s' := by
  rcases unmapPage_cases (m := m) pid page n grow tmp hs hn with
    ⟨e, hspte, hm, hload, l, heq⟩ | ⟨e, hspte, hm, -, heq⟩ | ⟨-, heq⟩
  · rw [heq] at h
    cases h
    have hpage : ¬ K pid page := fun h => hK e h hspte hm
    have hp := hs.frames.present hspte hload
    have hwrite : Quiet K F s (unmapWriteBack s pid m page (s.pte pid page).frame e n grow) :=
      .of_unmapWriteBack (hF e hspte hm hp)
    have hspared : Spared K s (s.pte pid page).frame := by
      intro q r hq hpres heq
      obtain ⟨rfl, rfl⟩ := hs.frames.frame_inj hpres hp heq
      exact hpage hq
    have hdrop : Quiet K F _ ((unmapWriteBack s pid m page (s.pte pid page).frame e n
        grow).unmapFrame l pid page none) := .unmapFrame hpage (by simp)
    refine hwrite.trans (hdrop.trans (.of_procs ((Apart.setUserPool _).trans (.setMem ?_ _)) rfl))
    exact hdrop.toApart.spared (hwrite.toApart.spared hspared)
  · rw [heq] at h
    cases h
    exact .setSpte (fun h => hK e h hspte hm) (by simp)
  · rw [heq] at h
    cases h
    exact .refl s

/-- `memory_mapping_unmap` fails no assertion. -/
theorem exists_unmapPages (pid : Pid) (m : MemoryMapping) (grow tmp : Bool) (n ofs : Nat) (page : PageNo)
    (hs : Shape s none) : ∃ s', unmapPages pid m grow tmp n ofs page s = some s' := by
  induction n generalizing s ofs page with
  | zero => exact ⟨s, rfl⟩
  | succ n ih =>
    obtain ⟨s₁, h₁⟩ : ∃ s₁, unmapPage s pid m page (pageReadBytes m.length ofs) grow tmp =
        some s₁ := by
      rcases unmapPage_cases (m := m) pid page (pageReadBytes m.length ofs)
        grow tmp hs (pageReadBytes_le _ _) with ⟨_, _, _, _, _, h⟩ | ⟨_, _, _, _, h⟩ | ⟨_, h⟩
      all_goals exact ⟨_, h⟩
    have heff : Effects ∅ (fun _ _ => none) (s, none) (s₁, none) :=
      (Effects.of_unmapPage hs (pageReadBytes_le _ _) h₁).1
    obtain ⟨s', h'⟩ := ih (ofs + pageReadBytes m.length ofs) (nextPage page) (hs.effects heff)
    exact ⟨s', by simp only [unmapPages, h₁, Option.bind_some, h']⟩

/-! ## The end of a process -/

theorem exists_unmapAll (pid : Pid) (grow tmp : Bool) (l : List MemoryMapping) (hs : Shape s none) :
    ∃ s', memoryMappingTableUnmapAll pid grow tmp l s = some s' := by
  induction l generalizing s with
  | nil => exact ⟨s, rfl⟩
  | cons m rest ih =>
    obtain ⟨s₁, h₁⟩ := exists_unmapPages pid m grow tmp (mappingPages m.length) 0
      m.userVaddr hs
    have heff : Effects ∅ (fun _ _ => none) (s, none) (s₁, none) :=
      (Effects.of_unmapPages hs h₁).1
    obtain ⟨s', h'⟩ := ih (hs.effects heff)
    exact ⟨s', by simp only [memoryMappingTableUnmapAll, memoryMappingUnmap, h₁,
      Option.bind_some, h']⟩

/-- `pagedir_destroy` fails no assertion: the frames it gives back are in use
    and different. -/
theorem exists_pagedirDestroy {l : List Pte}
    (hused : ∀ t ∈ l, t.present = true → s.userPool[t.frame]? = some true)
    (hne : l.Pairwise fun t t' => t.present = true → t'.present = true → t.frame ≠ t'.frame) :
    ∃ s', pagedirDestroy l s = some s' := by
  induction l generalizing s with
  | nil => exact ⟨s, rfl⟩
  | cons t rest ih =>
    obtain ⟨hhead, hrest⟩ := List.pairwise_cons.mp hne
    cases hp : t.present with
    | false =>
      obtain ⟨s', h'⟩ := ih (fun t ht => hused t (List.mem_cons_of_mem _ ht)) hrest
      exact ⟨s', by simp [pagedirDestroy, hp, h']⟩
    | true =>
      have hk := hused t (List.mem_cons_self ..) hp
      obtain ⟨s', h'⟩ := ih (s := (s.setUserPool (s.userPool.set t.frame false)).setMem t.frame
        fun _ => 0xcc) (fun u hu hup => by
          have hframe := hhead u hu hp hup
          show (s.userPool.set t.frame false)[u.frame]? = _
          rw [List.getElem?_set_ne hframe]
          exact hused u (List.mem_cons_of_mem _ hu) hup) hrest
      exact ⟨s', by simp [pagedirDestroy, hp, pallocFreePage_of_used hk, h']⟩

/-- The present pages of a directory are in different frames. -/
theorem FramesOk.pairwise_frame {h : Option Frame} (hs : FramesOk s h) (pid : Pid) :
    ((s.procs pid).pagedir.entries.map (·.2)).Pairwise
      fun t t' => t.present = true → t'.present = true → t.frame ≠ t'.frame := by
  rw [List.pairwise_map]
  have hkeys : (s.procs pid).pagedir.entries.Pairwise fun x y => x.1 ≠ y.1 :=
    List.pairwise_map.mp (s.procs pid).pagedir.nodupKeys
  refine hkeys.imp_of_mem fun {x y} hx hy hxy hpx hpy heq => ?_
  have hpte : ∀ z ∈ (s.procs pid).pagedir.entries, s.pte pid z.1 = z.2 := by
    intro z hz
    have hlookup : (s.procs pid).pagedir.lookup z.1 = some z.2 := AList.mem_lookup_iff.mpr hz
    simp [State.pte, PageDir.pte, hlookup]
  rw [← hpte x hx] at hpx heq
  rw [← hpte y hy] at hpy heq
  exact hxy (hs.frame_inj hpx hpy heq).2

/-- `process_exit` fails no assertion. -/
theorem exists_processExit (pid : Pid) (grow tmp : Bool) (hs : Shape s none) :
    ∃ s', processExit s pid grow tmp = some s' := by
  obtain ⟨s₁, h₁⟩ := exists_unmapAll pid grow tmp (s.procs pid).mmapTable hs
  have heff : Effects ∅ (fun _ _ => none) (s, none) (s₁, none) := (Effects.of_unmapAll hs h₁).1
  have hs₁ : Shape s₁ none := hs.effects heff
  obtain ⟨s₂, h₂⟩ : ∃ s₂, allowWriteExe s₁ pid = some s₂ := by
    simp only [allowWriteExe]
    split
    · exact ⟨_, rfl⟩
    · rename_i f hexe
      rw [if_neg (hs₁.deny.denied hexe)]
      exact ⟨_, rfl⟩
  obtain ⟨⟨fs, rfl⟩, -, -⟩ := allowWriteExe_eq h₂
  obtain ⟨s₃, h₃⟩ := exists_pagedirDestroy
    (s := frameTableRemoveOwnerFrames { s₁ with files := fs } pid)
    (l := (s₁.procs pid).pagedir.entries.map (·.2)) (fun t ht hp => by
      obtain ⟨page, rfl⟩ := exists_pte_of_mem (s := s₁) ht
      exact (hs₁.frames.frame pid page hp).1) (hs₁.frames.pairwise_frame pid)
  refine ⟨s₃.setProc pid {}, ?_⟩
  have h₃' : pagedirDestroy (((frameTableRemoveOwnerFrames { s₁ with files := fs } pid).procs
      pid).pagedir.entries.map (·.2)) (frameTableRemoveOwnerFrames { s₁ with files := fs } pid) =
        some s₃ := h₃
  simp only [processExit, h₁, h₂, Option.bind_some, h₃', Option.map_some]

end Pintos.Vm
