/-
  Pintos.Vm.MappedRun

  Runs of the system from the moment a file is mapped, with the bytes of the
  mapping beside the state: the mapping tables of the processes, the invariant
  of such a run, and what `munmap` and `process_exit` make of the file.
-/

import Pintos.Vm.MappedFile

namespace Pintos.Vm

open Pintos.Base Pintos.Lib Function

variable {pid q : Pid} {m m' : MemoryMapping} {w : List UInt8} {d j : Nat} {s s' : State}
  {page : PageNo} {k : Frame} {a : Step} {addr : Nat} {v : UInt8} {malloc : PageNo → Bool}
  {grow tmp : Bool} {x : State × List UInt8}

/-! ## Mapping tables -/

/-- What a step does to the mapping table of a process. -/
inductive TableStep (a : Step) (pid : Pid) (p p' : Process) : Prop
  | same (htable : p'.mmapTable = p.mmapTable) (hnext : p.nextMapid ≤ p'.nextMapid)
  | add (m : MemoryMapping) (htable : p'.mmapTable = p.mmapTable ++ [m])
      (hid : m.mapid = p.nextMapid) (hnext : p'.nextMapid = p.nextMapid + 1)
  | erase (m : MemoryMapping) (grow tmp : Bool) (hstep : a = .munmap pid m.mapid grow tmp)
      (htable : p'.mmapTable = p.mmapTable.erase m) (hnext : p'.nextMapid = p.nextMapid)
  | reset (htable : p'.mmapTable = [])
      (hstep : p.phase = .dead ∨ ∃ grow tmp, a = .processExit pid grow tmp)

/-- The step may touch every page and every file, but no mapping table. -/
abbrev TablesKept : State → State → Prop := Quiet (fun _ _ => False) ∅

theorem TableStep.of_quiet (h : TablesKept s s') (q : Pid) :
    TableStep a q (s.procs q) (s'.procs q) :=
  .same (h.mmapTable q) (Nat.le_of_eq (h.nextMapid q).symm)

/-- A store touches the page it is to. -/
theorem Quiet.of_store {K : Pages} {F : Set FileId} (hs : Shape s none)
    (hK : ¬ K q (addr / PGSIZE)) (hn : next s (.store q addr v) = some s') : Quiet K F s s' := by
  obtain ⟨-, hp, -, rfl⟩ := store_eq hn
  have hspared : Spared K s (s.pte q (addr / PGSIZE)).frame := by
    intro p r hr hpres heq
    obtain ⟨rfl, rfl⟩ := hs.frames.frame_inj hpres hp heq
    exact hK hr
  exact (Quiet.setMem hspared _).trans (.setPte hK _)

theorem Quiet.of_pageFault {f : PageFault} {a : Allocs} (hs : Shape s none)
    (h : pageFault s pid f a = some s') : TablesKept s s' := by
  have hframe : ∀ {s₁ r}, faultFrame s a = some (s₁, r) → TablesKept s s₁ := by
    intro s₁ r hf
    rcases faultFrame_cases hf with ⟨k, hk, -⟩ | ⟨-, hev⟩
    · exact .of_pallocGetPage hs hk
    · rcases swapEvictFrame_cases hev with ⟨rfl, -⟩ | ⟨i, k, p, page, e, -, -, hspte, hev⟩
      · exact .refl _
      · exact .of_evicted id hspte (fun _ _ => id) (.of_evictEntry hev)
  rcases pageFault_cases h with rfl | ⟨s₁, hf, rfl⟩ | ⟨s₁, k, hf, h⟩
  · exact .exit pid
  · exact (hframe hf).trans (.exit pid)
  · have heff : Effects ∅ (fun _ _ => none) (s, none) (s₁, some k) :=
      (Effects.of_faultFrame hs hf).1
    exact (hframe hf).trans (.of_faultFill (hs.effects heff) id h)

theorem TableStep.of_mmapFile {f : FileId} {reopen create : Bool} (hs : Shape s none) (p : Pid) :
    TableStep a p (s.procs p) ((mmapFile s q f page reopen create malloc).2.procs p) := by
  rcases hrun : mmapFile s q f page reopen create malloc with ⟨_ | id, s'⟩
  · rcases mmapFile_none hs.entries.not_new hrun with rfl | ⟨n, hn, rfl⟩
    · exact .same rfl (Nat.le_refl _)
    rw [State.procs_setProc]
    split
    · rename_i hp
      subst hp
      exact .same rfl hn
    · exact .same rfl (Nat.le_refl _)
  · obtain ⟨spt, -, rfl, rfl, -, -⟩ := mmapFile_some hrun
    rw [State.procs_setProc]
    split
    · rename_i hp
      subst hp
      exact .add ⟨f, page, (s.files f).contents.length, (s.procs p).nextMapid⟩ rfl rfl rfl
    · exact .same rfl (Nat.le_refl _)

/-- `munmap_file` takes the mapping off the table of its owner and is quiet
    otherwise. -/
theorem munmapFile_cases {mapid : Nat} (hu : munmapFile s q mapid grow tmp = some s') :
    s' = s ∨ ∃ m ∈ (s.procs q).mmapTable, m.mapid = mapid ∧
      memoryMappingUnmap (s.setProc q { s.procs q with mmapTable := (s.procs q).mmapTable.erase m })
        q m grow tmp = some s' := by
  simp only [munmapFile] at hu
  split at hu
  · exact Or.inl (Option.some.inj hu).symm
  · rename_i m hfind
    exact Or.inr ⟨m, List.mem_of_find?_eq_some hfind, by simpa using List.find?_some hfind, hu⟩

theorem Quiet.of_unmapPages {n ofs : Nat} (hs : Shape s none)
    (hu : unmapPages q m grow tmp n ofs page s = some s') : TablesKept s s' := by
  induction n generalizing s ofs page with
  | zero =>
    cases hu
    exact .refl _
  | succ n ih =>
    obtain ⟨s₁, h₁, hu⟩ := Option.bind_eq_some_iff.mp hu
    have heff : Effects ∅ (fun _ _ => none) (s, none) (s₁, none) :=
      (Effects.of_unmapPage hs (pageReadBytes_le _ _) h₁).1
    have hpage : TablesKept s s₁ :=
      .of_unmapPage hs (pageReadBytes_le _ _) (fun _ h => h.elim) (fun _ _ _ _ _ h => h) h₁
    exact hpage.trans (ih (hs.effects heff) hu)

theorem Quiet.of_unmapAll {l : List MemoryMapping} (hs : Shape s none)
    (hu : memoryMappingTableUnmapAll q grow tmp l s = some s') :
    TablesKept s s' := by
  induction l generalizing s with
  | nil =>
    cases hu
    exact .refl _
  | cons m rest ih =>
    obtain ⟨s₁, h₁, hu⟩ := Option.bind_eq_some_iff.mp hu
    have heff : Effects ∅ (fun _ _ => none) (s, none) (s₁, none) := (Effects.of_unmapPages hs h₁).1
    exact (Quiet.of_unmapPages hs h₁).trans (ih (hs.effects heff) hu)

theorem Shape.setTables (hs : Shape s none) {l : List MemoryMapping} :
    Shape (s.setProc q { s.procs q with mmapTable := l }) none :=
  hs.effect (show Effect ∅ (fun _ _ => none) _ _ from .mappings (l := l) (Nat.le_refl _))

theorem TableStep.of_next (hs : Shape s none) (hn : next s a = some s') (p : Pid) :
    TableStep a p (s.procs p) (s'.procs p) := by
  cases a with
  | spawn q f =>
    simp only [next] at hn
    split at hn
    · rename_i hdead
      cases hn
      rw [State.procs_setProc]
      split
      · rename_i hp
        subst hp
        exact .reset rfl (Or.inl hdead)
      · exact .same rfl (Nat.le_refl _)
    · cases hn
  | loadSegment q ofs page readBytes zeroBytes writable malloc =>
    simp only [next] at hn
    split at hn
    · obtain ⟨f, -, hl⟩ := Option.bind_eq_some_iff.mp hn
      exact .of_quiet (.of_loadSegment (fun _ => id) hl) p
    · cases hn
  | setupStack q a =>
    simp only [next] at hn
    split at hn
    · exact .of_quiet (.of_setupStack hs (fun _ => id) hn) p
    · cases hn
  | store q addr v => exact .of_quiet (.of_store hs id hn) p
  | fault q f write a =>
    simp only [next] at hn
    split at hn
    · exact .of_quiet (Quiet.of_pageFault hs hn) p
    · cases hn
  | mmap q f page reopen create malloc =>
    simp only [next] at hn
    split at hn
    · cases hn
      exact .of_mmapFile hs p
    · cases hn
  | munmap q mapid grow tmp =>
    simp only [next] at hn
    split at hn
    · rcases munmapFile_cases hn with rfl | ⟨m, -, rfl, hu⟩
      · exact .same rfl (Nat.le_refl _)
      · have hquiet := Quiet.of_unmapPages hs.setTables hu
        by_cases hp : p = q
        · subst hp
          refine .erase m grow tmp rfl ?_ ?_
          · rw [hquiet.mmapTable, State.procs_setProc, if_pos rfl]
          · rw [hquiet.nextMapid, State.procs_setProc, if_pos rfl]
        · refine .same ?_ (Nat.le_of_eq ?_)
          · rw [hquiet.mmapTable, State.procs_setProc, if_neg hp]
          · rw [hquiet.nextMapid, State.procs_setProc, if_neg hp]
    · cases hn
  | fileWrite f data ofs grow =>
    cases hn
    exact .of_quiet (.of_fileWriteAt id) p
  | exit q =>
    simp only [next] at hn
    split at hn
    · cases hn
    · cases hn
      exact .of_quiet (.exit q) p
  | processExit q grow tmp =>
    simp only [next] at hn
    split at hn
    · obtain ⟨s₁, hunmap, hn⟩ := Option.bind_eq_some_iff.mp hn
      obtain ⟨s₂, hallow, hn⟩ := Option.bind_eq_some_iff.mp hn
      obtain ⟨s₃, hdestroy, rfl⟩ := Option.map_eq_some_iff.mp hn
      obtain ⟨⟨fs, rfl⟩, -, -⟩ := allowWriteExe_eq hallow
      obtain ⟨⟨b, mem, rfl⟩, -⟩ := pagedirDestroy_eq hdestroy
      rw [State.procs_setProc]
      split
      · rename_i hp
        subst hp
        exact .reset rfl (Or.inr ⟨grow, tmp, rfl⟩)
      · exact .of_quiet (Quiet.of_unmapAll hs hunmap) p
    · cases hn

/-- The mappings in a table have ids below the next one. -/
def TableOk (p : Process) : Prop := ∀ m ∈ p.mmapTable, m.mapid < p.nextMapid

theorem TableOk.step {p p' : Process} (h : TableOk p) (hs : TableStep a pid p p') :
    TableOk p' := by
  intro m hm
  cases hs with
  | same htable hnext =>
    rw [htable] at hm
    exact Nat.lt_of_lt_of_le (h m hm) hnext
  | add m' htable hid hnext =>
    rw [htable] at hm
    rw [hnext]
    rcases List.mem_append.mp hm with hold | hnew
    · exact Nat.lt_succ_of_lt (h m hold)
    · rw [List.mem_singleton.mp hnew, hid]
      exact Nat.lt_succ_self _
  | erase m' grow tmp hstep htable hnext =>
    rw [htable] at hm
    rw [hnext]
    exact h m (List.mem_of_mem_erase hm)
  | reset htable =>
    rw [htable] at hm
    cases hm

theorem TableOk.of_reachable (h : system.Reachable s) (q : Pid) : TableOk (s.procs q) := by
  have hboth : Shape s none ∧ ∀ q, TableOk (s.procs q) := by
    refine System.Reachable.invariant (I := fun s => Shape s none ∧ ∀ q, TableOk (s.procs q))
      (fun s hi => ⟨Shape.initial hi, fun q => ?_⟩) (fun s a s' hs hn => ?_) h
    · rw [hi.procs q]
      intro m hm
      cases hm
    · exact ⟨hs.1.next hn, fun q => (hs.2 q).step (.of_next hs.1 hn q)⟩
  exact hboth.2 q

/-- The mapping is in the table, and it is found by its id. -/
structure Listed (p : Process) (m : MemoryMapping) : Prop where
  mem : m ∈ p.mmapTable
  unique : ∀ m' ∈ p.mmapTable, m'.mapid = m.mapid → m' = m
  lt : m.mapid < p.nextMapid

theorem Listed.find? {p : Process} (h : Listed p m) :
    (p.mmapTable.find? fun m' => m'.mapid = m.mapid) = some m := by
  cases hfind : p.mmapTable.find? fun m' => m'.mapid = m.mapid with
  | none =>
    have := List.find?_eq_none.mp hfind m h.mem
    simp at this
  | some m' =>
    have hid : m'.mapid = m.mapid := by simpa using List.find?_some hfind
    rw [h.unique m' (List.mem_of_find?_eq_some hfind) hid]

theorem Listed.step {p p' : Process} (h : Listed p m) (hs : TableStep a pid p p')
    (hlive : p.phase ≠ .dead) (hunmap : ∀ grow tmp, a ≠ .munmap pid m.mapid grow tmp)
    (hexit : ∀ grow tmp, a ≠ .processExit pid grow tmp) : Listed p' m := by
  cases hs with
  | same htable hnext =>
    refine ⟨?_, ?_, Nat.lt_of_lt_of_le h.lt hnext⟩
    · rw [htable]
      exact h.mem
    · rw [htable]
      exact h.unique
  | add m' htable hid hnext =>
    refine ⟨?_, ?_, ?_⟩
    · rw [htable]
      exact List.mem_append_left _ h.mem
    · intro m'' hmem heq
      rw [htable] at hmem
      rcases List.mem_append.mp hmem with hold | hnew
      · exact h.unique m'' hold heq
      · have := h.lt
        rw [List.mem_singleton.mp hnew, hid] at heq
        omega
    · rw [hnext]
      exact Nat.lt_succ_of_lt h.lt
  | erase m' grow tmp hstep htable hnext =>
    have hne : m ≠ m' := by
      rintro rfl
      exact hunmap grow tmp hstep
    refine ⟨?_, ?_, ?_⟩
    · rw [htable]
      exact (List.mem_erase_of_ne hne).mpr h.mem
    · intro m'' hmem
      rw [htable] at hmem
      exact h.unique m'' (List.mem_of_mem_erase hmem)
    · rw [hnext]
      exact h.lt
  | reset htable hstep =>
    rcases hstep with hdead | ⟨grow, tmp, rfl⟩
    · exact absurd hdead hlive
    · exact absurd rfl (hexit grow tmp)

/-! ## Stores -/

/-- Page and offset of an address, counted from page `u` in 32 bits. -/
theorem offset_div_mod {u : Nat} (hu : u < 2 ^ 20) (haddr : addr < 2 ^ 32) :
    (u + (addr + 2 ^ 32 - u * 4096) % 2 ^ 32 / 4096) % 2 ^ 20 = addr / 4096 ∧
      (addr + 2 ^ 32 - u * 4096) % 2 ^ 32 % 4096 = addr % 4096 := by
  omega

/-- Where the byte of an address is in the mapping. -/
theorem mappedOffset_spec (hv : m.userVaddr < 2 ^ 20) (haddr : addr < 2 ^ 32) :
    mappingPage m (mappedOffset m addr / PGSIZE) = addr / PGSIZE ∧
      mappedOffset m addr % PGSIZE = addr % PGSIZE :=
  offset_div_mod hv haddr

/-- Page numbers come back after `2 ^ 20` pages, not before. -/
theorem eq_of_mod_eq {u i j : Nat} (hi : i < 2 ^ 20) (hj : j < 2 ^ 20)
    (h : (u + i) % 2 ^ 20 = (u + j) % 2 ^ 20) : i = j := by
  omega

/-- A mapping has at most as many pages as there are. -/
theorem Backed.lt_two_pow (h : Backed pid m w 0 s) (hjn : j < mappingPages m.length) :
    j < 2 ^ 20 := by
  by_contra hge
  have hpage : mappingPage m j = mappingPage m (j - 2 ^ 20) := by
    have hj : j = j - 2 ^ 20 + 2 ^ 20 := by omega
    rw [hj]
    simp only [mappingPage, Nat.add_sub_cancel]
    rw [← Nat.add_assoc]
    exact Nat.add_mod_right _ _
  have := h.page_inj (Nat.zero_le _) hjn (Nat.zero_le _)
    (Nat.lt_of_le_of_lt (Nat.sub_le _ _) hjn) hpage
  omega

/-- An address in a page of the mapping is at an offset in that page. -/
theorem Backed.mappedOffset_div (h : Backed pid m w 0 s) (hv : m.userVaddr < 2 ^ 20)
    (haddr : addr < 2 ^ 32) (hjn : j < mappingPages m.length)
    (hj : addr / PGSIZE = mappingPage m j) : mappedOffset m addr / PGSIZE = j := by
  have hoff : mappedOffset m addr / PGSIZE < 2 ^ 20 := by
    simp only [mappedOffset, PGSIZE]
    omega
  have hspec := (mappedOffset_spec hv haddr).1
  rw [hj] at hspec
  exact eq_of_mod_eq hoff (h.lt_two_pow hjn) hspec

/-- The bytes of the mapping after a step of the system: a store of its owner
    into one of its pages changes one of them. -/
def storeMapped (pid : Pid) (m : MemoryMapping) (w : List UInt8) : Step → List UInt8
  | .store q addr v => if q = pid then w.set (mappedOffset m addr) v else w
  | _ => w

theorem Backed.of_store (h : Backed pid m w 0 s) (hs : Shape s none)
    (hv : m.userVaddr < 2 ^ 20) (hn : next s (.store q addr v) = some s') :
    Backed pid m (storeMapped pid m w (.store q addr v)) 0 s' := by
  have haddr : addr < 2 ^ 32 := by
    by_contra hge
    have huser : isUserVaddr addr = false := by
      simp only [isUserVaddr, PHYS_BASE, decide_eq_false_iff_not]
      omega
    simp [next, userStore, huser] at hn
  by_cases hown : Own pid m q (addr / PGSIZE)
  case neg =>
    -- a store elsewhere
    have hsame : storeMapped pid m w (.store q addr v) = w := by
      simp only [storeMapped]
      split
      · rename_i hq
        subst hq
        rw [List.set_eq_of_length_le]
        rw [h.bytes]
        by_contra hlt
        exact hown ⟨rfl, _, div_lt_mappingPages (Nat.lt_of_not_le hlt),
          (mappedOffset_spec hv haddr).1.symm⟩
      · rfl
    rw [hsame]
    exact h.quiet (.of_store hs hown hn)
  obtain ⟨rfl, j, hjn, hj⟩ := hown
  obtain ⟨-, hp, -, rfl⟩ := store_eq hn
  have hdiv := h.mappedOffset_div hv haddr hjn hj
  have hmod := (mappedOffset_spec hv haddr).2
  have hset : storeMapped q m w (.store q addr v) = w.set (mappedOffset m addr) v := if_pos rfl
  rw [hset]
  rw [hj] at hp ⊢
  have hpage : ∀ i < m.length, mappingPage m (i / PGSIZE) = mappingPage m j ↔ i / PGSIZE = j :=
    fun i hi => h.mappedPage_eq_iff hi (Nat.zero_le _) (Nat.zero_le _) hjn
  have hother : ∀ i, i / PGSIZE ≠ j → (w.set (mappedOffset m addr) v)[i]? = w[i]? := by
    intro i hij
    rw [List.getElem?_set_ne]
    rintro rfl
    exact hij hdiv
  constructor
  case bytes =>
    rw [List.length_set]
    exact h.bytes
  case length => exact h.length
  case deny => exact h.deny
  case le => exact h.le
  case gone => exact fun j hj => absurd hj (Nat.not_lt_zero j)
  case entry =>
    intro i _ hin
    rw [State.spte_setPte, State.pte_setPte, State.spte_setMem, h.entry i (Nat.zero_le _) hin]
    split
    · rename_i hi
      rw [hi.2]
    · rfl
  case sole => exact fun r e he hm => h.sole r e (by rwa [State.spte_setPte] at he) hm
  case frame =>
    intro i hi hd hpres
    rw [mappedPte, State.pte_setPte] at hpres ⊢
    by_cases hij : i / PGSIZE = j
    · rw [if_pos ⟨rfl, (hpage i hi).mpr hij⟩]
      show _ = some (update s.mem _ _ _ (i % PGSIZE))
      rw [update_self, update_apply]
      have hi' : (mappedPte s q m i).present = true := by
        rw [mappedPte, hij]
        exact hp
      have hframe := h.frame i hi hd hi'
      rw [mappedPte, hij] at hframe
      by_cases hoff : i % PGSIZE = addr % PGSIZE
      · have heq : mappedOffset m addr = i := by
          rw [← Nat.div_add_mod' (mappedOffset m addr) PGSIZE, ← Nat.div_add_mod' i PGSIZE, hdiv,
            hmod, hij, hoff]
        rw [if_pos hoff, heq, List.getElem?_set_self (by rw [h.bytes]; exact hi)]
      · rw [if_neg hoff, List.getElem?_set_ne]
        · exact hframe
        · rintro rfl
          exact hoff hmod
    · have hne : ¬ (q = q ∧ mappingPage m (i / PGSIZE) = mappingPage m j) :=
        fun hc => hij ((hpage i hi).mp hc.2)
      rw [if_neg hne] at hpres ⊢
      rw [State.pte_setMem] at hpres ⊢
      have hframe : (s.pte q (mappingPage m (i / PGSIZE))).frame ≠
          (s.pte q (mappingPage m j)).frame :=
        fun heq => hne (hs.frames.frame_inj hpres hp heq)
      show _ = some (update s.mem _ _ _ (i % PGSIZE))
      rw [update_of_ne hframe, hother i hij]
      exact h.frame i hi hd hpres
  case file =>
    intro i hi hclean
    by_cases hij : i / PGSIZE = j
    · rw [mappedPte, State.pte_setPte, if_pos ⟨rfl, (hpage i hi).mpr hij⟩] at hclean
      have := hclean (Nat.zero_le _) hp
      cases this
    · rw [mappedPte, State.pte_setPte,
        if_neg fun hc => hij ((hpage i hi).mp hc.2), State.pte_setMem] at hclean
      rw [hother i hij]
      exact h.file i hi hclean

theorem OthersClean.store (h : OthersClean pid m s)
    (hok : ∀ e m', s.spte q (addr / PGSIZE) = some e → e.mapping = some m' → m'.file = m.file →
      q = pid ∧ m' = m) (hn : next s (.store q addr v) = some s') : OthersClean pid m s' := by
  obtain ⟨-, -, -, rfl⟩ := store_eq hn
  intro p r e m' he hm hf hp hd
  rw [State.spte_setPte, State.spte_setMem] at he
  rw [State.pte_setPte, State.pte_setMem] at hp hd
  by_cases hpr : p = q ∧ r = addr / PGSIZE
  · obtain ⟨rfl, rfl⟩ := hpr
    exact hok e m' he hm hf
  · rw [if_neg hpr] at hp hd
    exact h p r e m' he hm hf hp hd

/-! ## The start -/

/-- When the loop of `mmap_file` succeeds, the pages that are left had no entry
    and have one of the mapping. -/
theorem mmapPages_true {n ofs : Nat}
    (hn : j + n = mappingPages m.length) (hofs : n ≠ 0 → ofs = j * PGSIZE)
    (hpage : n ≠ 0 → page = mappingPage m j)
    (h : mmapPages pid m malloc n ofs page s = (true, s')) :
    (∀ i, j ≤ i → i < mappingPages m.length → s.spte pid (mappingPage m i) = none ∧
      s'.spte pid (mappingPage m i) = some (mappingEntry m (i * PGSIZE))) ∧
    (∀ r, (∀ i, j ≤ i → i < mappingPages m.length → r ≠ mappingPage m i) →
      s'.spte pid r = s.spte pid r) := by
  induction n generalizing s j ofs page with
  | zero =>
    cases h
    exact ⟨fun i hi hin => by omega, fun _ _ => rfl⟩
  | succ n ih =>
    obtain rfl := hofs (Nat.succ_ne_zero n)
    obtain rfl := hpage (Nat.succ_ne_zero n)
    simp only [mmapPages] at h
    split at h
    · cases h
    split at h
    · cases h
    rename_i hsome _
    have hspte : s.spte pid (mappingPage m j) = none := by simpa using hsome
    obtain ⟨hadded, hothers⟩ := ih (j := j + 1) (by omega)
      (fun hne => add_pageReadBytes (by omega)) (fun _ => nextPage_mappingPage m j) h
    -- the later pages had no entry after this one got its own
    have hne : ∀ i, j + 1 ≤ i → i < mappingPages m.length →
        mappingPage m j ≠ mappingPage m i := by
      intro i hi hin heq
      have := (hadded i hi hin).1
      rw [State.spte_setSpte, if_pos ⟨rfl, heq.symm⟩] at this
      cases this
    refine ⟨fun i hi hin => ?_, fun r hr => ?_⟩
    · rcases Nat.eq_or_lt_of_le hi with rfl | hlt
      · refine ⟨hspte, ?_⟩
        rw [hothers _ hne, State.spte_setSpte, if_pos ⟨rfl, rfl⟩]
      · obtain ⟨hnone, hentry⟩ := hadded i hlt hin
        rw [State.spte_setSpte, if_neg fun hc => hne i hlt hin hc.2.symm] at hnone
        exact ⟨hnone, hentry⟩
    · rw [hothers r fun i hi hin => hr i (by omega) hin, State.spte_setSpte,
        if_neg fun hc => hr j (Nat.le_refl j) (by omega) hc.2]

/-- The state a successful `mmap_file` leaves. -/
structure JustMapped (s : State) (pid : Pid) (m : MemoryMapping) (s' : State) : Prop where
  length : m.length = (s.files m.file).contents.length
  pos : 0 < m.length
  mapid : m.mapid = (s.procs pid).nextMapid
  entry : ∀ j < mappingPages m.length, s.spte pid (mappingPage m j) = none ∧
    s'.spte pid (mappingPage m j) = some (mappingEntry m (j * PGSIZE))
  others : ∀ r, (∀ j < mappingPages m.length, r ≠ mappingPage m j) →
    s'.spte pid r = s.spte pid r
  table : (s'.procs pid).mmapTable = (s.procs pid).mmapTable ++ [m]
  nextMapid : (s'.procs pid).nextMapid = (s.procs pid).nextMapid + 1
  pte : ∀ r, s'.pte pid r = s.pte pid r
  files : s'.files = s.files

theorem JustMapped.of_mmapFile {f : FileId} {reopen create : Bool} {id : Nat}
    (hv : page < 2 ^ 20) (h : mmapFile s pid f page reopen create malloc = (some id, s')) :
    JustMapped s pid ⟨f, page, (s.files f).contents.length, id⟩ s' := by
  obtain ⟨spt, hloop, rfl, rfl, hne, -⟩ := mmapFile_some h
  obtain ⟨hadded, hothers⟩ := mmapPages_true (j := 0)
    (m := ⟨f, page, (s.files f).contents.length, (s.procs pid).nextMapid⟩) (Nat.zero_add _)
    (fun _ => (Nat.zero_mul _).symm)
    (fun _ => by rw [mappingPage, Nat.add_zero, Nat.mod_eq_of_lt hv]) hloop
  simp only [State.setSpt, State.spte_setProc, State.procs_setProc, if_true] at hadded hothers
  constructor
  case length => rfl
  case pos => exact Nat.pos_of_ne_zero hne
  case mapid => rfl
  case entry =>
    intro j hj
    rw [State.spte_setProc, if_pos rfl]
    exact hadded j (Nat.zero_le _) hj
  case others =>
    intro r hr
    rw [State.spte_setProc, if_pos rfl]
    exact hothers r fun i _ hin => hr i hin
  case table => rw [State.procs_setProc, if_pos rfl]
  case nextMapid => rw [State.procs_setProc, if_pos rfl]
  case pte =>
    intro r
    rw [State.pte_setProc, if_pos rfl]
    rfl
  case files => rfl

theorem Backed.start (hs : Shape s none) (h : JustMapped s pid m s')
    (hdeny : (s.files m.file).denyWriteCnt = 0) :
    Backed pid m (s.files m.file).contents 0 s' := by
  have habsent : ∀ j < mappingPages m.length, (s'.pte pid (mappingPage m j)).present = false := by
    intro j hj
    rw [h.pte]
    exact hs.frames.not_present (by simp [(h.entry j hj).1])
  constructor
  case bytes => exact h.length.symm
  case length => rw [h.files]; exact h.length.symm
  case deny => rw [h.files]; exact hdeny
  case le => exact Nat.zero_le _
  case gone => exact fun j hj => absurd hj (Nat.not_lt_zero j)
  case entry =>
    intro j _ hj
    rw [(h.entry j hj).2, habsent j hj]
    rfl
  case sole =>
    intro r e he hm
    by_contra hno
    have hr : ∀ j < mappingPages m.length, r ≠ mappingPage m j :=
      fun j hj heq => hno ⟨j, Nat.zero_le _, hj, heq⟩
    rw [h.others r hr] at he
    -- an older entry has an older mapping
    have hid := ((hs.entries.entry pid r e he).mapping m hm).2.2.2.2
    rw [h.mapid] at hid
    exact Nat.lt_irrefl _ hid
  case frame =>
    intro i hi _ hp
    rw [mappedPte, habsent _ (div_lt_mappingPages hi)] at hp
    cases hp
  case file =>
    intro i _ _
    rw [h.files]

theorem Listed.start (htable : TableOk (s.procs pid)) (h : JustMapped s pid m s') :
    Listed (s'.procs pid) m := by
  refine ⟨?_, ?_, ?_⟩
  · rw [h.table]
    exact List.mem_append_right _ (List.mem_singleton_self m)
  · intro m' hmem heq
    rw [h.table] at hmem
    rcases List.mem_append.mp hmem with hold | hnew
    · have := htable m' hold
      rw [heq, h.mapid] at this
      exact absurd this (Nat.lt_irrefl _)
    · exact List.mem_singleton.mp hnew
  · rw [h.nextMapid, h.mapid]
    exact Nat.lt_succ_self _

/-! ## Runs -/

/-- The runs of a mapping: they begin when a process of a reachable state has
    mapped a file that is not write-denied and that no other mapping has
    dirtied; the bytes of the mapping are kept beside the state. -/
def mappedRun (pid : Pid) (m : MemoryMapping) : System (State × List UInt8) Step where
  start x := ∃ s reopen create malloc, system.Reachable s ∧ (s.procs pid).phase = .running ∧
    m.userVaddr < 2 ^ 20 ∧ m.length = (s.files m.file).contents.length ∧
    (s.files m.file).denyWriteCnt = 0 ∧ ¬ DirtyMapping s m.file ∧
    mmapFile s pid m.file m.userVaddr reopen create malloc = (some m.mapid, x.1) ∧
    x.2 = (s.files m.file).contents
  next x a := (next x.1 a).map fun s' => (s', storeMapped pid m x.2 a)

/-- A condition on steps: nobody else writes the file, by a write, by a store
    through another mapping or by running it, which denies writes to it; and
    the mapping does not end. -/
def keepsOff (pid : Pid) (m : MemoryMapping) (s : State) : Step → Bool
  | .spawn _ f => f ≠ m.file
  | .fileWrite f _ _ _ => f ≠ m.file
  | .store q addr _ => (s.spte q (addr / PGSIZE)).all fun e => e.mapping.all fun m' =>
    m'.file ≠ m.file || (q = pid && m' = m)
  | .munmap q mapid _ _ => !(q = pid && mapid = m.mapid)
  | .processExit q _ _ => q ≠ pid
  | _ => true

/-- The invariant of a run of a mapping. -/
structure MappedOk (pid : Pid) (m : MemoryMapping) (x : State × List UInt8) : Prop where
  vaddr : m.userVaddr < 2 ^ 20
  pos : 0 < m.length
  shape : Shape x.1 none
  clean : OthersClean pid m x.1
  listed : Listed (x.1.procs pid) m
  backed : Backed pid m x.2 0 x.1

/-- The owner of the mapping is alive, and it is not being loaded. -/
theorem MappedOk.phase (h : MappedOk pid m x) :
    (x.1.procs pid).phase ≠ .dead ∧ (x.1.procs pid).phase ≠ .loading := by
  have hfirst : 0 < mappingPages m.length := div_lt_mappingPages h.pos |>.trans_le' (Nat.zero_le _)
  have hentry := h.shape.entries.entry _ _ _ (h.backed.entry 0 (Nat.zero_le _) hfirst)
  refine ⟨hentry.live, fun hload => ?_⟩
  have := (hentry.loading hload).2.2
  cases this

theorem MappedOk.of_start (h : (mappedRun pid m).start x) :
    MappedOk pid m x := by
  obtain ⟨s, reopen, create, malloc, hreach, hphase, hv, hlen, hdeny, hdirty, hmap, hc⟩ := h
  have hs := Shape.of_reachable hreach
  have hm : m = ⟨m.file, m.userVaddr, (s.files m.file).contents.length, m.mapid⟩ := by
    rw [← hlen]
  have hjust : JustMapped s pid m x.1 := by
    rw [hm]
    exact .of_mmapFile hv hmap
  have hstep : next s (.mmap pid m.file m.userVaddr reopen create malloc) = some x.1 := by
    rw [next, if_pos hphase, hmap]
  have hclean : OthersClean pid m s := by
    intro q r e m' he hm' hf hp hd
    exact absurd ⟨q, r, e, m', he, hm', hf, hp, hd⟩ hdirty
  refine ⟨hv, hjust.pos, hs.next hstep, ?_, .start (.of_reachable hreach pid) hjust, ?_⟩
  · rcases next_cases hs hstep with ⟨q, addr, v, hstore⟩ | heff | ⟨q, s₁, ⟨g, t, hexit⟩, -⟩
    · cases hstore
    · exact hclean.effects hs heff
    · cases hexit
  · rw [hc]
    exact .start hs hjust hdeny

theorem keepsOff_store (h : keepsOff pid m s (.store q addr v) = true)
    {e : SupPageTableEntry} (he : s.spte q (addr / PGSIZE) = some e) (hm : e.mapping = some m')
    (hf : m'.file = m.file) : q = pid ∧ m' = m := by
  simpa [keepsOff, he, hm, hf] using h

/-- Every step that keeps off the file keeps the invariant. -/
theorem MappedOk.next {y : State × List UInt8} (h : MappedOk pid m x)
    (hok : keepsOff pid m x.1 a = true) (hn : (mappedRun pid m).next x a = some y) :
    MappedOk pid m y := by
  obtain ⟨s', hs', rfl⟩ := Option.map_eq_some_iff.mp hn
  have hclean : OthersClean pid m s' := by
    rcases next_cases h.shape hs' with ⟨q, addr, v, rfl⟩ | heff | ⟨q, s₁, -, heff, -, hr⟩
    · exact h.clean.store (fun e m' he hm hf => keepsOff_store hok he hm hf) hs'
    · exact h.clean.effects h.shape heff
    · exact (h.clean.effects h.shape heff).reap hr
  have hlisted : Listed (s'.procs pid) m := by
    refine h.listed.step (.of_next h.shape hs' pid) h.phase.1 ?_ ?_
    · rintro grow tmp rfl
      simp [keepsOff] at hok
    · rintro grow tmp rfl
      simp [keepsOff] at hok
  refine ⟨h.vaddr, h.pos, h.shape.next hs', hclean, hlisted, ?_⟩
  have hb := h.backed
  -- a process that is being loaded owns no page of the mapping
  have hloading : ∀ q, (x.1.procs q).phase = .loading → ∀ r, ¬ Own pid m q r := by
    rintro q hq r ⟨rfl, -⟩
    exact h.phase.2 hq
  cases a with
  | spawn q f =>
    simp only [Vm.next] at hs'
    split at hs'
    · rename_i hdead
      cases hs'
      have hne : f ≠ m.file := by simpa [keepsOff] using hok
      have hf : f ∉ ({m.file} : Set FileId) := hne
      have hq : q ≠ pid := by
        rintro rfl
        exact h.phase.1 hdead
      refine (hb.quiet (.setFile hf _)).apart ⟨?_, ?_, fun _ _ _ _ => rfl, fun _ _ => rfl⟩ ?_
      · rintro _ r ⟨rfl, -⟩
        rw [State.spte_setProc, if_neg (Ne.symm hq)]
      · rintro _ r ⟨rfl, -⟩
        rw [State.pte_setProc, if_neg (Ne.symm hq)]
      · intro r e he hm
        rw [State.spte_setProc, if_neg (Ne.symm hq)] at he
        exact ⟨e, he, hm⟩
    · cases hs'
  | loadSegment q ofs page readBytes zeroBytes writable malloc =>
    simp only [Vm.next] at hs'
    split at hs'
    · rename_i hq
      obtain ⟨f, -, hl⟩ := Option.bind_eq_some_iff.mp hs'
      exact hb.quiet (.of_loadSegment (hloading q hq) hl)
    · cases hs'
  | setupStack q a =>
    simp only [Vm.next] at hs'
    split at hs'
    · rename_i hq
      exact hb.quiet (.of_setupStack h.shape (hloading q hq) hs')
    · cases hs'
  | store q addr v => exact hb.of_store h.shape h.vaddr hs'
  | fault q f write a =>
    simp only [Vm.next] at hs'
    split at hs'
    · exact hb.of_pageFault h.shape h.clean hs'
    · cases hs'
  | mmap q f page reopen create malloc =>
    simp only [Vm.next] at hs'
    split at hs'
    · cases hs'
      exact hb.of_mmapFile h.shape h.listed.lt
    · cases hs'
  | munmap q mapid grow tmp =>
    simp only [Vm.next] at hs'
    split at hs'
    · rcases munmapFile_cases hs' with rfl | ⟨m', -, rfl, hu⟩
      · exact hb
      · refine ((hb.setTables _ _).of_unmapOther h.shape.setTables ?_ ?_ hu).1
        · exact h.clean.effect h.shape (show Effect ∅ (fun _ _ => none) _ _ from
            .mappings (l := (x.1.procs q).mmapTable.erase m') (Nat.le_refl _))
        · rintro rfl rfl
          simp [keepsOff] at hok
    · cases hs'
  | fileWrite f data ofs grow =>
    cases hs'
    have hne : f ≠ m.file := by simpa [keepsOff] using hok
    have hf : f ∉ ({m.file} : Set FileId) := hne
    exact hb.quiet (.of_fileWriteAt hf)
  | exit q =>
    simp only [Vm.next] at hs'
    split at hs'
    · cases hs'
    · cases hs'
      exact hb.quiet (.exit q)
  | processExit q grow tmp =>
    have hq : q ≠ pid := by simpa [keepsOff] using hok
    simp only [Vm.next] at hs'
    split at hs'
    · obtain ⟨s₁, hunmap, hrest⟩ := Option.bind_eq_some_iff.mp hs'
      obtain ⟨hb₁, hs₁⟩ := hb.of_unmapAllOther h.shape h.clean hq hunmap
      exact hb₁.reap hs₁ (.of_exit hrest) hq
    · cases hs'

theorem MappedOk.of_reaches
    (h : (mappedRun pid m).Reaches (fun x a => keepsOff pid m x.1 a = true) x) :
    MappedOk pid m x :=
  System.Reaches.invariant (fun _ => MappedOk.of_start) (fun _ _ _ hx hok hn => hx.next hok hn) h

/-! ## What is left of a mapping -/

/-- The file has the bytes of the mapping, and no page of the mapping is
    present, in the supplemental page table, in the frame table or in swap. -/
structure WrittenBack (pid : Pid) (m : MemoryMapping) (w : List UInt8) (s : State) : Prop where
  contents : (s.files m.file).contents = w
  length : (s.files m.file).contents.length = m.length
  present : ∀ j < mappingPages m.length, (s.pte pid (mappingPage m j)).present = false
  spte : ∀ j < mappingPages m.length, s.spte pid (mappingPage m j) = none
  frameTable : ∀ j < mappingPages m.length, ∀ fte ∈ s.frameTable,
    ¬ (fte.owner = pid ∧ fte.aux = some (mappingPage m j))
  swap : ∀ j < mappingPages m.length, ∀ i, ¬ SwappedOut s pid (mappingPage m j) i

theorem WrittenBack.of_shape (hs : Shape s none) (hcontents : (s.files m.file).contents = w)
    (hlen : w.length = m.length)
    (hspte : ∀ j < mappingPages m.length, s.spte pid (mappingPage m j) = none) :
    WrittenBack pid m w s := by
  have hpresent : ∀ j < mappingPages m.length, (s.pte pid (mappingPage m j)).present = false :=
    fun j hj => hs.frames.not_present (by simp [hspte j hj])
  refine ⟨hcontents, by rw [hcontents, hlen], hpresent, hspte, ?_, ?_⟩
  · rintro j hj fte hmem ⟨rfl, haux⟩
    obtain ⟨r, hr, hp, -⟩ := hs.frames.table fte hmem
    rw [haux] at hr
    cases hr
    rw [hpresent j hj] at hp
    cases hp
  · rintro j hj i ⟨e, he, -⟩
    rw [hspte j hj] at he
    cases he

theorem WrittenBack.of_backed (hs : Shape s none)
    (h : Backed pid m w (mappingPages m.length) s) : WrittenBack pid m w s :=
  .of_shape hs h.contents_eq h.bytes fun j hj => h.gone j hj

/-- `munmap` of the mapping succeeds. -/
theorem MappedOk.munmap (h : MappedOk pid m x) (grow tmp : Bool) :
    ∃ s', munmapFile x.1 pid m.mapid grow tmp = some s' ∧ WrittenBack pid m x.2 s' := by
  have hs := h.shape.setTables (q := pid) (l := (x.1.procs pid).mmapTable.erase m)
  obtain ⟨s', hu⟩ := exists_unmapPages pid m grow tmp (mappingPages m.length) 0
    m.userVaddr hs
  refine ⟨s', ?_, ?_⟩
  · simp only [munmapFile, h.listed.find?]
    exact hu
  · have heff : Effects ∅ (fun _ _ => none) _ (s', none) := (Effects.of_unmapPages hs hu).1
    exact .of_backed (hs.effects heff)
      ((h.backed.setTables _ _).of_memoryMappingUnmap hs h.vaddr hu)

/-- `process_exit` of the owner succeeds. -/
theorem MappedOk.processExit (h : MappedOk pid m x) (grow tmp : Bool) :
    ∃ s', Vm.processExit x.1 pid grow tmp = some s' ∧ WrittenBack pid m x.2 s' := by
  obtain ⟨s', he⟩ := exists_processExit pid grow tmp h.shape
  refine ⟨s', he, ?_⟩
  obtain ⟨s₁, hunmap, hrest⟩ := Option.bind_eq_some_iff.mp he
  have heff : Effects ∅ (fun _ _ => none) (x.1, none) (s₁, none) :=
    (Effects.of_unmapAll h.shape hunmap).1
  have hs₁ : Shape s₁ none := h.shape.effects heff
  have hr : Reaped s₁ s' pid := .of_exit hrest
  have hb := h.backed.of_unmapAll h.shape h.clean h.vaddr (Or.inl ⟨rfl, h.listed.mem⟩) hunmap
  refine .of_shape (hs₁.reap hr) ?_ hb.bytes fun j _ => ?_
  · rw [hr.contents]
    exact hb.contents_eq
  · rw [State.spte, hr.procs, update_self]

/-- No page of the frame table belongs to a mapping. -/
def noneMapped (s : State) : Bool :=
  s.frameTable.all fun fte =>
    (fte.aux.bind fun page => s.spte fte.owner page).all fun e => e.mapping.isNone

theorem not_dirtyMapping_of_noneMapped (hs : Shape s none) (h : noneMapped s = true) (f : FileId) :
    ¬ DirtyMapping s f := by
  rintro ⟨q, r, e, m', he, hm, -, hp, -⟩
  have := List.all_eq_true.mp h _ (hs.frames.frame q r hp).2.1
  simp [he, hm] at this

/-- The mapping of a file of three bytes. -/
def threeBytes : MemoryMapping := ⟨1, 0x10000, 3, 1⟩

/-- With one user frame: a byte is stored into the mapping, the page is evicted
    for a stack page, faulted in again and stored into once more. -/
def storeEvictStore : List Step :=
  [.fault 0 ⟨0x10000000, 0xBFFFF000, true, true⟩ true granted, .store 0 0x10000000 7,
    .fault 0 ⟨0xBFFFF000, 0xBFFFF000, true, true⟩ false granted,
    .fault 0 ⟨0x10000002, 0xBFFFF000, true, true⟩ true granted, .store 0 0x10000002 8]

/-- The file is mapped and `storeEvictStore` runs. -/
def mapAndStore (s : State) : Option (State × List UInt8) :=
  match mmapFile s 0 1 0x10000 true true fun _ => true with
  | (some 1, s₁) =>
    (mappedRun 0 threeBytes).run (fun x a => keepsOff 0 threeBytes x.1 a = true)
      (s₁, (s.files 1).contents) storeEvictStore
  | _ => none

/-- The owner is running and both bytes are stored. -/
def bothStored (x : State × List UInt8) : Bool :=
  decide ((x.1.procs 0).phase = .running) && x.2 == [7, 2, 8]

end Pintos.Vm
