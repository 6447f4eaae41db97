/-
  Pintos.Vm.Mapping

  Memory-mapped files and the end of a process: `mmap_file` and `munmap_file`
  (userprog/syscall.c), `memory_mapping_unmap` (vm/memory_mapping.c) and
  `process_exit` (userprog/process.c); then the transition system whose steps
  are these calls, page faults and user stores.
-/

import Pintos.Vm.Fault
import Pintos.Base.Run

namespace Pintos.Vm

open Pintos.Base Pintos.Lib Function

/-- Number of pages a mapping of `length` bytes takes. -/
def mappingPages (length : Nat) : Nat := (length + PGSIZE - 1) / PGSIZE

/-- `upage += PGSIZE` on 32-bit addresses. -/
def nextPage (page : PageNo) : PageNo := (page + 1) % 2 ^ 20

/-- `page_read_bytes` at offset `ofs` of a mapping. -/
def pageReadBytes (length ofs : Nat) : Nat :=
  if length - ofs < PGSIZE then length - ofs else PGSIZE

/-! ## `mmap_file` -/

/-- The entry of the page at offset `ofs` of a mapping. -/
def mappingEntry (m : MemoryMapping) (ofs : Nat) : SupPageTableEntry :=
  { SupPageTableEntry.ofFile m.file ofs (pageReadBytes m.length ofs)
      (PGSIZE - pageReadBytes m.length ofs) true with mapping := some m }

/-- The loop of `mmap_file` that registers the pages. -/
def mmapPages (pid : Pid) (m : MemoryMapping) (malloc : PageNo → Bool) :
    Nat → Nat → PageNo → State → Bool × State
  | 0, _, _, s => (true, s)
  | n + 1, ofs, upage, s =>
    if (s.spte pid upage).isSome then (false, s)
    else if !malloc upage then (false, s)
    else mmapPages pid m malloc n (ofs + pageReadBytes m.length ofs) (nextPage upage)
      (s.setSpte pid upage (some (mappingEntry m ofs)))

/-- The loop of `mmap_file` that takes the pages back after a failure. -/
def mmapRollback (pid : Pid) (m : MemoryMapping) : Nat → PageNo → State → State
  | 0, _, s => s
  | n + 1, upage, s =>
    let s := if (s.spte pid upage).any fun e => e.mapping = some m then s.setSpte pid upage none
      else s
    mmapRollback pid m n (nextPage upage) s

/-- `mmap_file` of the file behind a descriptor: the mapping id, and the state.
    `reopen` and `create` say whether the file object and the mapping record
    can be allocated. -/
def mmapFile (s : State) (pid : Pid) (f : FileId) (page : PageNo) (reopen create : Bool)
    (malloc : PageNo → Bool) : Option Nat × State :=
  let length := (s.files f).contents.length
  if page = 0 || length = 0 || !reopen then (none, s)
  else
    let m : MemoryMapping := ⟨f, page, length, (s.procs pid).nextMapid⟩
    let s := s.setProc pid { s.procs pid with nextMapid := (s.procs pid).nextMapid + 1 }
    if !create then (none, s)
    else
      match mmapPages pid m malloc (mappingPages length) 0 page s with
      | (false, s) => (none, mmapRollback pid m (mappingPages length) page s)
      | (true, s) =>
        (some m.mapid,
          s.setProc pid { s.procs pid with mmapTable := (s.procs pid).mmapTable ++ [m] })

section Rollback

variable {s s' : State} {pid : Pid} {page : PageNo} {f : FileId} {reopen create : Bool}
  {malloc : PageNo → Bool} {m : MemoryMapping}

/-! ## Taking the pages back -/

/-- A state with another supplemental page table for one process. -/
def State.setSpt (s : State) (pid : Pid) (spt : PageNo → Option SupPageTableEntry) : State :=
  s.setProc pid { s.procs pid with supPageTable := spt }

theorem State.setSpt_self : s.setSpt pid (s.spte pid) = s := by
  have hproc : { s.procs pid with supPageTable := s.spte pid } = s.procs pid := rfl
  rw [setSpt, hproc, setProc, update_eq_self]

theorem State.spte_setTables (l : List MemoryMapping) (n : Nat) (q : Pid) (r : PageNo) :
    (s.setProc pid { s.procs pid with mmapTable := l, nextMapid := n }).spte q r = s.spte q r := by
  rw [State.spte_setProc]
  split
  · rename_i hq
    rw [hq]
    rfl
  · rfl

theorem State.pte_setTables (l : List MemoryMapping) (n : Nat) (q : Pid) (r : PageNo) :
    (s.setProc pid { s.procs pid with mmapTable := l, nextMapid := n }).pte q r = s.pte q r := by
  rw [State.pte_setProc]
  split
  · rename_i hq
    rw [hq]
    rfl
  · rfl

theorem State.setSpt_setSpt (spt spt' : PageNo → Option SupPageTableEntry) :
    (s.setSpt pid spt).setSpt pid spt' = s.setSpt pid spt' := by
  simp [setSpt, setProc]

theorem State.setSpt_setSpte (e : Option SupPageTableEntry)
    (spt : PageNo → Option SupPageTableEntry) :
    (s.setSpte pid page e).setSpt pid spt = s.setSpt pid spt := by
  simp [setSpt, setSpte, setProc]

/-- A supplemental page table without the pages of a mapping. -/
def without (m : MemoryMapping) (spt : PageNo → Option SupPageTableEntry) (r : PageNo) :
    Option SupPageTableEntry :=
  (spt r).filter fun e => e.mapping ≠ some m

theorem without_eq_self (h : ∀ r e, s.spte pid r = some e → e.mapping ≠ some m) :
    without m (s.spte pid) = s.spte pid := by
  funext r
  cases he : s.spte pid r with
  | none => simp [without, he]
  | some e => simp [without, he, h r e he]

/-- The loop that registers the pages gives entries of the mapping to pages it
    visits and that had none, and changes nothing else. -/
theorem mmapPages_eq (s : State) (pid : Pid) (m : MemoryMapping) (malloc : PageNo → Bool)
    (n ofs : Nat) (page : PageNo) :
    ∃ spt, (mmapPages pid m malloc n ofs page s).2 = s.setSpt pid spt ∧
      ∀ r, spt r = s.spte pid r ∨ s.spte pid r = none ∧ (∃ j < n, r = nextPage^[j] page) ∧
        ∃ e, spt r = some e ∧ e.mapping = some m := by
  induction n generalizing s ofs page with
  | zero => exact ⟨_, State.setSpt_self.symm, fun _ => Or.inl rfl⟩
  | succ n ih =>
    simp only [mmapPages]
    split
    · exact ⟨_, State.setSpt_self.symm, fun _ => Or.inl rfl⟩
    split
    · exact ⟨_, State.setSpt_self.symm, fun _ => Or.inl rfl⟩
    rename_i hsome _
    have hnone : s.spte pid page = none := by simpa using hsome
    obtain ⟨spt, heq, hspt⟩ := ih (s.setSpte pid page (some (mappingEntry m ofs)))
      (ofs + pageReadBytes m.length ofs) (nextPage page)
    refine ⟨spt, heq.trans (State.setSpt_setSpte ..), fun r => ?_⟩
    have hr := hspt r
    rw [State.spte_setSpte] at hr
    split at hr
    · rename_i hpage
      rcases hr with hr | ⟨hr, -⟩
      · exact Or.inr ⟨hpage.2 ▸ hnone, ⟨0, by omega, hpage.2⟩, _, hr, rfl⟩
      · cases hr
    · rcases hr with hr | ⟨hr, ⟨j, hj, rfl⟩, he⟩
      · exact Or.inl hr
      · exact Or.inr ⟨hr, ⟨j + 1, by omega, (iterate_succ_apply ..).symm⟩, he⟩

/-- The loop that takes the pages back removes the entries of the mapping, if it
    visits them all. -/
theorem mmapRollback_eq {n : Nat}
    (h : ∀ r e, s.spte pid r = some e → e.mapping = some m → ∃ j < n, r = nextPage^[j] page) :
    mmapRollback pid m n page s = s.setSpt pid (without m (s.spte pid)) := by
  induction n generalizing s page with
  | zero =>
    rw [without_eq_self fun r e he hm => by obtain ⟨j, hj, -⟩ := h r e he hm; omega]
    exact State.setSpt_self.symm
  | succ n ih =>
    simp only [mmapRollback]
    split
    · rename_i hany
      have hmap : ∀ e, s.spte pid page = some e → e.mapping = some m := by
        intro e he
        simpa [he] using hany
      have hsame : without m ((s.setSpte pid page none).spte pid) = without m (s.spte pid) := by
        funext r
        simp only [without, State.spte_setSpte]
        split
        · rename_i hr
          rw [hr.2]
          exact (Option.filter_eq_none_iff.mpr fun e he => by simp [hmap e he]).symm
        · rfl
      rw [ih, State.setSpt_setSpte, hsame]
      intro r e he hm
      rw [State.spte_setSpte] at he
      split at he
      · cases he
      rename_i hne
      obtain ⟨j, hj, rfl⟩ := h r e he hm
      cases j with
      | zero => exact absurd ⟨rfl, rfl⟩ hne
      | succ j => exact ⟨j, by omega, iterate_succ_apply ..⟩
    · rename_i hany
      refine ih fun r e he hm => ?_
      obtain ⟨j, hj, rfl⟩ := h r e he hm
      cases j with
      | zero => exact absurd (by simp [show s.spte pid page = some e from he, hm]) hany
      | succ j => exact ⟨j, by omega, iterate_succ_apply ..⟩

/-- The second loop undoes the first, wherever that one stopped. -/
theorem mmapRollback_mmapPages (malloc : PageNo → Bool) (n ofs : Nat) (page : PageNo)
    (h : ∀ r e, s.spte pid r = some e → e.mapping ≠ some m) :
    mmapRollback pid m n page (mmapPages pid m malloc n ofs page s).2 = s := by
  obtain ⟨spt, heq, hspt⟩ := mmapPages_eq s pid m malloc n ofs page
  have hself : (s.setSpt pid spt).spte pid = spt := by
    funext r
    rw [State.setSpt, State.spte_setProc, if_pos rfl]
  have hwithout : without m spt = s.spte pid := by
    funext r
    rw [without]
    rcases hspt r with hr | ⟨hr, -, e, he, hm⟩
    · rw [hr]
      exact congrFun (without_eq_self h) r
    · simp [he, hm, hr]
  rw [heq, mmapRollback_eq]
  · rw [hself, hwithout, State.setSpt_setSpt, State.setSpt_self]
  · intro r e he hm
    rw [hself] at he
    rcases hspt r with hr | ⟨-, hj, -⟩
    · exact absurd hm (h r e (hr.symm.trans he))
    · exact hj

/-- The file part of a failed call: at most a mapping id has been used up. -/
theorem mmapFile_none (hnew : ∀ r e m, s.spte pid r = some e → e.mapping = some m →
      m.mapid ≠ (s.procs pid).nextMapid)
    (h : mmapFile s pid f page reopen create malloc = (none, s')) :
    s' = s ∨ ∃ n, (s.procs pid).nextMapid ≤ n ∧ s' = s.setProc pid { s.procs pid with
      mmapTable := (s.procs pid).mmapTable, nextMapid := n } := by
  simp only [mmapFile] at h
  split at h
  · cases h
    exact Or.inl rfl
  refine Or.inr ⟨(s.procs pid).nextMapid + 1, Nat.le_succ _, ?_⟩
  split at h
  · cases h
    rfl
  split at h
  · rename_i s₂ hloop
    cases h
    obtain rfl : _ = s₂ := congrArg Prod.snd hloop
    apply mmapRollback_mmapPages
    intro r e he hm
    rw [State.spte_setProc, if_pos rfl] at he
    exact hnew r e _ he hm rfl
  · cases h

/-- The file part of a call that succeeds: the loop has gone through, and the
    process has the new pages and the new mapping. -/
theorem mmapFile_some {id : Nat} (h : mmapFile s pid f page reopen create malloc = (some id, s')) :
    ∃ spt,
      mmapPages pid ⟨f, page, (s.files f).contents.length, id⟩ malloc
        (mappingPages (s.files f).contents.length) 0 page
        (s.setProc pid { s.procs pid with nextMapid := id + 1 }) =
          (true, (s.setProc pid { s.procs pid with nextMapid := id + 1 }).setSpt pid spt) ∧
      s' = s.setProc pid { s.procs pid with
        supPageTable := spt
        mmapTable := (s.procs pid).mmapTable ++ [⟨f, page, (s.files f).contents.length, id⟩]
        nextMapid := id + 1 } ∧
      id = (s.procs pid).nextMapid ∧ (s.files f).contents.length ≠ 0 ∧
      ∀ r, spt r = s.spte pid r ∨ s.spte pid r = none ∧ ∃ e, spt r = some e ∧
        e.mapping = some ⟨f, page, (s.files f).contents.length, id⟩ := by
  simp only [mmapFile] at h
  split at h
  · cases h
  rename_i hpre
  simp only [Bool.or_eq_true, decide_eq_true_eq, not_or] at hpre
  split at h
  · cases h
  split at h
  · cases h
  rename_i s₂ hloop
  cases h
  obtain ⟨spt, heq, hspt⟩ := mmapPages_eq
    (s.setProc pid { s.procs pid with nextMapid := (s.procs pid).nextMapid + 1 }) pid
    ⟨f, page, (s.files f).contents.length, (s.procs pid).nextMapid⟩ malloc
    (mappingPages (s.files f).contents.length) 0 page
  rw [hloop] at heq
  obtain rfl : s₂ = _ := heq
  refine ⟨spt, hloop, ?_, rfl, hpre.1.2, fun r => ?_⟩
  · simp [State.setSpt, State.setProc]
  · have hr := hspt r
    rw [State.spte_setProc, if_pos rfl] at hr
    exact hr.imp_right fun h => ⟨h.1, h.2.2⟩

end Rollback

/-! ## `memory_mapping_unmap` -/

/-- The write back of a dirty page whose frame is `k`. -/
def unmapWriteBack (s : State) (pid : Pid) (m : MemoryMapping) (upage : PageNo) (k : Frame)
    (e : SupPageTableEntry) (pageReadBytes : Nat) (grow : Bool) : State :=
  if pagedirIsDirty s pid upage then
    (fileWriteAt s m.file ((s.mem k).bytes pageReadBytes) e.ofs grow).2
  else s

/-- The body of `memory_mapping_unmap` for a loaded page: write back, give the
    frame up, clear the page table entry. -/
def unmapLoaded (s : State) (pid : Pid) (m : MemoryMapping) (upage : PageNo)
    (e : SupPageTableEntry) (pageReadBytes : Nat) (grow : Bool) : Option State :=
  match pagedirGetPage s pid upage with
  | none => some (pagedirClearPage s pid upage)
  | some k =>
    let s := unmapWriteBack s pid m upage k e pageReadBytes grow
    let (found, s) := frameTableRemoveByKpage s k pid
    (if found then pallocFreePage s k else some s).map (pagedirClearPage · pid upage)

/-- The body of `memory_mapping_unmap` for a page that is swapped out; `tmp`
    says whether a kernel page for the copy could be allocated. -/
def unmapSwapped (s : State) (m : MemoryMapping) (e : SupPageTableEntry) (pageReadBytes : Nat)
    (grow tmp : Bool) : State :=
  if e.source = .swap ∧ e.swapSlotIndex.isSome ∧ tmp then
    match swapReadSlot s e.swapSlotIndex fun _ => 0 with
    | some d => (fileWriteAt s m.file (d.bytes pageReadBytes) e.ofs grow).2
    | none => s
  else s

/-- One iteration of `memory_mapping_unmap`. -/
def unmapPage (s : State) (pid : Pid) (m : MemoryMapping) (upage : PageNo) (pageReadBytes : Nat)
    (grow tmp : Bool) : Option State :=
  match s.spte pid upage with
  | none => some s
  | some e =>
    if e.mapping = some m then
      (if e.isLoaded then unmapLoaded s pid m upage e pageReadBytes grow
        else some (unmapSwapped s m e pageReadBytes grow tmp)).map fun s =>
        (if e.source = .swap then swapFreeSlot s e.swapSlotIndex else s).setSpte pid upage none
    else some s

/-- The loop of `memory_mapping_unmap`. -/
def unmapPages (pid : Pid) (m : MemoryMapping) (grow tmp : Bool) :
    Nat → Nat → PageNo → State → Option State
  | 0, _, _, s => some s
  | n + 1, ofs, upage, s =>
    (unmapPage s pid m upage (pageReadBytes m.length ofs) grow tmp).bind
      (unmapPages pid m grow tmp n (ofs + pageReadBytes m.length ofs) (nextPage upage))

/-- `memory_mapping_unmap`. -/
def memoryMappingUnmap (s : State) (pid : Pid) (m : MemoryMapping) (grow tmp : Bool) :
    Option State :=
  unmapPages pid m grow tmp (mappingPages m.length) 0 m.userVaddr s

/-- `munmap_file`. -/
def munmapFile (s : State) (pid : Pid) (mapid : Nat) (grow tmp : Bool) : Option State :=
  match (s.procs pid).mmapTable.find? fun m => m.mapid = mapid with
  | none => some s
  | some m =>
    let s := s.setProc pid { s.procs pid with mmapTable := (s.procs pid).mmapTable.erase m }
    memoryMappingUnmap s pid m grow tmp

/-! ## `process_exit` -/

/-- `memory_mapping_table_unmap_all`. -/
def memoryMappingTableUnmapAll (pid : Pid) (grow tmp : Bool) :
    List MemoryMapping → State → Option State
  | [], s => some s
  | m :: rest, s =>
    (memoryMappingUnmap s pid m grow tmp).bind (memoryMappingTableUnmapAll pid grow tmp rest)

/-- `file_allow_write` of the executable. -/
def allowWriteExe (s : State) (pid : Pid) : Option State :=
  match (s.procs pid).exe with
  | none => some s
  | some f =>
    if (s.files f).denyWriteCnt = 0 then none
    else some (s.setFile f { s.files f with denyWriteCnt := (s.files f).denyWriteCnt - 1 })

/-- The loop of `pagedir_destroy` that frees the frames of present pages. -/
def pagedirDestroy : List Pte → State → Option State
  | [], s => some s
  | t :: rest, s =>
    (if t.present then pallocFreePage s t.frame else some s).bind (pagedirDestroy rest)

/-- `process_exit`. -/
def processExit (s : State) (pid : Pid) (grow tmp : Bool) : Option State :=
  (memoryMappingTableUnmapAll pid grow tmp (s.procs pid).mmapTable s).bind fun s =>
  (allowWriteExe s pid).bind fun s =>
  let s := frameTableRemoveOwnerFrames s pid
  (pagedirDestroy ((s.procs pid).pagedir.entries.map (·.2)) s).map fun s =>
  s.setProc pid {}

/-! ## The system -/

/-- A user load: the byte at an address whose page is present. -/
def userLoad (s : State) (pid : Pid) (addr : Nat) : Option UInt8 :=
  if isUserVaddr addr && (s.pte pid (addr / PGSIZE)).present then
    some (s.mem (s.pte pid (addr / PGSIZE)).frame (addr % PGSIZE))
  else none

/-- A user store to an address whose page is present and writable. -/
def userStore (s : State) (pid : Pid) (addr : Nat) (v : UInt8) : Option State :=
  let page := addr / PGSIZE
  let t := s.pte pid page
  if isUserVaddr addr && t.present && t.writable then
    some ((s.setMem t.frame (update (s.mem t.frame) (addr % PGSIZE) v)).setPte pid page
      { t with dirty := true })
  else none

/-- The steps.  An access by kernel code on behalf of a process is a store, a
    load or a fault with `user = false`. -/
inductive Step where
  | spawn (pid : Pid) (f : FileId)
  | loadSegment (pid : Pid) (ofs : Nat) (page : PageNo) (readBytes zeroBytes : Nat)
      (writable : Bool) (malloc : PageNo → Bool)
  | setupStack (pid : Pid) (a : Allocs)
  | store (pid : Pid) (addr : Nat) (v : UInt8)
  | fault (pid : Pid) (f : PageFault) (write : Bool) (a : Allocs)
  | mmap (pid : Pid) (f : FileId) (page : PageNo) (reopen create : Bool)
      (malloc : PageNo → Bool)
  | munmap (pid : Pid) (mapid : Nat) (grow tmp : Bool)
  | fileWrite (f : FileId) (data : List UInt8) (ofs : Nat) (grow : Bool)
  | exit (pid : Pid)
  | processExit (pid : Pid) (grow tmp : Bool)

/-- An access faults because its page is not present or because it writes a
    read-only page.  Of kernel addresses the model knows nothing. -/
def faults (s : State) (pid : Pid) (f : PageFault) (write : Bool) : Bool :=
  let t := s.pte pid (f.faultAddr / PGSIZE)
  !isUserVaddr f.faultAddr ||
    (f.notPresent == !t.present && (!t.present || (write && !t.writable)))

/-- One step, as far as the process is in the phase that makes it. -/
def next (s : State) : Step → Option State
  | .spawn pid f =>
    if (s.procs pid).phase = .dead then
      some ((s.setFile f { s.files f with denyWriteCnt := (s.files f).denyWriteCnt + 1 }).setProc pid
        { phase := .loading, exe := some f })
    else none
  | .loadSegment pid ofs page readBytes zeroBytes writable malloc =>
    if (s.procs pid).phase = .loading then
      (s.procs pid).exe.bind fun f =>
        loadSegment s pid f ofs page readBytes zeroBytes writable malloc
    else none
  | .setupStack pid a => if (s.procs pid).phase = .loading then setupStack s pid a else none
  | .store pid addr v => if (s.procs pid).phase = .running then userStore s pid addr v else none
  | .fault pid f write a =>
    if (s.procs pid).phase = .running && faults s pid f write then pageFault s pid f a else none
  | .mmap pid f page reopen create malloc =>
    if (s.procs pid).phase = .running then some (mmapFile s pid f page reopen create malloc).2
    else none
  | .munmap pid mapid grow tmp =>
    if (s.procs pid).phase = .running then munmapFile s pid mapid grow tmp else none
  | .fileWrite f data ofs grow => some (fileWriteAt s f data ofs grow).2
  | .exit pid => if (s.procs pid).phase = .dead then none else some (exit s pid)
  | .processExit pid grow tmp =>
    if (s.procs pid).phase = .exiting then processExit s pid grow tmp else none

/-- Before the first process: no frame and no slot is in use, and no file is
    write-denied. -/
structure Initial (s : State) : Prop where
  procs : ∀ pid, s.procs pid = {}
  userPool : ∀ b ∈ s.userPool, b = false
  frameTable : s.frameTable = []
  swapSlots : ∀ b, s.swapSlots = some b → ∀ x ∈ b, x = false
  denyWriteCnt : ∀ f, (s.files f).denyWriteCnt = 0

/-- The smallest machine: one user frame, `slots` swap slots, empty files. -/
def oneFrame (slots : Nat) : State where
  procs := fun _ => {}
  mem := fun _ _ => 0
  userPool := [false]
  frameTable := []
  swapSlots := some (List.replicate slots false)
  swapBlock := fun _ _ => 0
  files := fun _ => ⟨[], 0⟩

theorem initial_oneFrame (slots : Nat) : Initial (oneFrame slots) where
  procs _ := rfl
  userPool := by simp [oneFrame]
  frameTable := rfl
  swapSlots b hb x hx := by
    cases hb
    exact List.eq_of_mem_replicate hx
  denyWriteCnt _ := rfl

/-- The allocators succeed, and the first entry of the frame table is the
    victim. -/
def granted : Allocs := ⟨some 0, true, true, true, true⟩

/-- Virtual memory as a transition system. -/
def system : System State Step where
  start := Initial
  next := next

end Pintos.Vm
