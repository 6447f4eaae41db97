/-
  Pintos.Vm.Mmap

  `mmap_file` (userprog/syscall.c) as the system call reaches it, with the
  descriptor, the address and the open count of the file: which addresses it
  maps, and what it leaves behind when it fails.
-/

import Pintos.Vm.MappedRun

namespace Pintos.Vm

open Pintos.Base Pintos.Lib Function

/-- `mmap_file` with its descriptor and its address.  `openCnt` is the number of
    times each inode is open: `file_reopen` adds one, `file_close` takes it
    back. -/
def mmapDescriptor (s : State) (openCnt : FileId → Nat) (fdLookup : Int → Option FileId) (pid : Pid)
    (fd : Int) (addr : Nat) (reopen create : Bool) (malloc : PageNo → Bool) :
    Int × State × (FileId → Nat) :=
  if fd ≤ 1 || addr = 0 || addr % PGSIZE ≠ 0 then (-1, s, openCnt)
  else
    match fdLookup fd with
    | none => (-1, s, openCnt)
    | some f =>
      let length := (s.files f).contents.length
      if length = 0 || !reopen then (-1, s, openCnt)
      else
        let openCnt := update openCnt f (openCnt f + 1)
        match mmapFile s pid f (addr / PGSIZE) reopen create malloc with
        | (none, s) => (-1, s, update openCnt f (openCnt f - 1))
        | (some mapid, s) => (mapid, s, openCnt)

variable {s s' : State} {openCnt : FileId → Nat} {fdLookup : Int → Option FileId} {pid : Pid}
  {fd : Int} {addr : Nat} {page : PageNo} {f : FileId} {reopen create : Bool}
  {malloc : PageNo → Bool} {m : MemoryMapping}

/-- How a call ends: before the file is reopened, after a failure that closes it
    again, or with a mapping. -/
theorem mmapDescriptor_cases (s : State) (openCnt : FileId → Nat) (fdLookup : Int → Option FileId)
    (pid : Pid) (fd : Int) (addr : Nat) (reopen create : Bool) (malloc : PageNo → Bool) :
    mmapDescriptor s openCnt fdLookup pid fd addr reopen create malloc = (-1, s, openCnt) ∨
    ∃ f, fdLookup fd = some f ∧ addr ≠ 0 ∧ addr % PGSIZE = 0 ∧
      ((∃ t, mmapFile s pid f (addr / PGSIZE) reopen create malloc = (none, t) ∧
        mmapDescriptor s openCnt fdLookup pid fd addr reopen create malloc = (-1, t, openCnt)) ∨
      ∃ id t, mmapFile s pid f (addr / PGSIZE) reopen create malloc = (some id, t) ∧
        mmapDescriptor s openCnt fdLookup pid fd addr reopen create malloc =
          ((id : Int), t, update openCnt f (openCnt f + 1))) := by
  simp only [mmapDescriptor]
  split
  · exact Or.inl rfl
  rename_i hargs
  simp only [Bool.or_eq_true, decide_eq_true_eq, not_or, not_not] at hargs
  split
  · exact Or.inl rfl
  rename_i f hfd
  split
  · exact Or.inl rfl
  refine Or.inr ⟨f, hfd, hargs.1.2, hargs.2, ?_⟩
  rcases hrun : mmapFile s pid f (addr / PGSIZE) reopen create malloc with ⟨_ | id, t⟩
  · refine Or.inl ⟨t, rfl, ?_⟩
    simp
  · exact Or.inr ⟨id, t, rfl, rfl⟩

/-! ## Failures -/

/-- A call of `mmap_file` that fails leaves the supplemental page tables and the
    mapping tables as they were, and the file as often open as before.  No entry
    points to the record of the new mapping, which has just been allocated. -/
theorem failed_mmap_rolls_back (hnew : ∀ r e m, s.spte pid r = some e → e.mapping = some m →
      m.mapid ≠ (s.procs pid).nextMapid)
    (hfail : (mmapDescriptor s openCnt fdLookup pid fd addr reopen create malloc).1 = -1) :
    let r := mmapDescriptor s openCnt fdLookup pid fd addr reopen create malloc
    (∀ q page, r.2.1.spte q page = s.spte q page) ∧
      (∀ q, (r.2.1.procs q).mmapTable = (s.procs q).mmapTable) ∧ r.2.2 = openCnt := by
  have hmmap : ∀ f t, mmapFile s pid f (addr / PGSIZE) reopen create malloc = (none, t) →
      (∀ q page, t.spte q page = s.spte q page) ∧
      ∀ q, (t.procs q).mmapTable = (s.procs q).mmapTable := by
    intro f t ht
    rcases mmapFile_none hnew ht with rfl | ⟨n, -, rfl⟩
    · exact ⟨fun _ _ => rfl, fun _ => rfl⟩
    refine ⟨State.spte_setTables _ n, fun q => ?_⟩
    rw [State.procs_setProc]
    split
    · rename_i hq
      rw [hq]
    · rfl
  rcases mmapDescriptor_cases s openCnt fdLookup pid fd addr reopen create malloc with
    hr | ⟨f, -, -, -, ⟨t, ht, hr⟩ | ⟨id, t, -, hr⟩⟩
  · rw [hr]
    exact ⟨fun _ _ => rfl, fun _ => rfl, rfl⟩
  · rw [hr]
    exact ⟨(hmmap f t ht).1, (hmmap f t ht).2, rfl⟩
  · rw [hr] at hfail
    exact absurd hfail (by omega)

/-- Two frames, and a file of one byte. -/
def oneByteFile : State :=
  { oneFrame 1 with
    userPool := [false, false]
    files := fun _ => ⟨[7], 0⟩ }

/-- A mapping of two pages over a second one that is in use fails, and the entry of the
    first one is taken back. -/
theorem failed_mmap_rolls_back_overlap :
    let s := { oneByteFile with files := fun _ => ⟨.replicate 4097 7, 0⟩ }.setSpte 0 0x10001
      (some .fresh)
    let r := mmapDescriptor s (fun _ => 2) (fun _ => some 1) 0 2 0x10000000 true true fun _ => true
    r.1 = -1 ∧ (∀ q page, r.2.1.spte q page = s.spte q page) ∧
      (∀ q, (r.2.1.procs q).mmapTable = (s.procs q).mmapTable) ∧ r.2.2 = fun _ => 2 := by
  refine ⟨by decide +kernel, failed_mmap_rolls_back ?_ (by decide +kernel)⟩
  intro r e m he hm
  rw [State.spte_setSpte] at he
  split at he
  · cases he
    cases hm
  · cases he

/-! ## The addresses -/

/-- Every page from `addr` to `addr + length` is a user page, had no entry and
    has got one, and can be installed by a later fault. -/
def MapsUserPages (s s' : State) (pid : Pid) (addr length : Nat) : Prop :=
  ∀ j < mappingPages length, addr + j * PGSIZE ≠ 0 ∧ isUserVaddr (addr + j * PGSIZE) = true ∧
    s.spte pid (addr / PGSIZE + j) = none ∧ (s'.spte pid (addr / PGSIZE + j)).isSome ∧
    ∀ (t : State) k writable pageTable,
      (installPage t pid (addr / PGSIZE + j) k writable pageTable).isSome

/-- A call of `mmap_file` that succeeds has mapped user pages only, if and only if
    the file ends below `PHYS_BASE`. -/
theorem mmap_maps_user_pages_iff (haddr : addr < 2 ^ 32) (hfd : fdLookup fd = some f)
    (hok : (mmapDescriptor s openCnt fdLookup pid fd addr reopen create malloc).1 ≠ -1) :
    MapsUserPages s (mmapDescriptor s openCnt fdLookup pid fd addr reopen create malloc).2.1 pid
      addr (s.files f).contents.length ↔
    addr + (s.files f).contents.length ≤ PHYS_BASE := by
  rcases mmapDescriptor_cases s openCnt fdLookup pid fd addr reopen create malloc with
    hr | ⟨f', hf', hne, halign, ⟨t, -, hr⟩ | ⟨id, t, ht, hr⟩⟩
  · rw [hr] at hok
    exact absurd rfl hok
  · rw [hr] at hok
    exact absurd rfl hok
  obtain rfl : f' = f := Option.some.inj (hf'.symm.trans hfd)
  have hpage : addr / PGSIZE < 2 ^ 20 := by
    simp only [PGSIZE]
    omega
  have hmapped := JustMapped.of_mmapFile hpage ht
  have hpos : 0 < (s.files f').contents.length := hmapped.pos
  rw [hr]
  simp only [PGSIZE] at halign hpage
  constructor
  · -- the last page is a user page, so it ends at `PHYS_BASE` at the latest
    intro hmaps
    generalize (s.files f').contents.length = n at hmaps hpos ⊢
    have hpages : mappingPages n = (n + 4095) / 4096 := rfl
    have huser : addr + (mappingPages n - 1) * 4096 < 0xC0000000 :=
      of_decide_eq_true (hmaps (mappingPages n - 1) (by omega)).2.1
    show addr + n ≤ 0xC0000000
    omega
  · intro hend j hj
    have huser : addr + j * PGSIZE < PHYS_BASE := by
      simp only [mappingPages, PGSIZE, PHYS_BASE] at hend hj ⊢
      omega
    have hlt : (addr / PGSIZE + j) * PGSIZE < PHYS_BASE := by
      simp only [PGSIZE] at huser ⊢
      omega
    have hsame : mappingPage ⟨f', addr / PGSIZE, (s.files f').contents.length, id⟩ j =
        addr / PGSIZE + j := by
      refine Nat.mod_eq_of_lt ?_
      simp only [PGSIZE, PHYS_BASE] at hlt ⊢
      omega
    obtain ⟨hnone, hentry⟩ := hmapped.entry j hj
    rw [hsame] at hnone hentry
    refine ⟨by omega, by simpa [isUserVaddr] using huser, hnone, by rw [hentry]; rfl, ?_⟩
    intro t k writable pageTable
    rw [installPage, if_pos (by simpa [isUserVaddr] using hlt)]
    split <;> rfl

/-- A file of one byte mapped in user memory. -/
theorem mmap_maps_user_pages_iff_low :
    MapsUserPages oneByteFile (mmapDescriptor oneByteFile (fun _ => 1) (fun _ => some 1) 0 2
      0x10000000 true true fun _ => true).2.1 0 0x10000000 1 :=
  (mmap_maps_user_pages_iff (f := 1) (by decide) rfl (by decide)).mpr (by decide)

/-- A file mapped in the kernel's part of the address space, where no memory is:
    the first access of the program fails an assertion. -/
theorem mmap_above_physBase_panics :
    ∃ s, system.Reachable s ∧
      let r := mmapDescriptor s (fun _ => 1) (fun _ => some 1) 0 2 0xF0000000 true true fun _ => true
      r.1 = 1 ∧ pageFault r.2.1 0 ⟨0xF0000000, 0xBFFFFF00, true, true⟩ granted = none := by
  have hinit : system.start oneByteFile :=
    { initial_oneFrame 1 with userPool := by simp [oneByteFile] }
  obtain ⟨s, hreach, hp⟩ := System.reachable_of_run hinit
    (l := [.spawn 0 0, .setupStack 0 granted])
    (p := fun s =>
      let r := mmapDescriptor s (fun _ => 1) (fun _ => some 1) 0 2 0xF0000000 true true fun _ => true
      r.1 == 1 && (pageFault r.2.1 0 ⟨0xF0000000, 0xBFFFFF00, true, true⟩ granted).isNone)
    (by decide)
  simp only [Bool.and_eq_true, beq_iff_eq, Option.isNone_iff_eq_none] at hp
  exact ⟨s, hreach, hp⟩

end Pintos.Vm
