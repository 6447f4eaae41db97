/-
  Pintos.Vm.State

  The state of virtual memory: supplemental page tables
  (vm/sup_page_table.c), page directories (userprog/pagedir.c), the frame table
  (vm/frame_table.c), the user pool of the page allocator (threads/palloc.c),
  the swap bitmap and device (vm/swap.c), and the files pages come from.

  Addresses of pages are page numbers, kernel addresses of user frames are
  indices into the user pool, and a `struct file *` is the identity of its
  inode: of a file only the contents and the write-denial count matter here.
  A process that does not exist is a `Process` record in phase `dead` with
  empty tables.
-/

import Pintos.Base.Splice
import Pintos.Lib.Bitmap

namespace Pintos.Vm

open Pintos.Base Pintos.Lib Function

abbrev Pid := Nat
abbrev PageNo := Nat
abbrev Frame := Nat
abbrev FileId := Nat

/-- The bytes of a page or frame; only offsets below `PGSIZE` matter. -/
abbrev PageData := Nat → UInt8

abbrev PGSIZE : Nat := 4096
abbrev BLOCK_SECTOR_SIZE : Nat := 512

/-- First address of the kernel's part of the address space. -/
abbrev PHYS_BASE : Nat := 0xC0000000

/-- `is_user_vaddr`. -/
def isUserVaddr (vaddr : Nat) : Bool := vaddr < PHYS_BASE

/-- `enum page_source`. -/
inductive PageSource where
  | zero
  | swap
  | fileBacked
  deriving DecidableEq, Repr

/-- `struct memory_mapping`.  `mapid` is unique among the mappings a process
    ever makes, so equality of records is equality of pointers. -/
structure MemoryMapping where
  file : FileId
  userVaddr : PageNo
  length : Nat
  mapid : Nat
  deriving DecidableEq, Repr

/-- `struct sup_page_table_entry`, without its key and its access time.
    `BITMAP_ERROR` in `swap_slot_index` is `none`; `file` is only read when the
    source is `FILE_BACKED`, and is 0 where the source stores a null pointer. -/
structure SupPageTableEntry where
  isLoaded : Bool
  source : PageSource
  swapSlotIndex : Option Nat
  file : FileId
  ofs : Nat
  readBytes : Nat
  zeroBytes : Nat
  writable : Bool
  mapping : Option MemoryMapping
  deriving DecidableEq, Repr

/-- The entry `sup_page_table_add` makes. -/
def SupPageTableEntry.fresh : SupPageTableEntry where
  isLoaded := true
  source := .zero
  swapSlotIndex := none
  file := 0
  ofs := 0
  readBytes := 0
  zeroBytes := 0
  writable := true
  mapping := none

/-- The entry `sup_page_table_add_file` makes. -/
def SupPageTableEntry.ofFile (file : FileId) (ofs readBytes zeroBytes : Nat) (writable : Bool) :
    SupPageTableEntry where
  isLoaded := false
  source := .fileBacked
  swapSlotIndex := none
  file := file
  ofs := ofs
  readBytes := readBytes
  zeroBytes := zeroBytes
  writable := writable
  mapping := none

/-- A page table entry; the default is the zero word of a page that was never
    mapped. -/
structure Pte where
  present : Bool := false
  frame : Frame := 0
  writable : Bool := false
  dirty : Bool := false
  deriving DecidableEq, Repr

/-- The page table entries that have been written, by page. -/
abbrev PageDir := AList fun _ : PageNo => Pte

/-- `lookup_page` without creation. -/
def PageDir.pte (pd : PageDir) (page : PageNo) : Pte := (pd.lookup page).getD {}

/-- Where a process is in its life: being loaded, running, past a call of
    `exit`, or gone. -/
inductive Phase where
  | dead
  | loading
  | running
  | exiting
  deriving DecidableEq, Repr

/-- The memory-management part of `struct thread`. -/
structure Process where
  phase : Phase := .dead
  pagedir : PageDir := ∅
  supPageTable : PageNo → Option SupPageTableEntry := fun _ => none
  mmapTable : List MemoryMapping := []
  nextMapid : Nat := 1
  exe : Option FileId := none

/-- `struct frame_table_entry`; `aux` names the page of the owner whose
    supplemental entry it points to. -/
structure FrameTableEntry where
  frame : Frame
  owner : Pid
  aux : Option PageNo
  deriving DecidableEq, Repr

/-- What a file is to its mappings: bytes, and the inode's
    `deny_write_cnt`. -/
structure File where
  contents : List UInt8
  denyWriteCnt : Nat

structure State where
  procs : Pid → Process
  mem : Frame → PageData
  userPool : List Bool
  frameTable : List FrameTableEntry
  /-- `none` when there is no swap device. -/
  swapSlots : Option (List Bool)
  swapBlock : Nat → Nat → UInt8
  files : FileId → File

namespace State

/-- The supplemental entry of a page. -/
def spte (s : State) (pid : Pid) (page : PageNo) : Option SupPageTableEntry :=
  (s.procs pid).supPageTable page

/-- The page table entry of a page. -/
def pte (s : State) (pid : Pid) (page : PageNo) : Pte := (s.procs pid).pagedir.pte page

def setProc (s : State) (pid : Pid) (p : Process) : State :=
  { s with procs := update s.procs pid p }

def setSpte (s : State) (pid : Pid) (page : PageNo) (e : Option SupPageTableEntry) : State :=
  s.setProc pid
    { s.procs pid with supPageTable := update (s.procs pid).supPageTable page e }

def setPte (s : State) (pid : Pid) (page : PageNo) (t : Pte) : State :=
  s.setProc pid { s.procs pid with pagedir := (s.procs pid).pagedir.insert page t }

def setPhase (s : State) (pid : Pid) (ph : Phase) : State :=
  s.setProc pid { s.procs pid with phase := ph }

def setMem (s : State) (k : Frame) (d : PageData) : State :=
  { s with mem := update s.mem k d }

def setFile (s : State) (f : FileId) (x : File) : State :=
  { s with files := update s.files f x }

def setUserPool (s : State) (b : List Bool) : State := { s with userPool := b }

def setFrameTable (s : State) (l : List FrameTableEntry) : State := { s with frameTable := l }

def setSwapSlots (s : State) (b : List Bool) : State := { s with swapSlots := some b }

end State

/-! ## The page allocator and the page directory -/

/-- `palloc_get_page (PAL_USER | PAL_ZERO)`. -/
def pallocGetPage (s : State) : Option (Frame × State) :=
  (bitmapScanAndFlip s.userPool 0 1 false).map fun r =>
    (r.1, (s.setUserPool r.2).setMem r.1 fun _ => 0)

/-- `palloc_free_page` of a user frame; `none` is the failed assertion that the
    frame is allocated. -/
def pallocFreePage (s : State) (k : Frame) : Option State :=
  if bitmapAll s.userPool k 1 then
    some ((s.setUserPool (bitmapSetMultiple s.userPool k 1 false)).setMem k fun _ => 0xcc)
  else none

/-- `pagedir_get_page`; the caller has checked that the page is a user page. -/
def pagedirGetPage (s : State) (pid : Pid) (page : PageNo) : Option Frame :=
  if (s.pte pid page).present then some (s.pte pid page).frame else none

/-- `pagedir_clear_page`. -/
def pagedirClearPage (s : State) (pid : Pid) (page : PageNo) : State :=
  if (s.pte pid page).present then s.setPte pid page { s.pte pid page with present := false }
  else s

/-- `pagedir_is_dirty`. -/
def pagedirIsDirty (s : State) (pid : Pid) (page : PageNo) : Bool := (s.pte pid page).dirty

/-- `install_page`.  `pageTable` says whether a page table could be allocated
    if one is needed; `none` is the failed assertion that the page is a user
    page. -/
def installPage (s : State) (pid : Pid) (page : PageNo) (k : Frame) (writable pageTable : Bool) :
    Option (Bool × State) :=
  if isUserVaddr (page * PGSIZE) then
    if (pagedirGetPage s pid page).isNone && pageTable then
      some (true, s.setPte pid page ⟨true, k, writable, false⟩)
    else some (false, s)
  else none

/-! ## The frame table -/

/-- `frame_table_add`; `malloc` says whether the entry could be allocated. -/
def frameTableAdd (s : State) (k : Frame) (pid : Pid) (malloc : Bool) : Option State :=
  if malloc then some (s.setFrameTable (s.frameTable ++ [⟨k, pid, none⟩])) else none

/-- Assignment to the `aux` field of the entry of frame `k`. -/
def frameTableSetAux (s : State) (k : Frame) (page : PageNo) : State :=
  s.setFrameTable <| s.frameTable.map fun fte =>
    if fte.frame = k then { fte with aux := some page } else fte

/-- `frame_table_remove` of the entry of frame `k`. -/
def frameTableRemove (s : State) (k : Frame) : State :=
  s.setFrameTable (s.frameTable.eraseP fun fte => fte.frame = k)

/-- `frame_table_remove_by_kpage`: whether an entry was found, and the state
    without it. -/
def frameTableRemoveByKpage (s : State) (k : Frame) (owner : Pid) : Bool × State :=
  (s.frameTable.any fun fte => fte.frame = k ∧ fte.owner = owner,
    s.setFrameTable (s.frameTable.eraseP fun fte => fte.frame = k ∧ fte.owner = owner))

/-- `frame_table_remove_owner_frames`. -/
def frameTableRemoveOwnerFrames (s : State) (owner : Pid) : State :=
  s.setFrameTable (s.frameTable.filter fun fte => fte.owner ≠ owner)

/-- What `frame_table_pop_lru` asks of a victim: the entry points to a loaded
    supplemental entry and its owner has a page directory. -/
def evictable (s : State) (fte : FrameTableEntry) : Bool :=
  (s.procs fte.owner).phase ≠ .dead &&
    (fte.aux.bind fun page => s.spte fte.owner page).any (·.isLoaded)

/-- `frame_table_pop_lru` with the choice of the victim left open: the entry at
    the given index, if it may be chosen, is taken off the table. -/
def frameTablePop (s : State) (victim : Option Nat) : Option (FrameTableEntry × State) :=
  (victim.bind fun i => (s.frameTable[i]?).map fun fte => (i, fte)).bind fun (i, fte) =>
    if evictable s fte then some (fte, s.setFrameTable (s.frameTable.eraseIdx i))
    else none

/-! ## Files -/

/-- `file_read_at`. -/
def fileReadAt (s : State) (f : FileId) (size ofs : Nat) : List UInt8 :=
  slice (s.files f).contents ofs size

/-- `file_write_at`: the number of bytes written, and the state.  A write-denied
    file takes nothing; a write past the end takes everything or, when the
    device is full (`grow = false`), nothing. -/
def fileWriteAt (s : State) (f : FileId) (data : List UInt8) (ofs : Nat) (grow : Bool) : Nat × State :=
  if (s.files f).denyWriteCnt ≠ 0 then (0, s)
  else if ofs + data.length ≤ (s.files f).contents.length ∨ grow then
    (data.length,
      s.setFile f { s.files f with contents := overwrite 0 (s.files f).contents ofs data })
  else (0, s)

/-- The first `n` bytes of a frame, as the buffer of a file write. -/
def PageData.bytes (d : PageData) (n : Nat) : List UInt8 := (List.range n).map d

/-- A buffer with `data` copied over its beginning. -/
def PageData.copyIn (d : PageData) (data : List UInt8) : PageData :=
  fun i => (data[i]?).getD (d i)

/-- `memset (d + start, 0, n)`. -/
def PageData.clear (d : PageData) (start n : Nat) : PageData :=
  fun i => if start ≤ i ∧ i < start + n then 0 else d i

/-! ## Reading after writing -/

namespace State

variable (s : State) (pid q : Pid) (page r : PageNo)

@[simp] theorem procs_setProc (p : Process) :
    (s.setProc pid p).procs q = if q = pid then p else s.procs q := by
  simp only [setProc, update_apply]

@[simp] theorem spte_setProc (p : Process) :
    (s.setProc pid p).spte q r = if q = pid then p.supPageTable r else s.spte q r := by
  rw [spte, procs_setProc, spte]
  split <;> rfl

@[simp] theorem pte_setProc (p : Process) :
    (s.setProc pid p).pte q r = if q = pid then p.pagedir.pte r else s.pte q r := by
  rw [pte, procs_setProc, pte]
  split <;> rfl

@[simp] theorem procs_setSpte (e : Option SupPageTableEntry) : (s.setSpte pid page e).procs q =
      { s.procs q with
        supPageTable := fun r => if q = pid ∧ r = page then e else s.spte q r } := by
  by_cases hq : q = pid
  · subst hq
    simp only [setSpte, setProc, update_self, spte, true_and]
    congr
    funext r
    simp only [update_apply]
  · simp [setSpte, setProc, hq, spte]

@[simp] theorem procs_setPte (t : Pte) : (s.setPte pid page t).procs q =
      { s.procs q with
        pagedir := if q = pid then (s.procs q).pagedir.insert page t
          else (s.procs q).pagedir } := by
  by_cases hq : q = pid
  · subst hq
    simp [setPte, setProc]
  · simp [setPte, setProc, hq]

@[simp] theorem procs_setPhase (ph : Phase) : (s.setPhase pid ph).procs q =
      { s.procs q with phase := if q = pid then ph else (s.procs q).phase } := by
  by_cases hq : q = pid
  · subst hq
    simp [setPhase, setProc]
  · simp [setPhase, setProc, hq]

@[simp] theorem spte_setSpte (e : Option SupPageTableEntry) :
    (s.setSpte pid page e).spte q r = if q = pid ∧ r = page then e else s.spte q r := by
  rw [spte, procs_setSpte]

@[simp] theorem pte_setSpte (e : Option SupPageTableEntry) :
    (s.setSpte pid page e).pte q r = s.pte q r := by
  rw [pte, procs_setSpte, pte]

@[simp] theorem spte_setPte (t : Pte) : (s.setPte pid page t).spte q r = s.spte q r := by
  rw [spte, procs_setPte, spte]

@[simp] theorem pte_setPte (t : Pte) :
    (s.setPte pid page t).pte q r = if q = pid ∧ r = page then t else s.pte q r := by
  rw [pte, procs_setPte, pte]
  by_cases hq : q = pid
  · by_cases hr : r = page
    · subst hr
      simp [PageDir.pte, hq]
    · simp [PageDir.pte, hq, hr, AList.lookup_insert_ne]
  · simp [hq]

@[simp] theorem spte_setPhase (ph : Phase) : (s.setPhase pid ph).spte q r = s.spte q r := by
  rw [spte, procs_setPhase, spte]

@[simp] theorem pte_setPhase (ph : Phase) : (s.setPhase pid ph).pte q r = s.pte q r := by
  rw [pte, procs_setPhase, pte]

@[simp] theorem spte_setMem (k : Frame) (d : PageData) : (s.setMem k d).spte q r = s.spte q r := rfl

@[simp] theorem pte_setMem (k : Frame) (d : PageData) : (s.setMem k d).pte q r = s.pte q r := rfl

@[simp] theorem spte_setFile (f : FileId) (x : File) : (s.setFile f x).spte q r = s.spte q r := rfl

@[simp] theorem pte_setFile (f : FileId) (x : File) : (s.setFile f x).pte q r = s.pte q r := rfl

@[simp] theorem spte_setUserPool (b : List Bool) : (s.setUserPool b).spte q r = s.spte q r := rfl

@[simp] theorem pte_setUserPool (b : List Bool) : (s.setUserPool b).pte q r = s.pte q r := rfl

@[simp] theorem spte_setFrameTable (l : List FrameTableEntry) :
    (s.setFrameTable l).spte q r = s.spte q r := rfl

@[simp] theorem pte_setFrameTable (l : List FrameTableEntry) :
    (s.setFrameTable l).pte q r = s.pte q r := rfl

@[simp] theorem spte_setSwapSlots (b : List Bool) : (s.setSwapSlots b).spte q r = s.spte q r := rfl

@[simp] theorem pte_setSwapSlots (b : List Bool) : (s.setSwapSlots b).pte q r = s.pte q r := rfl

theorem setSpte_setSpte (e e' : Option SupPageTableEntry) :
    (s.setSpte pid page e).setSpte pid page e' = s.setSpte pid page e' := by
  simp [setSpte, setProc]

theorem setSpte_eq_self {e : Option SupPageTableEntry} (h : s.spte pid page = e) :
    s.setSpte pid page e = s := by
  subst h
  simp [setSpte, setProc, spte]

theorem setPte_setPte (t t' : Pte) :
    (s.setPte pid page t).setPte pid page t' = s.setPte pid page t' := by
  simp [setPte, setProc]

theorem setPte_setSpte_comm (e : Option SupPageTableEntry) (t : Pte) :
    (s.setPte pid page t).setSpte pid page e = (s.setSpte pid page e).setPte pid page t := by
  simp [setPte, setSpte, setProc]

end State

end Pintos.Vm
