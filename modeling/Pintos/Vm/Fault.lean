/-
  Pintos.Vm.Fault

  How pages come into being and into memory: `load_segment` and `setup_stack`
  (userprog/process.c) while a program is loaded, and `page_fault`
  (userprog/exception.c) afterwards.

  Each function is one atomic step here.  What the allocators answer on the way
  is chosen by the step's label; `none` is a failed assertion.
-/

import Pintos.Vm.Swap

namespace Pintos.Vm

open Pintos.Base Pintos.Lib

/-- `exit`, as far as memory is concerned: the process will only call
    `process_exit` from now on. -/
def exit (s : State) (pid : Pid) : State := s.setPhase pid .exiting

/-- The answers of the allocators during one step, the victim of an eviction
    included. -/
structure Allocs where
  victim : Option Nat
  /-- The file system has room to grow a file. -/
  grow : Bool
  fte : Bool
  spte : Bool
  pageTable : Bool

/-! ## Supplemental entries -/

/-- `sup_page_table_add`: the entry of the page, made if it is not there. -/
def supPageTableAdd (s : State) (pid : Pid) (page : PageNo) (malloc : Bool) :
    Option (SupPageTableEntry × State) :=
  match s.spte pid page with
  | some e => some (e, s)
  | none => if malloc then some (.fresh, s.setSpte pid page (some .fresh)) else none

/-- `sup_page_table_add_file`. -/
def supPageTableAddFile (s : State) (pid : Pid) (page : PageNo) (file : FileId)
    (ofs readBytes zeroBytes : Nat) (writable malloc : Bool) : Option State :=
  match s.spte pid page with
  | some _ => some s
  | none =>
    if malloc then some (s.setSpte pid page (some (.ofFile file ofs readBytes zeroBytes writable)))
    else none

/-! ## Loading -/

/-- The loop of `load_segment` over the pages of a segment: whether all pages
    were registered, and the state.  `malloc` says for which pages the entry
    can be allocated. -/
def loadSegmentPages (pid : Pid) (file : FileId) (writable : Bool) (malloc : PageNo → Bool) :
    Nat → Nat → PageNo → Nat → Nat → State → Bool × State
  | 0, _, _, _, _, s => (true, s)
  | n + 1, ofs, page, readBytes, zeroBytes, s =>
    let pageReadBytes := if readBytes < PGSIZE then readBytes else PGSIZE
    let pageZeroBytes := PGSIZE - pageReadBytes
    match supPageTableAddFile s pid page file ofs pageReadBytes pageZeroBytes writable
        (malloc page) with
    | none => (false, s)
    | some s =>
      loadSegmentPages pid file writable malloc n (ofs + pageReadBytes) (page + 1)
        (readBytes - pageReadBytes) (zeroBytes - pageZeroBytes) s

/-- `load_segment`; a failure ends the load. -/
def loadSegment (s : State) (pid : Pid) (file : FileId) (ofs : Nat) (page : PageNo)
    (readBytes zeroBytes : Nat) (writable : Bool) (malloc : PageNo → Bool) : Option State :=
  if (readBytes + zeroBytes) % PGSIZE = 0 ∧ ofs % PGSIZE = 0 then
    let (success, s) := loadSegmentPages pid file writable malloc
      ((readBytes + zeroBytes) / PGSIZE) ofs page readBytes zeroBytes s
    some (if success then s else exit s pid)
  else none

/-- The page at the top of user memory. -/
def stackPage : PageNo := PHYS_BASE / PGSIZE - 1

/-- The end of `setup_stack`: the installed page has the entry `e` and gets a
    frame table entry. -/
def setupStackTable (s : State) (pid : Pid) (k : Frame) (e : SupPageTableEntry) (malloc : Bool) :
    Option State :=
  match frameTableAdd s k pid malloc with
  | none =>
    let s := s.setSpte pid stackPage none
    (pallocFreePage (pagedirClearPage s pid stackPage) k).map (exit · pid)
  | some s =>
    let s := s.setSpte pid stackPage (some { e with writable := true, isLoaded := true })
    some ((frameTableSetAux s k stackPage).setPhase pid .running)

/-- `setup_stack` up to the stores of the arguments, which are ordinary stores
    into the new page. -/
def setupStack (s : State) (pid : Pid) (a : Allocs) : Option State :=
  match pallocGetPage s with
  | none => some (exit s pid)
  | some (k, s) =>
    match installPage s pid stackPage k true a.pageTable with
    | none => none
    | some (false, s) => (pallocFreePage s k).map (exit · pid)
    | some (true, s) =>
      match supPageTableAdd s pid stackPage a.spte with
      | none => (pallocFreePage (pagedirClearPage s pid stackPage) k).map (exit · pid)
      | some (e, s) => setupStackTable s pid k e a.fte

/-! ## Page faults -/

/-- What the handler knows about a fault. -/
structure PageFault where
  faultAddr : Nat
  esp : Nat
  notPresent : Bool
  user : Bool

/-- `check_stack_should_grow`; `esp - 32` is computed in 32 bits. -/
def checkStackShouldGrow (f : PageFault) : Bool :=
  isUserVaddr f.faultAddr && 0x08048000 ≤ f.faultAddr &&
    (f.esp + 2 ^ 32 - 32) % 2 ^ 32 ≤ f.faultAddr

/-- `check_should_kill`. -/
def checkShouldKill (f : PageFault) : Bool := f.faultAddr = 0 || !checkStackShouldGrow f

/-- The frame for the page: a free one, or one taken from another page. -/
def faultFrame (s : State) (a : Allocs) : Option (State × Option Frame) :=
  match pallocGetPage s with
  | some (k, s) => some (s, some k)
  | none => swapEvictFrame s a.victim a.grow

/-- The contents of a page that has an entry, read into its frame; `none` where
    the read fails. -/
def faultRead (s : State) (e : SupPageTableEntry) (k : Frame) : Option State :=
  if !e.isLoaded && e.source = .fileBacked then
    let bytes := fileReadAt s e.file e.readBytes e.ofs
    if bytes.length ≠ e.readBytes then none
    else some (s.setMem k (((s.mem k).copyIn bytes).clear e.readBytes e.zeroBytes))
  else if !e.isLoaded && e.source = .swap then swapReclaimPage s e k
  else some s

/-- The end of `page_fault`: `install_page` and what follows it. -/
def faultInstall (s : State) (pid : Pid) (page : PageNo) (k : Frame) (e : SupPageTableEntry)
    (existing pageTable : Bool) : Option State :=
  let reclaimed := existing && !e.isLoaded && e.source = .swap
  let s := frameTableSetAux s k page
  match installPage s pid page k e.writable pageTable with
  | none => none
  | some (false, s) =>
    let s := frameTableRemove s k
    let s := if existing then s else s.setSpte pid page none
    (pallocFreePage s k).map (exit · pid)
  | some (true, s) =>
    if reclaimed then
      let s := swapFreeSlot s e.swapSlotIndex
      let source := if e.mapping.isSome then .fileBacked else e.source
      some (s.setSpte pid page
        (some { e with swapSlotIndex := none, source := source, isLoaded := true }))
    else some (s.setSpte pid page (some { e with isLoaded := true }))

/-- `page_fault` once it has a frame. -/
def faultFill (s : State) (pid : Pid) (page : PageNo) (k : Frame) (a : Allocs) : Option State :=
  match frameTableAdd s k pid a.fte with
  | none => (pallocFreePage s k).map (exit · pid)
  | some s =>
    match s.spte pid page with
    | none =>
      match supPageTableAdd s pid page a.spte with
      | none => (pallocFreePage (frameTableRemove s k) k).map (exit · pid)
      | some (e, s) => faultInstall s pid page k e false a.pageTable
    | some e =>
      match faultRead s e k with
      | none => (pallocFreePage (frameTableRemove s k) k).map (exit · pid)
      | some s => faultInstall s pid page k e true a.pageTable

/-- `page_fault`; a fault on a kernel address in kernel mode is a kernel
    panic. -/
def pageFault (s : State) (pid : Pid) (f : PageFault) (a : Allocs) : Option State :=
  if f.user || isUserVaddr f.faultAddr then
    let page := f.faultAddr / PGSIZE
    if !f.notPresent then some (exit s pid)
    else if (s.spte pid page).isNone && (!f.user || checkShouldKill f) then some (exit s pid)
    else
      match faultFrame s a with
      | none => none
      | some (s, none) => some (exit s pid)
      | some (s, some k) => faultFill s pid page k a
  else none

end Pintos.Vm
