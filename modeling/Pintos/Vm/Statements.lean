/-
  Pintos.Vm.Statements

  `page_fault` (userprog/exception.c) and `swap_evict_frame` (vm/swap.c) one
  statement at a time: the page faults of any number of processes interleave,
  with each other and with the stores of the processes.

  A step is one statement, or one section under a lock.  Statements that only
  touch locals of the handler, or memory nobody else can reach yet, are taken
  together with the statement before them.  A process that calls `exit` leaves
  the handler; its `process_exit` is not part of this machine.

  Evictors read and write the supplemental entries of other processes, so every
  statement reads the entry as it is when the statement runs.  Where the entry
  has been freed in the meantime, the source reads freed memory, and the step
  is not defined.
-/

import Pintos.Vm.Mapping

namespace Pintos.Vm

open Pintos.Base Pintos.Lib

/-! ## Program counters -/

/-- The statements of `swap_evict_frame` after `frame_table_pop_lru`, with the
    locals it has by then. -/
inductive EvictPc where
  /-- `dirty = pagedir_is_dirty (fte->owner->pagedir, spte->user_vaddr)` -/
  | testDirty
  /-- `if (spte->source == FILE_BACKED)` and the tests inside it -/
  | testSource (dirty : Bool)
  /-- `file_write_at (spte->file, fte->frame, ...)` -/
  | writeFile
  /-- `pagedir_clear_page`, in the file branch -/
  | clearFile
  /-- `spte->is_loaded = false`, in the file branch -/
  | unloadFile
  /-- `spte->source = FILE_BACKED` -/
  | setFile
  /-- `spte->swap_slot_index = BITMAP_ERROR` -/
  | dropSlot
  /-- `bitmap_scan_and_flip` -/
  | takeSlot
  /-- `write_to_block (fte->frame, index)` -/
  | copyOut (index : Nat)
  /-- `spte->swap_slot_index = index` -/
  | setSlot (index : Nat)
  /-- `spte->is_loaded = false`, in the swap branch -/
  | unloadSwap (index : Nat)
  /-- `spte->source = SWAP` -/
  | setSwap (index : Nat)
  /-- `pagedir_clear_page`, in the swap branch -/
  | clearSwap (index : Nat)
  /-- `frame_table_insert (fte); return NULL` -/
  | reinsert
  /-- `free (fte); return res` -/
  | done
  deriving DecidableEq, Repr

/-- The statements of `page_fault` after `frame_table_add`, with the locals
    that are still needed. -/
inductive FillPc where
  /-- `spte = sup_page_table_add (fault_addr)` -/
  | newEntry
  /-- `if (!spte->is_loaded && spte->source == FILE_BACKED)` -/
  | testFile
  /-- `file_read_at`, the test of its result, and `memset` -/
  | readFile
  /-- `if (!spte->is_loaded && spte->source == SWAP ...` -/
  | testSwap
  /-- `... && !swap_reclaim_page (spte, fte))` -/
  | reclaim
  /-- `reclaimed_page = !spte->is_loaded && spte->source == SWAP` -/
  | setReclaimed
  /-- `fte->aux = spte` -/
  | setAux (reclaimed : Bool)
  /-- `install_page (spte->user_vaddr, kpage, spte->writable)` -/
  | install (reclaimed : Bool)
  /-- `swap_free_slot (spte->swap_slot_index)` -/
  | freeSlot
  /-- `spte->swap_slot_index = BITMAP_ERROR` -/
  | forgetSlot
  /-- `if (spte->mapping != NULL) spte->source = FILE_BACKED` -/
  | backToFile
  /-- `spte->is_loaded = true; return` -/
  | setLoaded
  /-- `frame_table_remove (fte)`, on the way to `exit`; the flag says whether
      `sup_page_table_remove` follows -/
  | removeFte (removeSpte : Bool)
  /-- `sup_page_table_remove (spte)` -/
  | removeSpte
  /-- `palloc_free_page (kpage); exit (-1)` -/
  | freePage
  deriving DecidableEq, Repr

/-- Where a process is.  `page` is the page of the fault, and `existing` says
    whether `sup_page_table_find` found an entry for it. -/
inductive Pc where
  | user
  | find (f : PageFault)
  | getPage (page : PageNo) (existing : Bool)
  | popLru (page : PageNo) (existing : Bool)
  | evict (page : PageNo) (existing : Bool) (fte : FrameTableEntry) (vpage : PageNo) (pc : EvictPc)
  | add (page : PageNo) (existing : Bool) (k : Frame)
  | fill (page : PageNo) (existing : Bool) (k : Frame) (pc : FillPc)

/-! ## Statements -/

/-- What a statement of `swap_evict_frame` is followed by. -/
inductive EvictNext where
  | goto (pc : EvictPc)
  | ret (k : Option Frame)

/-- The tests of `swap_evict_frame` on the victim's entry. -/
def evictBranch (e : SupPageTableEntry) (dirty : Bool) : EvictPc :=
  if e.source = .fileBacked then
    if e.mapping.isSome && dirty then .writeFile
    else if e.mapping.isNone && e.writable then .takeSlot
    else .clearFile
  else .takeSlot

/-- One statement of `swap_evict_frame` on the victim `fte`, whose `aux` is the
    entry of page `vpage`. -/
def evictStep (s : State) (fte : FrameTableEntry) (vpage : PageNo) (grow : Bool) :
    EvictPc → Option (State × EvictNext)
  | .testDirty => some (s, .goto (.testSource (pagedirIsDirty s fte.owner vpage)))
  | .testSource dirty =>
    (s.spte fte.owner vpage).map fun e => (s, .goto (evictBranch e dirty))
  | .writeFile =>
    (s.spte fte.owner vpage).map fun e =>
      let r := fileWriteAt s e.file ((s.mem fte.frame).bytes e.readBytes) e.ofs grow
      -- a short write gives the victim back
      (r.2, .goto (if r.1 ≠ e.readBytes then .reinsert else .clearFile))
  | .clearFile => some (pagedirClearPage s fte.owner vpage, .goto .unloadFile)
  | .unloadFile =>
    (s.spte fte.owner vpage).map fun e =>
      (s.setSpte fte.owner vpage (some { e with isLoaded := false }), .goto .setFile)
  | .setFile =>
    (s.spte fte.owner vpage).map fun e =>
      (s.setSpte fte.owner vpage (some { e with source := .fileBacked }), .goto .dropSlot)
  | .dropSlot =>
    (s.spte fte.owner vpage).map fun e =>
      (s.setSpte fte.owner vpage (some { e with swapSlotIndex := none }), .goto .done)
  | .takeSlot =>
    -- without a swap device `lock_acquire` of the uninitialised lock panics
    s.swapSlots.map fun b =>
      match bitmapScanAndFlip b 0 1 false with
      | none => (s, .goto .reinsert)
      | some (index, b') => (s.setSwapSlots b', .goto (.copyOut index))
  | .copyOut index => some (writeToBlock s index (s.mem fte.frame), .goto (.setSlot index))
  | .setSlot index =>
    (s.spte fte.owner vpage).map fun e =>
      (s.setSpte fte.owner vpage (some { e with swapSlotIndex := some index }),
        .goto (.unloadSwap index))
  | .unloadSwap index =>
    (s.spte fte.owner vpage).map fun e =>
      (s.setSpte fte.owner vpage (some { e with isLoaded := false }), .goto (.setSwap index))
  | .setSwap index =>
    (s.spte fte.owner vpage).map fun e =>
      (s.setSpte fte.owner vpage (some { e with source := .swap }), .goto (.clearSwap index))
  | .clearSwap _ => some (pagedirClearPage s fte.owner vpage, .goto .done)
  | .reinsert => some (s.setFrameTable (s.frameTable ++ [fte]), .ret none)
  | .done => some (s, .ret (some fte.frame))

/-- What a statement of `page_fault` is followed by. -/
inductive FillNext where
  | goto (pc : FillPc)
  | ret
  | exit

/-- One statement of `page_fault` for a page that gets the frame `k`. -/
def fillStep (s : State) (pid : Pid) (page : PageNo) (existing : Bool) (k : Frame) (a : Allocs) :
    FillPc → Option (State × FillNext)
  | .newEntry =>
    match supPageTableAdd s pid page a.spte with
    | none => some (s, .goto (.removeFte false))
    | some (_, s) => some (s, .goto (.setAux false))
  | .testFile =>
    (s.spte pid page).map fun e =>
      (s, .goto (if !e.isLoaded && e.source = .fileBacked then .readFile else .testSwap))
  | .readFile =>
    (s.spte pid page).map fun e =>
      let bytes := fileReadAt s e.file e.readBytes e.ofs
      if bytes.length ≠ e.readBytes then (s, .goto (.removeFte false))
      else
        (s.setMem k (((s.mem k).copyIn bytes).clear e.readBytes e.zeroBytes), .goto .testSwap)
  | .testSwap =>
    (s.spte pid page).map fun e =>
      (s, .goto (if !e.isLoaded && e.source = .swap then .reclaim else .setReclaimed))
  | .reclaim =>
    (s.spte pid page).map fun e =>
      match swapReclaimPage s e k with
      | none => (s, .goto (.removeFte false))
      | some s => (s, .goto .setReclaimed)
  | .setReclaimed =>
    (s.spte pid page).map fun e => (s, .goto (.setAux (!e.isLoaded && e.source = .swap)))
  | .setAux reclaimed => some (frameTableSetAux s k page, .goto (.install reclaimed))
  | .install reclaimed =>
    (s.spte pid page).bind fun e =>
    (installPage s pid page k e.writable a.pageTable).map fun r =>
      (r.2, .goto (if r.1 then if reclaimed then .freeSlot else .setLoaded
        else .removeFte (!existing)))
  | .freeSlot =>
    (s.spte pid page).map fun e => (swapFreeSlot s e.swapSlotIndex, .goto .forgetSlot)
  | .forgetSlot =>
    (s.spte pid page).map fun e =>
      (s.setSpte pid page (some { e with swapSlotIndex := none }), .goto .backToFile)
  | .backToFile =>
    (s.spte pid page).map fun e =>
      let source := if e.mapping.isSome then .fileBacked else e.source
      (s.setSpte pid page (some { e with source := source }), .goto .setLoaded)
  | .setLoaded =>
    (s.spte pid page).map fun e =>
      (s.setSpte pid page (some { e with isLoaded := true }), .ret)
  | .removeFte removeSpte =>
    some (frameTableRemove s k, .goto (if removeSpte then .removeSpte else .freePage))
  | .removeSpte => some (s.setSpte pid page none, .goto .freePage)
  | .freePage => (pallocFreePage s k).map fun s => (s, .exit)

/-! ## The machine -/

structure Machine where
  vm : State
  pc : Pid → Pc

/-- The process moves on to `pc`, with memory as it is now. -/
def Machine.goto (x : Machine) (pid : Pid) (s : State) (pc : Pc) : Machine :=
  ⟨s, Function.update x.pc pid pc⟩

/-- The process calls `exit (-1)`. -/
def Machine.exit (x : Machine) (pid : Pid) (s : State) : Machine :=
  x.goto pid (Vm.exit s pid) .user

inductive Move where
  | store (pid : Pid) (addr : Nat) (v : UInt8)
  | fault (pid : Pid) (f : PageFault) (write : Bool)
  /-- The next statement of the handler. -/
  | run (pid : Pid) (a : Allocs)

/-- One statement of the page fault handler of `pid`. -/
def runNext (x : Machine) (pid : Pid) (a : Allocs) : Option Machine :=
  match x.pc pid with
  | .user => none
  | .find f =>
    let page := f.faultAddr / PGSIZE
    if !f.notPresent then some (x.exit pid x.vm)
    else if (x.vm.spte pid page).isNone && (!f.user || checkShouldKill f) then
      some (x.exit pid x.vm)
    else some (x.goto pid x.vm (.getPage page (x.vm.spte pid page).isSome))
  | .getPage page existing =>
    match pallocGetPage x.vm with
    | some (k, s) => some (x.goto pid s (.add page existing k))
    | none => some (x.goto pid x.vm (.popLru page existing))
  | .popLru page existing =>
    match frameTablePop x.vm a.victim with
    | none => some (x.exit pid x.vm)
    | some (fte, s) =>
      match fte.aux with
      | none => some (x.exit pid s)
      | some vpage => some (x.goto pid s (.evict page existing fte vpage .testDirty))
  | .evict page existing fte vpage pc =>
    (evictStep x.vm fte vpage a.grow pc).map fun r =>
      match r.2 with
      | .goto pc => x.goto pid r.1 (.evict page existing fte vpage pc)
      | .ret none => x.exit pid r.1
      | .ret (some k) => x.goto pid r.1 (.add page existing k)
  | .add page existing k =>
    match frameTableAdd x.vm k pid a.fte with
    | none => some (x.goto pid x.vm (.fill page existing k .freePage))
    | some s =>
      some (x.goto pid s (.fill page existing k (if existing then .testFile else .newEntry)))
  | .fill page existing k pc =>
    (fillStep x.vm pid page existing k a pc).map fun r =>
      match r.2 with
      | .goto pc => x.goto pid r.1 (.fill page existing k pc)
      | .ret => x.goto pid r.1 .user
      | .exit => x.exit pid r.1

def machineNext (x : Machine) : Move → Option Machine
  | .store pid addr v =>
    match x.pc pid with
    | .user =>
      if (x.vm.procs pid).phase = .running then
        (userStore x.vm pid addr v).map fun s => { x with vm := s }
      else none
    | _ => none
  | .fault pid f write =>
    match x.pc pid with
    | .user =>
      if (x.vm.procs pid).phase = .running && faults x.vm pid f write
          && (f.user || isUserVaddr f.faultAddr) then
        some (x.goto pid x.vm (.find f))
      else none
    | _ => none
  | .run pid a => runNext x pid a

/-- The interleaved page faults.  They start from any state that the system of
    atomic steps reaches, with no process in the handler. -/
def machine : System Machine Move where
  start x := system.Reachable x.vm ∧ ∀ pid, x.pc pid = .user
  next := machineNext

end Pintos.Vm
