/-
  Pintos.Userprog.Syscall

  The system call handler (syscall.c, userptr.c) as a program over user memory,
  the file-system lock and the kernel memory that a call allocates for itself.

  Every access to user memory may fault.  `page_fault`, entered from the kernel,
  loads a page that is mapped and ends the process otherwise; loading may take
  the file-system lock, and ending the process always does (`process_exit` closes
  the executable under it).  Whether a page is present may change from one access
  to the next, since other processes evict frames.

  What the kernel functions behind a call return (allocations, the file system,
  `process_wait`) is the environment's choice; their assertions are here.
-/

import Pintos.Base.Triple
import Pintos.Userprog.Arguments

namespace Pintos.Userprog

open Pintos.Lib

/-- What the process may do with a page. -/
inductive Rights where
  | unmapped
  | readOnly
  | writable
  deriving DecidableEq, Repr

/-- Where the contents of a mapped page are. -/
inductive Presence where
  | resident
  | inFile
  | inSwap
  deriving DecidableEq, Repr

/-- `struct fd_entry`: a descriptor of a file or of a directory, whose `file` is
    a null pointer. -/
structure FdEntry where
  fd : Int
  isDir : Bool
  deriving DecidableEq, Repr

/-- What a call sees of its process. -/
structure Proc where
  rights : Nat → Rights
  fdTable : List FdEntry
  esp : Nat

/-- The choices of the environment.  Accesses to user memory and answers of
    kernel functions are numbered. -/
structure Env where
  /-- Where page `pg` is at access `n`. -/
  presence : Nat → Nat → Presence
  /-- Loading a page at access `n` evicts a dirty page of a mapping. -/
  evicts : Nat → Bool
  /-- The page cannot be loaded: no frame, no memory, or a short read. -/
  loadFails : Nat → Bool
  /-- What the `n`-th kernel function called returns. -/
  answer : Nat → Nat
  /-- The bytes that are read from files and from the keyboard. -/
  input : Nat → UInt8
  /-- The next entry of the directory that `SYS_READDIR` reads. -/
  dirEntry : Option (List UInt8)

/-- The assertions that a call may run into. -/
inductive Assertion where
  /-- `lock_acquire`: the lock is not held by the running thread. -/
  | lockAcquire
  /-- `lock_release`: it is. -/
  | lockRelease
  /-- `file_length`, `file_seek`, `file_tell`: `file != NULL`. -/
  | file
  /-- `file_seek`: `new_pos >= 0`. -/
  | newPos
  /-- `inode_create`: `length >= 0`. -/
  | length
  /-- `init_thread`: `name != NULL`. -/
  | name
  deriving DecidableEq, Repr

/-- Why a call does not return. -/
inductive Stop where
  /-- A fault on user memory. -/
  | killed
  /-- `exit`, called by the handler. -/
  | exited
  /-- `shutdown_power_off`. -/
  | halted
  | panic (a : Assertion)
  deriving DecidableEq, Repr

structure Kernel where
  mem : Memory
  /-- Accesses to user memory so far. -/
  accesses : Nat
  /-- Answers used so far. -/
  asked : Nat
  /-- The running thread holds `filesys_lock`. -/
  lockHeld : Bool
  /-- The kernel pages and blocks in use, but for those that `process_exit`
      gives back. -/
  inUse : List Nat

/-- The kernel at the start of a call. -/
def Kernel.enter (mem : Memory) (inUse : List Nat) : Kernel := ⟨mem, 0, 0, false, inUse⟩

abbrev Sys := EStateM Stop Kernel

/-- `if (c) stmt;` -/
def when (c : Bool) (stmt : Sys Unit) : Sys Unit := if c then stmt else pure ()

/-! ## The file-system lock, and the end of the process -/

def filesysLockAcquire : Sys Unit := do
  when (← get).lockHeld (throw (.panic .lockAcquire))
  modify fun k => { k with lockHeld := true }

def filesysLockRelease : Sys Unit := do
  when (!(← get).lockHeld) (throw (.panic .lockRelease))
  modify fun k => { k with lockHeld := false }

/-- `process_exit` closes the executable under the lock. -/
def processExit : Sys Unit := do
  filesysLockAcquire
  filesysLockRelease

/-- `exit (-1)` in `page_fault`. -/
def kill {α : Type} : Sys α := do
  processExit
  throw .killed

/-- `exit`, called by the handler. -/
def exit {α : Type} : Sys α := do
  processExit
  throw .exited

def assert (b : Bool) (a : Assertion) : Sys Unit := when (!b) (throw (.panic a))

/-! ## User memory -/

variable (env : Env) (p : Proc)

/-- `page_fault` for a page that is mapped and not present. -/
def loadPage (n pg : Nat) : Sys Unit := do
  -- `swap_evict_frame` writes the page of a mapping back
  when (env.evicts n) do
    filesysLockAcquire
    filesysLockRelease
  when (env.presence n pg == .inFile) do
    filesysLockAcquire
    filesysLockRelease
  when (env.loadFails n) kill

/-- An access to a byte of user memory.  A write to a page that is present but
    read-only faults again and ends the process. -/
def access (write : Bool) (a : Nat) : Sys Unit := do
  let n := (← get).accesses
  modify fun k => { k with accesses := k.accesses + 1 }
  when (p.rights (a / pgSize) == .unmapped) kill
  when (env.presence n (a / pgSize) != .resident) (loadPage env n (a / pgSize))
  when (write && p.rights (a / pgSize) != .writable) kill

def loadByte (a : Nat) : Sys UInt8 := do
  access env p false a
  return (← get).mem a

def storeByte (a : Nat) (b : UInt8) : Sys Unit := do
  access env p true a
  modify fun k => { k with mem := Function.update k.mem a b }

/-- A little-endian word. -/
def loadWord (a : Nat) : Sys Nat := do
  let b₀ ← loadByte env p a
  let b₁ ← loadByte env p (a + 1)
  let b₂ ← loadByte env p (a + 2)
  let b₃ ← loadByte env p (a + 3)
  return b₀.toNat + 256 * b₁.toNat + 256 ^ 2 * b₂.toNat + 256 ^ 3 * b₃.toNat

/-- `memcpy` from user memory, of which only the faults matter here. -/
def copyIn (a : Nat) : Nat → Sys Unit
  | 0 => return ()
  | size + 1 => do
    let _ ← loadByte env p a
    copyIn (a + 1) size

/-- `memcpy` of bytes from outside to user memory. -/
def copyOut (a : Nat) : Nat → Sys Unit
  | 0 => return ()
  | size + 1 => do
    storeByte env p a (env.input (← get).accesses)
    copyOut (a + 1) size

/-- A word as an `int`. -/
def toInt32 (w : Nat) : Int := if w < 2 ^ 31 then w else w - 2 ^ 32

def isUserVaddr (a : Nat) : Bool := a < physBase

/-- The loop of `check_user_buffer`.  The addresses do not wrap around: the loop
    ends at `PHYS_BASE`. -/
def checkUserBuffer (a size : Nat) : Bool :=
  (List.range size).all fun i => a + i ≠ 0 && isUserVaddr (a + i)

/-- `check_user_buffer_writable` also looks at the page table. -/
def checkUserBufferWritable (a size : Nat) : Sys Bool := do
  let n := (← get).accesses
  return checkUserBuffer a size && (List.range size).all fun i =>
    env.presence n ((a + i) / pgSize) ≠ .resident || p.rights ((a + i) / pgSize) ≠ .readOnly

def validatePointers (count : Nat) : Sys Unit :=
  when (!checkUserBuffer (p.esp + 4) (4 * count)) exit

/-- Argument `i` of the call, `*(int *) (f->esp + 4 * i)`. -/
def argument (i : Nat) : Sys Nat := loadWord env p (p.esp + 4 * i)

/-! ## Kernel functions -/

/-- The answer of a kernel function. -/
def ask : Sys Nat := do
  let n := (← get).asked
  modify fun k => { k with asked := n + 1 }
  return env.answer n

/-- `palloc_get_page` or `malloc`: an address that is not in use, or a null
    pointer. -/
def alloc : Sys (Option Nat) := do
  let a ← ask env
  let k ← get
  if a = 0 ∨ a ∈ k.inUse then return none
  set { k with inUse := a :: k.inUse }
  return some a

/-- `palloc_free_page` or `free`. -/
def release (a : Nat) : Sys Unit := modify fun k => { k with inUse := k.inUse.erase a }

/-- The loop of `copy_in_string`, with `n` bytes of the page left. -/
def copyLoop (kpage : Nat) : Nat → Nat → List UInt8 → Sys (Option (Nat × List UInt8))
  | 0, _, _ => do
    release kpage
    return none
  | n + 1, ustr, copied => do
    if !isUserVaddr ustr then
      release kpage
      return none
    let c ← loadByte env p ustr
    if c = 0 then return some (kpage, copied)
    copyLoop kpage n (ustr + 1) (copied ++ [c])

/-- `copy_in_string`: the page and the string in it. -/
def copyInString (ustr : Nat) : Sys (Option (Nat × List UInt8)) := do
  if ustr = 0 then return none
  match ← alloc env with
  | none => return none
  | some kpage => copyLoop env p kpage pgSize ustr []

/-- A call with a string: `copy_in_string`, the call, and the release of the
    page. -/
def withString {α : Type} (ustr : Nat) (call : List UInt8 → Sys α) : Sys α := do
  match ← copyInString env p ustr with
  | none => exit
  | some (kpage, str) =>
    let r ← call str
    release kpage
    return r

/-- A call of a kernel function under the file-system lock. -/
def locked {α : Type} (call : Sys α) : Sys α := do
  filesysLockAcquire
  let r ← call
  filesysLockRelease
  return r

/-- `fd_lookup` -/
def fdLookup (fd : Int) : Option FdEntry := p.fdTable.find? (·.fd == fd)

/-- The name that `process_execute` gives to the new thread: the first token of
    the first 15 characters. -/
def threadName (cmdLine : List UInt8) : Option (List UInt8) :=
  (strtokR 32 (cmdLine.take 15)).map (·.1)

/-- Allocations that all have to succeed. -/
def allAllocated : Nat → Sys Bool
  | 0 => return true
  | n + 1 => do
    if (← ask env) = 0 then return false
    allAllocated n

/-- `process_execute`: the allocations up to the thread's page, `init_thread`,
    and the outcome of the load. -/
def processExecute (cmdLine : List UInt8) : Sys Int := do
  -- the exit state, the copy of the command line, the arguments, the thread
  if !(← allAllocated env 4) then return -1
  assert (threadName cmdLine).isSome .name
  let tid ← ask env
  return tid - 1

/-- `filesys_create` up to `inode_create`, and what it returns. -/
def filesysCreate (path : List UInt8) (initialSize : Int) : Sys Int := do
  if !mayResolve path then return 0
  if (← ask env) = 0 then return 0
  -- `free_map_allocate`
  if (← ask env) = 0 then return 0
  assert (0 ≤ initialSize) .length
  return (← ask env)

def fileLength (entry : FdEntry) : Sys Int := do
  assert (!entry.isDir) .file
  return (← ask env)

def fileSeek (entry : FdEntry) (newPos : Int) : Sys Unit := do
  assert (!entry.isDir) .file
  assert (0 ≤ newPos) .newPos

def fileTell (entry : FdEntry) : Sys Int := do
  assert (!entry.isDir) .file
  return (← ask env)

/-- `dir_readdir`: `strlcpy` of the name to user memory. -/
def dirReaddir (buf : Nat) : Sys Int :=
  match env.dirEntry with
  | none => return 0
  | some name => do
    copyOut env p buf (min nameMax name.length)
    storeByte env p (buf + min nameMax name.length) 0
    return 1

/-- `mmap_file`: the check of the arguments and of the file's length; the rest
    neither touches user memory nor fails an assertion. -/
def mmapFile (fd : Int) (addr : Nat) : Sys Int := do
  if fd ≤ 1 ∨ addr = 0 ∨ addr % pgSize ≠ 0 then return -1
  match fdLookup p fd with
  | none => return -1
  | some entry =>
    let length ← locked (fileLength env entry)
    if length ≤ 0 then return -1
    locked (do let _ ← ask env)
    return (← ask env)

/-- The loop of `read_from_fd`.  A round that goes on reads at least one byte,
    so that `size` rounds are enough. -/
def readLoop (buf size : Nat) : Nat → Nat → Sys Nat
  | 0, total => return total
  | rounds + 1, total => do
    if size ≤ total then return total
    let chunkSize := min (size - total) pgSize
    let chunk := min (← locked (ask env)) chunkSize
    if chunk = 0 then return total
    copyOut env p (buf + total) chunk
    if chunk < chunkSize then return total + chunk
    readLoop buf size rounds (total + chunk)

/-- `read_from_fd` -/
def readFromFd (fd : Int) (buf size : Nat) : Sys Int := do
  if size = 0 then return 0
  when (!(← checkUserBufferWritable env p buf size)) exit
  if fd = 0 then
    copyOut env p buf size
    return size
  match fdLookup p fd with
  | none => return -1
  | some entry =>
    if entry.isDir then return -1
    match ← alloc env with
    | none => exit
    | some bounce =>
      let total ← readLoop env p buf size size 0
      release bounce
      return total

/-- The loop of `write_to_fd`. -/
def writeLoop (buf size : Nat) : Nat → Nat → Sys Nat
  | 0, total => return total
  | rounds + 1, total => do
    if size ≤ total then return total
    let chunkSize := min (size - total) pgSize
    copyIn env p (buf + total) chunkSize
    let chunk := min (← locked (ask env)) chunkSize
    if chunk = 0 then return total
    if chunk < chunkSize then return total + chunk
    writeLoop buf size rounds (total + chunk)

/-- `write_to_fd` -/
def writeToFd (fd : Int) (buf size : Nat) : Sys Int := do
  if size = 0 then return 0
  when (!checkUserBuffer buf size) exit
  if fd = 1 then
    copyIn env p buf size
    return size
  match fdLookup p fd with
  | none => return -1
  | some entry =>
    if entry.isDir then return -1
    match ← alloc env with
    | none => exit
    | some bounce =>
      let total ← writeLoop env p buf size size 0
      release bounce
      return total

/-- The body of `SYS_READDIR`. -/
def sysReaddir (fd : Int) (buf : Nat) : Sys Int := do
  when (!checkUserBuffer buf (nameMax + 1)) exit
  match fdLookup p fd with
  | none => return 0
  | some entry => if entry.isDir then locked (dirReaddir env p buf) else return 0

/-! ## The handler -/

/-- The numbers of lib/syscall-nr.h. -/
inductive SysNr where
  | halt | exit | exec | wait | create | remove | «open» | filesize | read | write | seek | tell
  | close | mmap | munmap | chdir | mkdir | readdir | isdir | inumber
  deriving DecidableEq, Repr

def SysNr.all : List SysNr :=
  [halt, exit, exec, wait, create, remove, «open», filesize, read, write, seek, tell,
    close, mmap, munmap, chdir, mkdir, readdir, isdir, inumber]

/-- The call that a number stands for. -/
def SysNr.decode (n : Nat) : Option SysNr := SysNr.all[n]?

/-- A call with a descriptor that is looked up: `found` runs under the lock. -/
def withFd (fd : Int) (found : FdEntry → Sys Int) : Sys Int :=
  match fdLookup p fd with
  | none => return -1
  | some entry => locked (found entry)

/-- The `switch` of `syscall_handler`; the result is the value of `eax`. -/
def dispatch : SysNr → Sys Int
  | .halt => throw .halted
  | .exit => do
    validatePointers p 1
    let _ ← argument env p 1
    exit
  | .exec => do
    validatePointers p 1
    withString env p (← argument env p 1) (processExecute env)
  | .wait => do
    validatePointers p 1
    let _ ← argument env p 1
    return (← ask env) - 1
  | .create => do
    validatePointers p 2
    -- the size is read after the string has been copied
    withString env p (← argument env p 1) fun path => do
      let initialSize := toInt32 (← argument env p 2)
      locked (filesysCreate env path initialSize)
  | .remove | .open | .chdir | .mkdir => do
    validatePointers p 1
    withString env p (← argument env p 1) fun _ => locked (do return (← ask env) - 1)
  | .close => do
    validatePointers p 1
    withFd p (toInt32 (← argument env p 1)) fun _ => return 0
  | .read => do
    validatePointers p 3
    let fd := toInt32 (← argument env p 1)
    let buf ← argument env p 2
    let size ← argument env p 3
    readFromFd env p fd buf size
  | .filesize => do
    validatePointers p 1
    withFd p (toInt32 (← argument env p 1)) (fileLength env)
  | .write => do
    validatePointers p 3
    let fd := toInt32 (← argument env p 1)
    let buf ← argument env p 2
    let size ← argument env p 3
    writeToFd env p fd buf size
  | .seek => do
    validatePointers p 2
    let fd := toInt32 (← argument env p 1)
    let position ← argument env p 2
    withFd p fd fun entry => do
      fileSeek entry (toInt32 position)
      return 0
  | .tell => do
    validatePointers p 1
    withFd p (toInt32 (← argument env p 1)) (fileTell env)
  | .mmap => do
    validatePointers p 2
    let fd := toInt32 (← argument env p 1)
    let addr ← argument env p 2
    mmapFile env p fd addr
  | .munmap => do
    validatePointers p 1
    let _ ← argument env p 1
    -- `memory_mapping_unmap` writes the pages back
    locked (do let _ ← ask env)
    return 0
  | .readdir => do
    validatePointers p 2
    let fd := toInt32 (← argument env p 1)
    let buf ← argument env p 2
    sysReaddir env p fd buf
  | .isdir => do
    validatePointers p 1
    let fd := toInt32 (← argument env p 1)
    return if (fdLookup p fd).any (·.isDir) then 1 else 0
  | .inumber => do
    validatePointers p 1
    withFd p (toInt32 (← argument env p 1)) fun _ => do return (← ask env)

/-- `syscall_handler` -/
def syscallHandler : Sys Int := do
  when (!checkUserBuffer p.esp 4) exit
  match SysNr.decode (← argument env p 0) with
  | none => return 0
  | some nr => dispatch env p nr

end Pintos.Userprog
