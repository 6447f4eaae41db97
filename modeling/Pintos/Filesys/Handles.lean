/-
  Pintos.Filesys.Handles

  Open inodes and the handles on them: `inode_open`, `inode_close`, write
  denial (filesys/inode.c, filesys/file.c), and the places that hold handles,
  which are the descriptors, the working directory, the executable and the
  mappings of a process (userprog/syscall.c, userprog/process.c).

  Every `struct file` and `struct dir` has one holder, so a holder has the
  structure itself instead of a pointer to it.  The blocks of an inode are left
  out; `inode_write_at` gives it any contents when writes are not denied, and
  `inode_close` logs the inodes whose blocks it gives back.
-/

import Pintos.Base.Run

namespace Pintos.Filesys

open Function

open Base

abbrev Sector := Nat

/-- `ROOT_DIR_SECTOR`. -/
def rootDirSector : Sector := 1

/-- `struct inode`, of an inode on `open_inodes`. -/
structure Inode where
  openCnt : Nat
  denyWriteCnt : Nat
  removed : Bool
  deriving DecidableEq, Repr

/-- The open inodes by sector, the contents of the inodes, and the inodes whose
    blocks have been given back. -/
structure Store where
  inodes : Sector → Option Inode
  data : Sector → List UInt8
  released : List Sector

/-- `struct file`. -/
structure File where
  inode : Sector
  denyWrite : Bool
  deriving DecidableEq, Repr

/-! ## Inodes -/

namespace Store

def setInode (s : Store) (n : Sector) (i : Inode) : Store :=
  { s with inodes := update s.inodes n (some i) }

/-- `inode_reopen`. -/
def inodeReopen (s : Store) (n : Sector) : Store :=
  match s.inodes n with
  | some i => s.setInode n { i with openCnt := i.openCnt + 1 }
  | none => s

/-- `inode_open`, when its allocation succeeds. -/
def inodeOpen (s : Store) (n : Sector) : Store :=
  match s.inodes n with
  | some _ => s.inodeReopen n
  | none => s.setInode n ⟨1, 0, false⟩

/-- `inode_close`. -/
def inodeClose (s : Store) (n : Sector) : Store :=
  match s.inodes n with
  | some i =>
    if i.openCnt - 1 = 0 then
      { s with
        inodes := update s.inodes n none
        released := if i.removed then s.released ++ [n] else s.released }
    else s.setInode n { i with openCnt := i.openCnt - 1 }
  | none => s

/-- `inode_remove`. -/
def inodeRemove (s : Store) (n : Sector) : Store :=
  match s.inodes n with
  | some i => s.setInode n { i with removed := true }
  | none => s

/-- `inode_deny_write`; `none` is the failed assertion. -/
def inodeDenyWrite (s : Store) (n : Sector) : Option Store :=
  (s.inodes n).bind fun i =>
    if i.denyWriteCnt + 1 ≤ i.openCnt then
      some (s.setInode n { i with denyWriteCnt := i.denyWriteCnt + 1 })
    else none

/-- `inode_allow_write`; `none` is a failed assertion. -/
def inodeAllowWrite (s : Store) (n : Sector) : Option Store :=
  (s.inodes n).bind fun i =>
    if 0 < i.denyWriteCnt ∧ i.denyWriteCnt ≤ i.openCnt then
      some (s.setInode n { i with denyWriteCnt := i.denyWriteCnt - 1 })
    else none

/-- `inode_write_at`, with the contents it leaves when writes are not denied. -/
def inodeWriteAt (s : Store) (n : Sector) (new : List UInt8) : Store :=
  match s.inodes n with
  | some i =>
    if i.denyWriteCnt ≠ 0 then s else { s with data := update s.data n new }
  | none => s

/-! ## Files and directories -/

/-- `file_deny_write`. -/
def fileDenyWrite (s : Store) (f : File) : Option (Store × File) :=
  if f.denyWrite then some (s, f)
  else (s.inodeDenyWrite f.inode).map fun s => (s, { f with denyWrite := true })

/-- `file_allow_write`. -/
def fileAllowWrite (s : Store) (f : File) : Option (Store × File) :=
  if f.denyWrite then
    (s.inodeAllowWrite f.inode).map fun s => (s, { f with denyWrite := false })
  else some (s, f)

/-- `file_close`. -/
def fileClose (s : Store) : Option File → Option Store
  | none => some s
  | some f => (s.fileAllowWrite f).map fun r => r.1.inodeClose r.2.inode

/-- `file_open` on an inode the caller has opened; `ok` says whether its
    allocation succeeds. -/
def fileOpen (s : Store) (n : Sector) (ok : Bool) : Store × Option File :=
  if ok then (s, some ⟨n, false⟩) else (s.inodeClose n, none)

/-- `file_reopen`. -/
def fileReopen (s : Store) (f : File) (ok : Bool) : Store × Option File :=
  (s.inodeReopen f.inode).fileOpen f.inode ok

/-- `dir_open` on an inode the caller has opened. -/
def dirOpen (s : Store) (n : Sector) (ok : Bool) : Store × Option Sector :=
  if ok then (s, some n) else (s.inodeClose n, none)

/-- `dir_close`. -/
def dirClose (s : Store) : Option Sector → Store
  | none => s
  | some n => s.inodeClose n

end Store

/-! ## Processes -/

/-- `struct fd_entry`. -/
structure FdEntry where
  fd : Nat
  file : Option File
  dir : Option Sector
  deriving DecidableEq, Repr

/-- How far a process is: started, with its executable open, with writes to it
    denied, loaded, its load failed, exited. -/
inductive Stage where
  | started
  | opened
  | denied
  | running
  | failed
  | exited
  deriving DecidableEq, Repr

/-- What a process holds: the fields of `struct thread` with handles. -/
structure Process where
  stage : Stage
  cwd : Option Sector
  exe : Option File
  fdTable : List FdEntry
  nextFd : Nat
  mmapTable : List (Nat × File)
  nextMapid : Nat
  deriving DecidableEq, Repr

/-- The store, the processes, and the file objects of the kernel itself, such as
    `free_map_file`. -/
structure State where
  store : Store
  procs : List Process
  kernel : List File

/-- `fd_alloc` and the assignment to the entry. -/
def Process.fdAlloc (P : Process) (file : Option File) (dir : Option Sector) : Process :=
  { P with
    fdTable := P.fdTable ++ [⟨P.nextFd, file, dir⟩]
    nextFd := P.nextFd + 1 }

/-- `fd_lookup`. -/
def Process.fdLookup (P : Process) (fd : Nat) : Option FdEntry :=
  P.fdTable.find? fun e => e.fd == fd

/-- The start of `start_process`: the working directory is that of the parent. -/
def startProcess (s : Store) (parentCwd : Option Sector) (ok : Bool) : Store × Process :=
  let r := match parentCwd with
    | some n => (s.inodeReopen n).dirOpen n ok
    | none => (s.inodeOpen rootDirSector).dirOpen rootDirSector ok
  (r.1, ⟨.started, r.2, none, [], 2, [], 0⟩)

/-- `load` opens the executable; `target` is the inode the path leads to. -/
def loadOpen (s : Store) (P : Process) (target : Option Sector) (ok : Bool) : Store × Process :=
  match target with
  | none => (s, { P with stage := .failed })
  | some n =>
    match (s.inodeOpen n).fileOpen n ok with
    | (s, none) => (s, { P with stage := .failed })
    | (s, some f) => (s, { P with stage := .opened, exe := some f })

/-- `load` denies writes to the executable. -/
def loadDeny (s : Store) (P : Process) : Option (Store × Process) :=
  P.exe.bind fun f =>
    (s.fileDenyWrite f).map fun r => (r.1, { P with stage := .denied, exe := some r.2 })

/-- `file_allow_write (exe); file_close (exe)`, in `load` and `process_exit`. -/
def closeExe (s : Store) : Option File → Option Store
  | none => some s
  | some f => (s.fileAllowWrite f).bind fun r => r.1.fileClose (some r.2)

/-- The end of `load`. -/
def loadDone (s : Store) (P : Process) (success : Bool) : Option (Store × Process) :=
  if success then some (s, { P with stage := .running })
  else (closeExe s P.exe).map fun s => (s, { P with stage := .failed, exe := none })

/-- `process_exit`; the entries of the descriptor table are freed after
    `file_close (entry->file)`. -/
def processExit (s : Store) (P : Process) : Option (Store × Process) :=
  (P.mmapTable.foldlM (fun (s : Store) m => s.fileClose (some m.2)) s).bind fun s =>
    (closeExe (s.dirClose P.cwd) P.exe).bind fun s =>
      (P.fdTable.foldlM (fun (s : Store) e => s.fileClose e.file) s).map fun s =>
        (s, { P with stage := .exited, cwd := none, exe := none, fdTable := [], mmapTable := [] })

/-- `SYS_OPEN` of inode `n`; `ok` and `okFd` are the outcomes of its
    allocations. -/
def sysOpen (s : Store) (P : Process) (n : Sector) (isDir ok okFd : Bool) : Option (Store × Process) :=
  let s := s.inodeOpen n
  if (s.inodes n).any (·.removed) then some (s.inodeClose n, P)
  else if isDir then
    match s.dirOpen n ok with
    | (s, none) => some (s, P)
    | (s, some d) => some (if okFd then (s, P.fdAlloc none (some d)) else (s.dirClose (some d), P))
  else
    match s.fileOpen n ok with
    | (s, none) => some (s, P)
    | (s, some f) =>
      if okFd then some (s, P.fdAlloc (some f) none) else (s.fileClose (some f)).map (·, P)

/-- `fd_close`. -/
def fdClose (s : Store) (P : Process) (e : FdEntry) : Option (Store × Process) :=
  let P := { P with fdTable := P.fdTable.erase e }
  match e.dir with
  | some d => some (s.dirClose (some d), P)
  | none => (s.fileClose e.file).map (·, P)

/-- `mmap_file`, for an entry of a file; `ok` is the outcome of `file_reopen`,
    `okMap` that of the rest. -/
def mmapFile (s : Store) (P : Process) (f : File) (ok okMap : Bool) : Option (Store × Process) :=
  match s.fileReopen f ok with
  | (s, none) => some (s, P)
  | (s, some g) =>
    if okMap then
      some (s, { P with mmapTable := P.mmapTable ++ [(P.nextMapid, g)], nextMapid := P.nextMapid + 1 })
    else (s.fileClose (some g)).map (·, { P with nextMapid := P.nextMapid + 1 })

/-- `munmap_file`. -/
def munmapFile (s : Store) (P : Process) (m : Nat × File) : Option (Store × Process) :=
  (s.fileClose (some m.2)).map (·, { P with mmapTable := P.mmapTable.erase m })

/-- `filesys_chdir` to the directory in sector `n`. -/
def sysChdir (s : Store) (P : Process) (n : Sector) (ok : Bool) : Store × Process :=
  match (s.inodeOpen n).dirOpen n ok with
  | (s, none) => (s, P)
  | (s, some d) => (s.dirClose P.cwd, { P with cwd := some d })

/-! ## The system -/

/-- What can happen: calls on file objects of the kernel, the steps of starting
    and ending a process, the system calls that open, close or write, and
    `filesys_remove`. -/
inductive Op where
  | fileOpen (n : Sector) (ok : Bool)
  | fileReopen (f : File) (ok : Bool)
  | fileDenyWrite (f : File)
  | fileAllowWrite (f : File)
  | fileClose (f : File)
  | fileWrite (f : File) (new : List UInt8)
  | startProcess (parent : Option Nat) (ok : Bool)
  | loadOpen (p : Nat) (target : Option Sector) (ok : Bool)
  | loadDeny (p : Nat)
  | loadDone (p : Nat) (success : Bool)
  | exit (p : Nat)
  | open (p : Nat) (n : Sector) (isDir ok okFd : Bool)
  | close (p fd : Nat)
  | write (p fd : Nat) (new : List UInt8)
  | mmap (p fd : Nat) (ok okMap : Bool)
  | writeBack (p : Nat) (m : Nat × File) (new : List UInt8)
  | munmap (p : Nat) (m : Nat × File)
  | chdir (p : Nat) (n : Sector) (ok : Bool)
  | remove (n : Sector)

namespace State

/-- A step of process `p`, in a stage that allows it. -/
def onProcess (s : State) (p : Nat) (stage : Stage → Bool)
    (f : Process → Option (Store × Process)) : Option State :=
  (s.procs[p]?).bind fun P =>
    if stage P.stage then
      (f P).map fun r => { s with store := r.1, procs := s.procs.set p r.2 }
    else none

/-- A step on a file object of the kernel; the list is in no order. -/
def onKernel (s : State) (f : File) (g : Option (Store × List File)) : Option State :=
  if f ∈ s.kernel then
    g.map fun r => { s with store := r.1, kernel := r.2 ++ s.kernel.erase f }
  else none

def next (s : State) : Op → Option State
  | .fileOpen n ok =>
    let r := (s.store.inodeOpen n).fileOpen n ok
    some { s with store := r.1, kernel := r.2.toList ++ s.kernel }
  | .fileReopen f ok =>
    let r := s.store.fileReopen f ok
    s.onKernel f (some (r.1, r.2.toList ++ [f]))
  | .fileDenyWrite f => s.onKernel f ((s.store.fileDenyWrite f).map fun r => (r.1, [r.2]))
  | .fileAllowWrite f => s.onKernel f ((s.store.fileAllowWrite f).map fun r => (r.1, [r.2]))
  | .fileClose f => s.onKernel f ((s.store.fileClose (some f)).map fun r => (r, []))
  | .fileWrite f new => s.onKernel f (some (s.store.inodeWriteAt f.inode new, [f]))
  | .startProcess parent ok =>
    let r := startProcess s.store (parent.bind fun p => (s.procs[p]?).bind Process.cwd) ok
    some { s with store := r.1, procs := s.procs ++ [r.2] }
  | .loadOpen p target ok =>
    s.onProcess p (· == .started) fun P => some (Filesys.loadOpen s.store P target ok)
  | .loadDeny p => s.onProcess p (· == .opened) (Filesys.loadDeny s.store)
  | .loadDone p success =>
    s.onProcess p (· == .denied) fun P => Filesys.loadDone s.store P success
  | .exit p => s.onProcess p (· != .exited) (processExit s.store)
  | .open p n isDir ok okFd =>
    s.onProcess p (· == .running) fun P => sysOpen s.store P n isDir ok okFd
  | .close p fd =>
    s.onProcess p (· == .running) fun P => (P.fdLookup fd).bind (fdClose s.store P)
  | .write p fd new =>
    s.onProcess p (· == .running) fun P =>
      ((P.fdLookup fd).bind FdEntry.file).map fun f => (s.store.inodeWriteAt f.inode new, P)
  | .mmap p fd ok okMap =>
    s.onProcess p (· == .running) fun P =>
      ((P.fdLookup fd).bind FdEntry.file).bind fun f => mmapFile s.store P f ok okMap
  | .writeBack p m new =>
    s.onProcess p (· != .exited) fun P =>
      if m ∈ P.mmapTable then some (s.store.inodeWriteAt m.2.inode new, P) else none
  | .munmap p m =>
    s.onProcess p (· == .running) fun P =>
      if m ∈ P.mmapTable then munmapFile s.store P m else none
  | .chdir p n ok => s.onProcess p (· == .running) fun P => some (sysChdir s.store P n ok)
  | .remove n =>
    some { s with store := ((s.store.inodeOpen n).inodeRemove n).inodeClose n }

/-- Nobody has opened anything yet. -/
def fresh : State := ⟨⟨fun _ => none, fun _ => [], []⟩, [], []⟩

end State

/-- No inode is open. -/
def handles : System State Op where
  start s := (∀ n, s.store.inodes n = none) ∧ s.store.released = [] ∧ s.procs = [] ∧ s.kernel = []
  next := State.next

end Pintos.Filesys
